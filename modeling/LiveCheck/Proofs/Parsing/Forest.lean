import LiveCheck.Tree.Node
import Mathlib.Data.List.Flatten
import Mathlib.Data.List.Perm.Subperm

/-!
# Forests in an arena

An arena only grows: nodes are never changed again, but for their parents. The nodes that wait for a
parent are the roots of a forest; a new node takes the last of them as its children.
-/

namespace LiveCheck

/-! ## Growing arenas -/

/-- All nodes and names of an arena are in a later one. -/
structure Arena.Extends (a b : Arena) : Prop where
  data? : ∀ (node : NodeId) (data : NodeData), a.data? node = some data → b.data? node = some data
  names : ∀ (atom : Nat) (text : String),
    a.names.names[atom]? = some text → b.names.names[atom]? = some text

namespace Arena

variable {a b c : Arena}

theorem Extends.refl (a : Arena) : a.Extends a := ⟨fun _ _ h => h, fun _ _ h => h⟩

theorem Extends.trans (h : a.Extends b) (h' : b.Extends c) : a.Extends c :=
  ⟨fun node data hd => h'.data? node data (h.data? node data hd),
    fun atom text ht => h'.names atom text (h.names atom text ht)⟩

private theorem data_setParent (nodes : Array Node) (parent child node : NodeId) :
    ((setParent nodes parent child)[node]?).map (·.data) = (nodes[node]?).map (·.data) := by
  rw [setParent, Array.getElem?_modify]
  by_cases h : child = node
  · simp [h, Function.comp_def]
  · simp [h]

private theorem data_setParents (nodes : Array Node) (parent node : NodeId)
    (children : List NodeId) :
    ((children.foldl (setParent · parent) nodes)[node]?).map (·.data) =
      (nodes[node]?).map (·.data) := by
  induction children generalizing nodes with
  | nil => rfl
  | cons child children ih => rw [List.foldl_cons, ih, data_setParent]

private theorem size_setParents (nodes : Array Node) (parent : NodeId) (children : List NodeId) :
    (children.foldl (setParent · parent) nodes).size = nodes.size := by
  induction children generalizing nodes with
  | nil => rfl
  | cons child children ih => rw [List.foldl_cons, ih, setParent, Array.size_modify]

/-- A new node holds what it was made of. -/
theorem data?_add (a : Arena) (data : NodeData) (span : Span) :
    (a.add data span).2.data? (a.add data span).1 = some data := by
  simp only [add, Arena.data?]
  rw [Array.getElem?_push, size_setParents, if_pos rfl]
  rfl

/-- A new node leaves the others as they are. -/
theorem extends_add (a : Arena) (data : NodeData) (span : Span) :
    a.Extends (a.add data span).2 where
  data? node found h := by
    have hlt : node < a.nodes.size := by
      obtain ⟨n, hn, -⟩ := Option.map_eq_some_iff.mp h
      exact (Array.getElem?_eq_some_iff.mp hn).1
    simp only [add, Arena.data?]
    rw [Array.getElem?_push, size_setParents, if_neg (Nat.ne_of_lt hlt), data_setParents]
    exact h
  names _ _ h := h

/-- A name that joins the table takes no place of another one. -/
theorem extends_insert (a : Arena) (name : String) :
    a.Extends { a with names := (a.names.insert name).2 } where
  data? _ _ h := h
  names atom text h := by
    simp only [NameTable.insert]
    split
    · exact h
    · have hlt := (Array.getElem?_eq_some_iff.mp h).1
      rw [Array.getElem?_push, if_neg (Nat.ne_of_lt hlt)]
      exact h

/-- A name is found under the number it is given. -/
theorem names_insert (t : NameTable) (name : String) :
    (t.insert name).2.names[(t.insert name).1]? = some name := by
  cases h : t.find? name with
  | none => simp [NameTable.insert, h]
  | some index =>
    have hfound := (Array.findIdx?_eq_some_iff_getElem.mp h)
    obtain ⟨hlt, hname, -⟩ := hfound
    simp only [NameTable.insert, h]
    rw [Array.getElem?_eq_getElem hlt]
    exact congrArg some (beq_iff_eq.mp hname)

end Arena

namespace Arena

variable {a b : Arena} {data : NodeData} {span : Span} {is js ns ms : List NodeId} {i j : NodeId}

/-! ## Adding a node -/

private theorem getElem?_add_of_lt (h : i < a.size) (data : NodeData) (span : Span) :
    ((a.add data span).2.nodes[i]?) =
      (data.children.foldl (setParent · a.nodes.size) a.nodes)[i]? := by
  have hne : i ≠ a.nodes.size := Nat.ne_of_lt h
  rw [add, Array.getElem?_push, size_setParents, if_neg hne]

theorem size_add (a : Arena) (data : NodeData) (span : Span) :
    (a.add data span).2.size = a.size + 1 := by
  rw [size, add, Array.size_push, size_setParents]
  rfl

/-- The nodes that were there hold what they held. -/
theorem data?_add_of_lt (h : i < a.size) (data : NodeData) (span : Span) :
    (a.add data span).2.data? i = a.data? i := by
  rw [data?, getElem?_add_of_lt h, data_setParents]
  rfl

private theorem span_setParents (nodes : Array Node) (parent i : NodeId) (children : List NodeId) :
    ((children.foldl (setParent · parent) nodes)[i]?).map (·.span) = (nodes[i]?).map (·.span) := by
  induction children generalizing nodes with
  | nil => rfl
  | cons child children ih =>
    rw [List.foldl_cons, ih, setParent, Array.getElem?_modify]
    by_cases h : child = i
    · simp [h, Function.comp_def]
    · simp [h]

theorem span_add_of_lt (h : i < a.size) (data : NodeData) (span : Span) :
    (a.add data span).2.span i = a.span i := by
  rw [Arena.span, getElem?_add_of_lt h, span_setParents]
  rfl

theorem span_add (a : Arena) (data : NodeData) (span : Span) :
    (a.add data span).2.span (a.add data span).1 = span := by
  simp only [add, Arena.span]
  rw [Array.getElem?_push, size_setParents, if_pos rfl]
  rfl

private theorem parent_setParents (nodes : Array Node) (parent i : NodeId) (children : List NodeId)
    (h : i < nodes.size) :
    ((children.foldl (setParent · parent) nodes)[i]?).bind (·.parent) =
      if i ∈ children then some parent else (nodes[i]?).bind (·.parent) := by
  induction children generalizing nodes with
  | nil => rfl
  | cons child children ih =>
    rw [List.foldl_cons, ih _ (by rwa [setParent, Array.size_modify]), setParent,
      Array.getElem?_modify, Array.getElem?_eq_getElem h]
    by_cases hi : i ∈ children
    · simp [hi]
    · by_cases hchild : child = i
      · simp [hchild]
      · simp [hi, hchild, Ne.symm hchild]

private theorem parent?_add_of_lt (h : i < a.size) (data : NodeData) (span : Span) :
    (a.add data span).2.parent? i =
      if i ∈ data.children then some (a.add data span).1 else a.parent? i := by
  rw [parent?, getElem?_add_of_lt h, parent_setParents _ _ _ _ h]
  rfl

theorem parent?_add (a : Arena) (data : NodeData) (span : Span) :
    (a.add data span).2.parent? (a.add data span).1 = none := by
  simp only [add, parent?]
  rw [Array.getElem?_push, size_setParents, if_pos rfl]
  rfl

/-! ## Forests -/

/-- The nodes `is` are roots, and `ns` are the nodes of their trees in preorder. -/
inductive Forest (a : Arena) : List NodeId → List NodeId → Prop
  | nil : a.Forest [] []
  | cons {i : NodeId} {is ns ms : List NodeId} {data : NodeData} (hdata : a.data? i = some data)
      (hchildren : ∀ c ∈ data.children, c < i ∧ a.parent? c = some i)
      (hbelow : a.Forest data.children ns) (hrest : a.Forest is ms) :
      a.Forest (i :: is) (i :: (ns ++ ms))

theorem lt_size_of_data? (h : a.data? i = some data) : i < a.size := by
  obtain ⟨node, hnode, -⟩ := Option.map_eq_some_iff.mp h
  exact (Array.getElem?_eq_some_iff.mp hnode).1

theorem Forest.append (h : a.Forest is ns) (h' : a.Forest js ms) :
    a.Forest (is ++ js) (ns ++ ms) := by
  induction h with
  | nil => exact h'
  | cons hdata hchildren hbelow _ _ ih =>
    rw [List.cons_append, List.cons_append, List.append_assoc]
    exact .cons hdata hchildren hbelow ih

theorem Forest.of_append (h : a.Forest (is ++ js) ns) :
    ∃ ns₁ ns₂, ns = ns₁ ++ ns₂ ∧ a.Forest is ns₁ ∧ a.Forest js ns₂ := by
  induction is generalizing ns with
  | nil => exact ⟨[], ns, rfl, .nil, h⟩
  | cons i is ih =>
    cases h with
    | cons hdata hchildren hbelow hrest =>
      obtain ⟨ns₁, ns₂, rfl, h₁, h₂⟩ := ih hrest
      exact ⟨_, ns₂, by simp, .cons hdata hchildren hbelow h₁, h₂⟩

/-- The roots are among the nodes, in the same order. -/
theorem Forest.sublist (h : a.Forest is ns) : is.Sublist ns := by
  induction h with
  | nil => exact .slnil
  | cons _ _ _ _ _ ih => exact (ih.trans (List.sublist_append_right _ _)).cons_cons _

theorem Forest.lt_size (h : a.Forest is ns) (hj : j ∈ ns) : j < a.size := by
  induction h with
  | nil => cases hj
  | cons hdata _ _ _ ihbelow ihrest =>
    rcases List.mem_cons.mp hj with rfl | hj
    · exact lt_size_of_data? hdata
    · exact (List.mem_append.mp hj).elim ihbelow ihrest

/-- A forest depends on what its nodes are and on the parents of those that are not roots. -/
theorem Forest.frame (h : a.Forest is ns) (hnodup : ns.Nodup)
    (hdata : ∀ j ∈ ns, b.data? j = a.data? j)
    (hparent : ∀ j ∈ ns, j ∉ is → b.parent? j = a.parent? j) : b.Forest is ns := by
  induction h with
  | nil => exact .nil
  | @cons i is ns ms data hi hchildren hbelow hrest ihbelow ihrest =>
    obtain ⟨hout, hnodup⟩ := List.nodup_cons.mp hnodup
    obtain ⟨hnodupbelow, hnoduprest, hdisjoint⟩ := List.nodup_append.mp hnodup
    have hbelowmem (j : NodeId) (hj : j ∈ ns) : j ∈ i :: (ns ++ ms) ∧ j ∉ i :: is := by
      refine ⟨List.mem_cons_of_mem _ (List.mem_append_left _ hj), fun hroot => ?_⟩
      rcases List.mem_cons.mp hroot with rfl | hroot
      · exact hout (List.mem_append_left _ hj)
      · exact hdisjoint j hj j (hrest.sublist.subset hroot) rfl
    have hrestmem (j : NodeId) (hj : j ∈ ms) : j ∈ i :: (ns ++ ms) :=
      List.mem_cons_of_mem _ (List.mem_append_right _ hj)
    refine .cons ((hdata i List.mem_cons_self).trans hi) (fun c hc => ?_) ?_ ?_
    · have hmem := hbelowmem c (hbelow.sublist.subset hc)
      exact ⟨(hchildren c hc).1, (hparent c hmem.1 hmem.2).trans (hchildren c hc).2⟩
    · exact ihbelow hnodupbelow (fun j hj => hdata j (hbelowmem j hj).1)
        fun j hj _ => hparent j (hbelowmem j hj).1 (hbelowmem j hj).2
    · refine ihrest hnoduprest (fun j hj => hdata j (hrestmem j hj)) fun j hj hroot => ?_
      refine hparent j (hrestmem j hj) fun hroot' => ?_
      rcases List.mem_cons.mp hroot' with rfl | hroot'
      · exact hout (List.mem_append_right _ hj)
      · exact hroot hroot'

/-- A new node takes the last roots as its children. -/
theorem Forest.add (h : a.Forest is ns) (hchildren : a.Forest data.children ms)
    (hnodup : (ns ++ ms).Nodup) (span : Span) :
    (a.add data span).2.Forest (is ++ [(a.add data span).1])
      (ns ++ (a.add data span).1 :: ms) ∧ (ns ++ (a.add data span).1 :: ms).Nodup := by
  obtain ⟨hnodup₁, hnodup₂, hdisjoint⟩ := List.nodup_append.mp hnodup
  have hfresh (j : NodeId) (hj : j ∈ ns ++ ms) : j < a.size :=
    (List.mem_append.mp hj).elim h.lt_size hchildren.lt_size
  have hbefore : (a.add data span).2.Forest is ns := by
    refine h.frame hnodup₁ (fun j hj => data?_add_of_lt (h.lt_size hj) data span) fun j hj _ => ?_
    rw [parent?_add_of_lt (h.lt_size hj), if_neg]
    exact fun hchild => hdisjoint j hj j (hchildren.sublist.subset hchild) rfl
  have hbelow : (a.add data span).2.Forest data.children ms := by
    refine hchildren.frame hnodup₂
      (fun j hj => data?_add_of_lt (hchildren.lt_size hj) data span) fun j hj hroot => ?_
    rw [parent?_add_of_lt (hchildren.lt_size hj), if_neg hroot]
  refine ⟨hbefore.append ?_, ?_⟩
  · rw [← List.append_nil ms]
    refine .cons (a.data?_add data span) (fun c hc => ?_) hbelow .nil
    have hlt := hchildren.lt_size (hchildren.sublist.subset hc)
    exact ⟨hlt, by rw [parent?_add_of_lt hlt, if_pos hc]⟩
  · refine (List.perm_middle.nodup_iff).mpr (List.nodup_cons.mpr ⟨fun hmem => ?_, hnodup⟩)
    exact Nat.lt_irrefl _ (hfresh _ hmem)

/-! ## Walking a forest -/

/-- The nodes below a root by way of their children. -/
inductive Reachable (a : Arena) (root : NodeId) : NodeId → Prop
  | root : a.Reachable root root
  | child {parent child : NodeId} (h : a.Reachable root parent) (hchild : child ∈ a.children parent) :
    a.Reachable root child

/-- The children of a node are those in its data. -/
theorem children_of_data? (h : a.data? i = some data) : a.children i = data.children := by
  rw [children, h]
  rfl

/-- The children of every node are smaller than the node, and it is their parent; they are roots of
a part of the forest. -/
theorem Forest.children (h : a.Forest is ns) (hj : j ∈ ns) :
    (∀ c ∈ a.children j, c < j ∧ a.parent? c = some j ∧ c ∈ ns) ∧ (a.children j).Sublist ns := by
  induction h with
  | nil => cases hj
  | @cons i is ns ms data hdata hchildren hbelow hrest ihbelow ihrest =>
    have hwiden {ks : List NodeId} (hks : ks.Sublist (i :: (ns ++ ms)))
        (h : (∀ c ∈ a.children j, c < j ∧ a.parent? c = some j ∧ c ∈ ks) ∧
          (a.children j).Sublist ks) :
        (∀ c ∈ a.children j, c < j ∧ a.parent? c = some j ∧ c ∈ i :: (ns ++ ms)) ∧
          (a.children j).Sublist (i :: (ns ++ ms)) :=
      ⟨fun c hc => ⟨(h.1 c hc).1, (h.1 c hc).2.1, hks.subset (h.1 c hc).2.2⟩, h.2.trans hks⟩
    have hns : ns.Sublist (i :: (ns ++ ms)) := (List.sublist_append_left ns ms).cons i
    have hms : ms.Sublist (i :: (ns ++ ms)) := (List.sublist_append_right ns ms).cons i
    rcases List.mem_cons.mp hj with rfl | hj
    · rw [children_of_data? hdata]
      exact ⟨fun c hc => ⟨(hchildren c hc).1, (hchildren c hc).2,
        hns.subset (hbelow.sublist.subset hc)⟩, hbelow.sublist.trans hns⟩
    · rcases List.mem_append.mp hj with hj | hj
      · exact hwiden hns (ihbelow hj)
      · exact hwiden hms (ihrest hj)

private theorem Forest.walkUpTo (h : a.Forest is ns) {fuel : Nat} (hfuel : ∀ i ∈ is, i < fuel) :
    is.flatMap (a.walkUpTo fuel) = ns := by
  induction h generalizing fuel with
  | nil => rfl
  | @cons i is ns ms data hdata hchildren hbelow hrest ihbelow ihrest =>
    have hi : i < fuel := hfuel i List.mem_cons_self
    obtain ⟨fuel, rfl⟩ := Nat.exists_eq_add_one_of_ne_zero (Nat.ne_of_gt (Nat.zero_lt_of_lt hi))
    have hchild (c : NodeId) (hc : c ∈ data.children) : c < fuel :=
      Nat.lt_of_lt_of_le (hchildren c hc).1 (Nat.le_of_lt_succ hi)
    rw [List.flatMap_cons, ihrest fun j hj => hfuel j (List.mem_cons_of_mem i hj), Arena.walkUpTo,
      hdata]
    exact congrArg (i :: · ++ ms) (ihbelow hchild)

theorem Forest.walk (h : a.Forest [i] ns) : a.walk i = ns := by
  have hwalk : [i].flatMap (a.walkUpTo a.size) = ns :=
    h.walkUpTo fun j hj => h.lt_size (h.sublist.subset hj)
  rwa [List.flatMap_singleton] at hwalk

/-- The nodes of a tree are those that can be reached from its root. -/
theorem Forest.reachable_iff (h : a.Forest [i] ns) : a.Reachable i j ↔ j ∈ ns := by
  have hdown (hreach : a.Reachable i j) : j ∈ ns := by
    induction hreach with
    | root => exact h.sublist.subset List.mem_cons_self
    | child _ hchild ih => exact ((h.children ih).1 _ hchild).2.2
  have hup (is ms : List NodeId) (hforest : a.Forest is ms) (hroots : ∀ r ∈ is, a.Reachable i r)
      (hj : j ∈ ms) : a.Reachable i j := by
    induction hforest with
    | nil => cases hj
    | @cons r is ns ms data hdata hchildren hbelow hrest ihbelow ihrest =>
      have hr := hroots r List.mem_cons_self
      rcases List.mem_cons.mp hj with rfl | hj
      · exact hr
      · rcases List.mem_append.mp hj with hj | hj
        · refine ihbelow (fun c hc => hr.child ?_) hj
          rwa [children_of_data? hdata]
        · exact ihrest (fun s hs => hroots s (List.mem_cons_of_mem r hs)) hj
  refine ⟨hdown, hup [i] ns h fun r hr => ?_⟩
  rw [List.mem_singleton.mp hr]
  exact .root

/-- Every node of a tree but its root has a parent there. -/
theorem Reachable.parent (h : a.Reachable i j) (hj : j ≠ i) :
    ∃ parent, a.Reachable i parent ∧ j ∈ a.children parent := by
  cases h with
  | root => exact absurd rfl hj
  | child h hchild => exact ⟨_, h, hchild⟩

/-- The chain of parents goes up to the root, and the nodes on it get larger. -/
theorem Forest.ancestorsUpTo (h : a.Forest [i] ns) (hroot : a.parent? i = none) {fuel : Nat}
    (hj : j ∈ ns) (hfuel : a.size ≤ fuel + j) :
    (a.ancestorsUpTo fuel j).Pairwise (· < ·) ∧ (a.ancestorsUpTo fuel j).getLast? = some i ∧
      ∀ k ∈ a.ancestorsUpTo fuel j, j ≤ k := by
  have hlt := h.lt_size hj
  induction fuel generalizing j with
  | zero =>
    rw [Nat.zero_add] at hfuel
    exact absurd hlt (Nat.not_lt.mpr hfuel)
  | succ fuel ih =>
    rw [Arena.ancestorsUpTo, if_pos hlt]
    by_cases hji : j = i
    · rw [hji, hroot]
      simp
    · obtain ⟨parent, hparent, hchild⟩ := (h.reachable_iff.mpr hj).parent hji
      have hparent := h.reachable_iff.mp hparent
      obtain ⟨hless, hup, -⟩ := (h.children hparent).1 j hchild
      have hroom : a.size ≤ fuel + parent := by
        rw [Nat.add_assoc, Nat.add_comm 1] at hfuel
        exact Nat.le_trans hfuel (Nat.add_le_add_left hless fuel)
      obtain ⟨hpairwise, hlast, hbound⟩ := ih hparent hroom (h.lt_size hparent)
      rw [hup]
      refine ⟨List.pairwise_cons.mpr ⟨fun k hk => ?_, hpairwise⟩, ?_, fun k hk => ?_⟩
      · exact Nat.lt_of_lt_of_le hless (hbound k hk)
      · rw [List.getLast?_cons]
        show some ((a.ancestorsUpTo fuel parent).getLast?.getD j) = some i
        rw [hlast]
        rfl
      · rcases List.mem_cons.mp hk with rfl | hk
        · exact Nat.le_refl _
        · exact Nat.le_of_lt (Nat.lt_of_lt_of_le hless (hbound k hk))

end Arena
end LiveCheck

/-!
## Trees inside trees

A walk over a tree hands the children of a node out to the parts of the walk that the node asks for.
What they get are trees that stand side by side in the tree at hand, in whatever order they are asked
for.
-/

namespace LiveCheck.Arena

variable {a : Arena} {i : NodeId} {is js ks ls ns : List NodeId} {data : NodeData}

private theorem Forest.of_cons (h : a.Forest (i :: is) ns) :
    ∃ ns₁ ns₂, ns = ns₁ ++ ns₂ ∧ a.Forest [i] ns₁ ∧ a.Forest is ns₂ :=
  have h : a.Forest ([i] ++ is) ns := h
  h.of_append

private theorem Forest.nodes_of_perm (hperm : is.Perm js) (h : a.Forest is ns) :
    ∃ ms, a.Forest js ms ∧ ms.Perm ns := by
  induction hperm generalizing ns with
  | nil => exact ⟨ns, h, .refl ns⟩
  | cons i _ ih =>
    cases h with
    | cons hdata hchildren hbelow hrest =>
      obtain ⟨ms, hms, hsame⟩ := ih hrest
      exact ⟨_, .cons hdata hchildren hbelow hms, (hsame.append_left _).cons _⟩
  | swap i j is =>
    obtain ⟨ns₁, ns₂, rfl, h₁, h₂⟩ := h.of_cons
    obtain ⟨ns₂, ns₃, rfl, h₂, h₃⟩ := h₂.of_cons
    exact ⟨_, h₂.append (h₁.append h₃), by
      simpa only [← List.append_assoc] using List.perm_append_comm.append_right ns₃⟩
  | trans _ _ ih₁ ih₂ =>
    obtain ⟨ms, hms, hsame⟩ := ih₁ h
    obtain ⟨ms', hms', hsame'⟩ := ih₂ hms
    exact ⟨ms', hms', hsame'.trans hsame⟩

private theorem Forest.nodes_of_sublist (hsub : js.Sublist is) (h : a.Forest is ns) :
    ∃ ms, a.Forest js ms ∧ ms.Sublist ns := by
  induction hsub generalizing ns with
  | slnil => exact ⟨ns, h, .refl ns⟩
  | cons i _ ih =>
    obtain ⟨ns₁, ns₂, rfl, -, h₂⟩ := h.of_cons
    obtain ⟨ms, hms, hin⟩ := ih h₂
    exact ⟨ms, hms, hin.trans (List.sublist_append_right _ _)⟩
  | cons_cons i _ ih =>
    obtain ⟨ns₁, ns₂, rfl, h₁, h₂⟩ := h.of_cons
    obtain ⟨ms, hms, hin⟩ := ih h₂
    exact ⟨ns₁ ++ ms, h₁.append hms, hin.append_left _⟩

/-- The trees with the roots `js` stand side by side in those with the roots `is`. -/
def Holds (a : Arena) (is js : List NodeId) : Prop :=
  ∀ ns, a.Forest is ns → ∃ ms, a.Forest js ms ∧ ms.Subperm ns

theorem Holds.refl (a : Arena) (is : List NodeId) : a.Holds is is := fun ns h => ⟨ns, h, .refl ns⟩

theorem Holds.trans (h : a.Holds is js) (h' : a.Holds js ks) : a.Holds is ks := by
  intro ns hns
  obtain ⟨ms, hms, hin⟩ := h ns hns
  obtain ⟨ls, hls, hin'⟩ := h' ms hms
  exact ⟨ls, hls, hin'.trans hin⟩

theorem Holds.append (h : a.Holds is js) (h' : a.Holds ks ls) : a.Holds (is ++ ks) (js ++ ls) := by
  intro ns hns
  obtain ⟨ns₁, ns₂, rfl, h₁, h₂⟩ := hns.of_append
  obtain ⟨ms₁, hms₁, hin₁⟩ := h ns₁ h₁
  obtain ⟨ms₂, hms₂, hin₂⟩ := h' ns₂ h₂
  exact ⟨ms₁ ++ ms₂, hms₁.append hms₂, hin₁.append hin₂⟩

theorem holds_of_subperm (h : js.Subperm is) : a.Holds is js := by
  intro ns hns
  obtain ⟨ks, hperm, hsub⟩ := h
  obtain ⟨ms, hms, hin⟩ := hns.nodes_of_sublist hsub
  obtain ⟨ls, hls, hsame⟩ := hms.nodes_of_perm hperm
  exact ⟨ls, hls, hsame.subperm.trans hin.subperm⟩

/-- The trees of the children stand below their parent. -/
theorem holds_children (h : a.data? i = some data) : a.Holds [i] data.children := by
  intro ns hns
  cases hns with
  | cons hdata hchildren hbelow hrest =>
    obtain rfl := Option.some.inj (h.symm.trans hdata)
    exact ⟨_, hbelow, ((List.sublist_append_left _ _).cons _).subperm⟩

theorem holds_flatMap {f : NodeId → List NodeId} (h : ∀ i ∈ is, a.Holds [i] (f i)) :
    a.Holds is (is.flatMap f) := by
  induction is with
  | nil => exact .refl a []
  | cons i is ih =>
    rw [List.forall_mem_cons] at h
    exact h.1.append (ih h.2)

end LiveCheck.Arena

/-!
## Ways up and down a tree

Below a node stand its children and what is below them; above it stand its parent and what is above
that one.
-/

namespace LiveCheck.Arena

variable {a : Arena} {i j k p c root : NodeId} {ns : List NodeId}

theorem exists_data? (h : i < a.size) : ∃ data, a.data? i = some data :=
  ⟨_, congrArg (Option.map Node.data) (Array.getElem?_eq_getElem h)⟩

theorem exists_of_mem_children (h : c ∈ a.children i) :
    ∃ data, a.data? i = some data ∧ c ∈ data.children := by
  rw [children] at h
  rcases hdata : a.data? i with - | data
  · rw [hdata] at h
    cases h
  · exact ⟨data, rfl, by rwa [hdata] at h⟩

theorem Reachable.trans (h : a.Reachable i j) (h' : a.Reachable j k) : a.Reachable i k := by
  induction h' with
  | root => exact h
  | child _ hchild ih => exact ih.child hchild

/-- A way down begins at a child, unless it is empty. -/
theorem Reachable.first (h : a.Reachable i j) :
    j = i ∨ ∃ c ∈ a.children i, a.Reachable c j := by
  induction h with
  | root => exact .inl rfl
  | child _ hchild ih =>
    rcases ih with rfl | ⟨c, hc, hbelow⟩
    · exact .inr ⟨_, hchild, .root⟩
    · exact .inr ⟨c, hc, hbelow.child hchild⟩

private theorem Forest.ancestorsUpTo_congr (h : a.Forest [root] ns) (hroot : a.parent? root = none)
    {fuel fuel' i : Nat} (hi : i ∈ ns) (hfuel : a.size ≤ fuel + i) (hfuel' : a.size ≤ fuel' + i) :
    a.ancestorsUpTo fuel i = a.ancestorsUpTo fuel' i := by
  induction fuel generalizing fuel' i with
  | zero =>
    have hlt : i < a.size := h.lt_size hi
    omega
  | succ fuel ih =>
    have hlt : i < a.size := h.lt_size hi
    obtain ⟨fuel', rfl⟩ := Nat.exists_eq_add_one_of_ne_zero (show fuel' ≠ 0 by omega)
    rw [Arena.ancestorsUpTo, Arena.ancestorsUpTo, if_pos hlt, if_pos hlt]
    by_cases hne : i = root
    · rw [hne, hroot]
      rfl
    · obtain ⟨p, hp, hchild⟩ := (h.reachable_iff.mpr hi).parent hne
      have hp := h.reachable_iff.mp hp
      obtain ⟨hless, hup, -⟩ := (h.children hp).1 i hchild
      have hless : i + 1 ≤ p := hless
      rw [hup]
      exact congrArg (i :: ·) (ih hp (by omega) (by omega))

theorem Forest.ancestors_root (h : a.Forest [root] ns) (hroot : a.parent? root = none) :
    a.ancestors root = [root] := by
  have hlt := h.lt_size (h.sublist.subset List.mem_cons_self)
  obtain ⟨n, hn⟩ := Nat.exists_eq_add_one_of_ne_zero (Nat.ne_zero_of_lt hlt)
  rw [ancestors, hn, Arena.ancestorsUpTo, if_pos hlt, hroot]
  rfl

/-- Above a child stand its parent and what is above that one. -/
theorem Forest.ancestors_child (h : a.Forest [root] ns) (hroot : a.parent? root = none)
    (hp : p ∈ ns) (hc : c ∈ a.children p) : a.ancestors c = c :: a.ancestors p := by
  obtain ⟨hless, hup, hmem⟩ := (h.children hp).1 c hc
  have hlt := h.lt_size hmem
  obtain ⟨n, hn⟩ := Nat.exists_eq_add_one_of_ne_zero (Nat.ne_zero_of_lt hlt)
  have hroom : n + 1 ≤ n + p := Nat.add_le_add_left (Nat.zero_lt_of_lt hless) n
  rw [ancestors, hn, Arena.ancestorsUpTo, if_pos hlt, hup]
  exact congrArg (c :: ·) (h.ancestorsUpTo_congr hroot hp (hn ▸ hroom) (Nat.le_add_right _ _))

end LiveCheck.Arena
