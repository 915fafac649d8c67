import LiveCheck.Proofs.Parsing.BuildingStatements

/-!
# Places in a tree

Nodes stand where their text stands. A child stands inside its parent, and the children of a node
stand one behind the other with something between them. So an offset leads from the root down to one
node, and every node at the offset is met on the way.
-/

namespace LiveCheck

open Text

private theorem Span.touches_iff {s : Span} {offset : Nat} :
    s.touches offset = true ↔ s.start ≤ offset ∧ offset ≤ s.stop := by
  simp [touches]

private theorem Span.Inside.trans {r s t : Span} (h : r.Inside s) (h' : s.Inside t) : r.Inside t :=
  ⟨Nat.le_trans h'.1 h.1, Nat.le_trans h.2 h'.2⟩

private theorem Span.Inside.touches {s t : Span} {offset : Nat} (h : s.Inside t)
    (hs : s.touches offset = true) : t.touches offset = true := by
  rw [touches_iff] at hs ⊢
  exact ⟨Nat.le_trans h.1 hs.1, Nat.le_trans hs.2 h.2⟩

namespace Arena

variable {a : Arena} {root i m c d : NodeId} {is : List NodeId} {offset fuel : Nat}

private theorem Apart.eq_of_touches (h : a.Apart is) (hc : c ∈ is) (hd : d ∈ is)
    (hc' : (a.span c).touches offset = true) (hd' : (a.span d).touches offset = true) : c = d := by
  rw [Span.touches_iff] at hc' hd'
  obtain ⟨x, hx, rfl⟩ := List.getElem_of_mem hc
  obtain ⟨y, hy, rfl⟩ := List.getElem_of_mem hd
  have hpairwise := List.pairwise_iff_getElem.mp h
  rcases Nat.lt_trichotomy x y with hlt | rfl | hlt
  · have hapart := hpairwise x y hx hy hlt
    omega
  · rfl
  · have hapart := hpairwise y x hy hx hlt
    omega

private theorem Nested.inside_of_reachable (h : a.Nested) (hm : a.Reachable i m) :
    (a.span m).Inside (a.span i) := by
  induction hm with
  | root => exact ⟨Nat.le_refl _, Nat.le_refl _⟩
  | child _ hchild ih => exact (h.inside _ _ hchild).trans ih

private theorem Nested.find?_children (h : a.Nested) (hm : a.Reachable i m) (hne : m ≠ i)
    (hat : (a.span m).touches offset = true) :
    ∃ c, (a.children i).find? (a.isAt offset) = some c ∧ a.Reachable c m := by
  obtain ⟨c, hc, hbelow⟩ := hm.first.resolve_left hne
  have hc' := (h.inside_of_reachable hbelow).touches hat
  have hfound : a.isAt offset c = true := by
    simp [isAt, hc', Span.isEmpty, h.size i c hc]
  rcases hfind : (a.children i).find? (a.isAt offset) with - | d
  · exact absurd hfound (List.find?_eq_none.mp hfind c hc)
  · have hd := List.find?_some hfind
    simp only [isAt, Bool.and_eq_true] at hd
    exact ⟨d, rfl, (h.apart i).eq_of_touches hc (List.mem_of_find?_eq_some hfind) hc' hd.1 ▸ hbelow⟩

private theorem Nested.descend (h : a.Nested) (htree : a.IsTree root) (hi : a.Reachable root i)
    (hfuel : i ≤ fuel) (hat : (a.span i).touches offset = true)
    (hmeets : ∀ m, a.Reachable root m → (a.span m).touches offset = true →
      a.Reachable m i ∨ a.Reachable i m) :
    let n := a.descend offset fuel i
    a.Reachable root n ∧ (a.span n).touches offset = true ∧
      ∀ m, a.Reachable root m → (a.span m).touches offset = true → a.Reachable m n := by
  induction fuel generalizing i with
  | zero =>
    refine ⟨hi, hat, fun m hm hm' => (hmeets m hm hm').elim id fun hbelow => ?_⟩
    rcases hbelow.first with rfl | ⟨c, hc, -⟩
    · exact .root
    · have hlt := (htree.children i hi c hc).1
      exact absurd (Nat.lt_of_lt_of_le hlt hfuel) (Nat.not_lt_zero c)
  | succ fuel ih =>
    rw [Arena.descend]
    rcases hfind : (a.children i).find? (a.isAt offset) with - | c
    · refine ⟨hi, hat, fun m hm hm' => (hmeets m hm hm').elim id fun hbelow => ?_⟩
      by_cases hne : m = i
      · exact hne ▸ .root
      · obtain ⟨c, hc, -⟩ := h.find?_children hbelow hne hm'
        cases hfind.symm.trans hc
    · have hc := List.mem_of_find?_eq_some hfind
      have hc' := List.find?_some hfind
      simp only [isAt, Bool.and_eq_true] at hc'
      have hlt := (htree.children i hi c hc).1
      refine ih (hi.child hc) (Nat.le_of_lt_succ (Nat.lt_of_lt_of_le hlt hfuel)) hc'.1 fun m hm hm' => ?_
      rcases hmeets m hm hm' with habove | hbelow
      · exact .inl (habove.child hc)
      · by_cases hne : m = i
        · exact .inl (hne ▸ .child .root hc)
        · obtain ⟨d, hd, hbelow⟩ := h.find?_children hbelow hne hm'
          obtain rfl := Option.some.inj (hfind.symm.trans hd)
          exact .inr hbelow

end Arena

/-- **Nodes stand inside each other, and an offset leads to the innermost one.** In a parse without
problems every node lies inside its parent, and the children of a node stand in the order of the
text and do not touch. So at every offset there is one node such that every other node at the offset
is above it. In every parse the nodes begin and end between two characters of the text. -/
theorem nestedSpans_parse (text : String) :
    let tree := (parse text).tree
    ((parse text).findings = [] →
      (∀ n, tree.arena.Reachable tree.root n →
        (∀ c ∈ tree.arena.children n, (tree.arena.span c).Inside (tree.arena.span n)) ∧
          (tree.arena.children n).Pairwise fun c d =>
            (tree.arena.span c).stop < (tree.arena.span d).start) ∧
      ∀ offset ≤ text.utf8ByteSize, ∃ n, tree.nodeAt? offset = some n ∧
        tree.arena.Reachable tree.root n ∧ (tree.arena.span n).touches offset = true ∧
          ∀ m, tree.arena.Reachable tree.root m → (tree.arena.span m).touches offset = true →
            tree.arena.Reachable m n) ∧
    ∀ n, tree.arena.Reachable tree.root n →
      (tree.arena.span n).start ≤ (tree.arena.span n).stop ∧
        (tree.arena.span n).stop ≤ text.utf8ByteSize ∧
        Boundary text.toList (tree.arena.span n).start ∧
        Boundary text.toList (tree.arena.span n).stop := by
  intro tree
  obtain ⟨hbuilt, hnested⟩ := built_parse text
  obtain ⟨ns, hforest, hnodup, hroot, -⟩ := accounted_parse text
  have htree := hforest.isTree hnodup hroot
  have hbytes : byteLength text.toList = text.utf8ByteSize := by
    rw [← utf8ByteSize_ofList, String.ofList_toList]
  refine ⟨fun hnone => ⟨fun n _ => ⟨(hnested hnone).inside n, (hnested hnone).apart n⟩,
    fun offset hoffset => ?_⟩, fun n hn => ?_⟩
  · have hat : (tree.arena.span tree.root).touches offset = true := by
      rw [hbuilt.whole, hbytes, Span.touches_iff]
      exact ⟨Nat.zero_le offset, hoffset⟩
    have hlt := hbuilt.lt_size .root
    have hinnermost := (hnested hnone).descend htree .root (Nat.le_of_lt hlt) hat fun m hm _ => .inr hm
    exact ⟨_, by rw [Tree.nodeAt?, Arena.nodeAt?, if_pos hat], hinnermost⟩
  · obtain ⟨hle, hstart, hstop⟩ := Span.lies_iff.mp (hbuilt.lies n (hbuilt.lt_size hn))
    exact ⟨hle, hbytes ▸ hstop.le, hstart, hstop⟩

/-- The innermost node at an argument. -/
theorem nestedSpans_argument : (parse "x = f(y)\n").findings = [] ∧
    ∃ n, (parse "x = f(y)\n").tree.nodeAt? 6 = some n ∧
      ∀ m, (parse "x = f(y)\n").tree.arena.Reachable (parse "x = f(y)\n").tree.root m →
        ((parse "x = f(y)\n").tree.arena.span m).touches 6 = true →
        (parse "x = f(y)\n").tree.arena.Reachable m n := by
  have hnone : (parse "x = f(y)\n").findings = [] := by decide +kernel
  obtain ⟨n, hn, -, -, hinnermost⟩ :=
    ((nestedSpans_parse "x = f(y)\n").1 hnone).2 6 (by decide +kernel)
  exact ⟨hnone, n, hn, hinnermost⟩

end LiveCheck
