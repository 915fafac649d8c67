import LiveCheck.Proofs.Parsing.Account

/-!
# What a parse accounts for

A parse gives a tree, and if nothing is reported then the tree accounts for all of the text.
-/

/-!
## The result of a parse is a tree

Whatever the text is, also when it is full of errors, the nodes below the root form a tree: children
come before their parents and know them, and no node has two of them. So walking down meets every
node once, and climbing up ends at the root.
-/

namespace LiveCheck

/-- The nodes below the root form a tree, and its links up and down agree. -/
structure Arena.IsTree (a : Arena) (root : NodeId) : Prop where
  /-- Children come before their parent, and it is their parent. -/
  children : ∀ n, a.Reachable root n → ∀ c ∈ a.children n, c < n ∧ a.parent? c = some n
  /-- Every node but the root is a child of one node, and once. -/
  parent : ∀ n, a.Reachable root n → n ≠ root →
    ∃ p, a.Reachable root p ∧ (a.children p).count n = 1 ∧
      ∀ q, a.Reachable root q → n ∈ a.children q → q = p
  /-- Walking down from the root meets every node once. -/
  walk : (a.walk root).Nodup ∧ ∀ n, n ∈ a.walk root ↔ a.Reachable root n
  /-- Climbing up meets larger and larger nodes and ends at the root. -/
  ancestors : ∀ n, a.Reachable root n →
    (a.ancestors n).Pairwise (· < ·) ∧ (a.ancestors n).getLast? = some root

/-- A forest with one root that has no parent is a tree. -/
theorem Arena.Forest.isTree {a : Arena} {root : NodeId} {ns : List NodeId}
    (h : a.Forest [root] ns) (hnodup : ns.Nodup) (hroot : a.parent? root = none) :
    a.IsTree root where
  children n hn c hc := by
    obtain ⟨hlt, hparent, -⟩ := (h.children (h.reachable_iff.mp hn)).1 c hc
    exact ⟨hlt, hparent⟩
  parent n hn hne := by
    obtain ⟨p, hp, hchild⟩ := hn.parent hne
    obtain ⟨hchildren, hsublist⟩ := h.children (h.reachable_iff.mp hp)
    have hcount : (a.children p).count n = 1 := by
      rw [(hnodup.sublist hsublist).count, if_pos hchild]
    refine ⟨p, hp, hcount, fun q hq hchild' => ?_⟩
    have hparent := (hchildren n hchild).2.1
    have hparent' := ((h.children (h.reachable_iff.mp hq)).1 n hchild').2.1
    exact Option.some.inj (hparent'.symm.trans hparent)
  walk := by
    rw [h.walk]
    exact ⟨hnodup, fun n => h.reachable_iff.symm⟩
  ancestors n hn := by
    obtain ⟨hpairwise, hlast, -⟩ :=
      h.ancestorsUpTo hroot (h.reachable_iff.mp hn) (Nat.le_add_right a.size n)
    exact ⟨hpairwise, hlast⟩

/-- **The result of a parse is a tree.** For every text, the nodes below the root form a tree in
which the links to children and to parents agree. -/
theorem isTree_parse (text : String) : (parse text).tree.arena.IsTree (parse text).tree.root := by
  obtain ⟨ns, hforest, hnodup, hroot, -⟩ := accounted_parse text
  exact hforest.isTree hnodup hroot

end LiveCheck

/-!
## No token is lost or duplicated silently

If a parse reports nothing, its tree accounts for the text: the names in the tree are the names in
the text, and every value in the text is part of one value in the tree.
-/

namespace LiveCheck

/-- Numbers and string literals. -/
def TokenKind.isValue : TokenKind → Bool
  | .int | .float | .complex | .string | .bytes => true
  | _ => false

/-- Whether a span lies within another one. -/
def Span.Inside (s t : Span) : Prop := t.start ≤ s.start ∧ s.stop ≤ t.stop

namespace Arena

/-- Whether the node is a name. -/
def isName (a : Arena) (i : NodeId) : Bool := ((a.data? i).map NodeData.isName).getD false

/-- The nodes below the root account for the tokens. -/
structure AccountsFor (a : Arena) (root : NodeId) (tokens : List Token) : Prop where
  /-- The names in the tree are the names in the text, one by one. -/
  names : ((a.walk root).filter a.isName).map (fun i => (a.span i, a.nameText? i)) =
    (tokens.filter (·.kind == .name)).map fun token => (token.span, some token.text)
  /-- Every value in the text lies within one value in the tree. -/
  values : ∀ token ∈ tokens, token.kind.isValue = true →
    ∃ i kind text, a.Reachable root i ∧ a.data? i = some (.constant kind text) ∧
      token.span.Inside (a.span i) ∧
      ∀ j kind' text', a.Reachable root j → a.data? j = some (.constant kind' text') →
        token.span.Inside (a.span j) → j = i
  /-- The tree has no gaps. -/
  formed : ∀ i, a.Reachable root i → a.data? i ≠ some .malformed

variable {a : Arena} {tokens taken : List Token} {ns : List NodeId} {part : Option NodeId}

private theorem Part.names (h : a.Part taken part) :
    (part.toList.filter a.isName).map (fun i => (a.span i, a.nameText? i)) =
      (taken.filter (·.kind == .name)).map fun token => (token.span, some token.text) := by
  cases h with
  | @passed token hk =>
    have hname : (token.kind == .name) = false := by
      cases hkind : token.kind <;> rw [hkind] at hk <;> first | rfl | cases hk
    simp [hname]
  | @name token i atom hk hdata htext hspan =>
    have hname : a.isName i = true := by rw [isName, hdata]; rfl
    have htext : a.nameText? i = some token.text := by
      simp only [nameText?, hdata, NameTable.text, Array.getD_eq_getD_getElem?, htext,
        Option.getD_some]
    simp [hname, hk, htext, hspan]
  | @value taken first last i kind text hk _ _ hdata _ =>
    have hname : a.isName i = false := by rw [isName, hdata]; rfl
    have hnone : taken.filter (·.kind == .name) = [] :=
      List.filter_eq_nil_iff.mpr fun token htoken heq => hk token htoken (beq_iff_eq.mp heq)
    simp [hname, hnone]

private theorem Shows.names (h : a.Shows tokens ns) :
    (ns.filter a.isName).map (fun i => (a.span i, a.nameText? i)) =
      (tokens.filter (·.kind == .name)).map fun token => (token.span, some token.text) := by
  obtain ⟨parts, rfl, hleaves, hparts⟩ := h
  have hfilter : ns.filter a.isName = (ns.filter a.isLeaf).filter a.isName := by
    rw [List.filter_filter]
    refine List.filter_congr fun i _ => ?_
    rw [isName, isLeaf]
    rcases a.data? i with - | data
    · rfl
    · cases data <;> rfl
  rw [hfilter, hleaves]
  clear hfilter hleaves
  induction parts with
  | nil => rfl
  | cons part parts ih =>
    have hpart := (hparts part List.mem_cons_self).names
    have hrest := ih fun other hother => hparts other (List.mem_cons_of_mem part hother)
    have hcons : (part :: parts).filterMap Prod.snd = part.2.toList ++ parts.filterMap Prod.snd := by
      obtain ⟨taken, found⟩ := part
      cases found <;> rfl
    rw [hcons, List.filter_append, List.map_append, hpart, hrest, List.flatMap_cons,
      List.filter_append, List.map_append]

private theorem Part.span {i : NodeId} {kind : ConstantKind} {text : Option String}
    (h : a.Part taken (some i)) (hdata : a.data? i = some (.constant kind text)) :
    ∃ first last, taken.head? = some first ∧ taken.getLast? = some last ∧
      a.span i = ⟨first.span.start, last.span.stop⟩ := by
  cases h with
  | name _ hname _ _ => cases hdata.symm.trans hname
  | value _ hfirst hlast _ hspan => exact ⟨_, _, hfirst, hlast, hspan⟩

private theorem Part.constant {token : Token} (h : a.Part taken part) (htoken : token ∈ taken)
    (hvalue : token.kind.isValue = true) :
    ∃ i kind text, part = some i ∧ a.data? i = some (.constant kind text) := by
  cases h with
  | passed hk =>
    rw [List.mem_singleton.mp htoken] at hvalue
    cases hkind : token.kind <;> simp_all [TokenKind.isValue, TokenKind.isContent]
  | name hk _ _ _ =>
    rw [List.mem_singleton.mp htoken, hk] at hvalue
    cases hvalue
  | value _ _ _ hdata _ => exact ⟨_, _, _, rfl, hdata⟩

private theorem Shows.values (h : a.Shows tokens ns) (hordered : tokens.Pairwise Token.Precedes)
    (horder : ∀ x ∈ tokens, x.span.start ≤ x.span.stop) {token : Token} (htoken : token ∈ tokens)
    (hvalue : token.kind.isValue = true) (hsize : token.span.start < token.span.stop) :
    ∃ i ∈ ns, ∃ kind text, a.data? i = some (.constant kind text) ∧
      token.span.Inside (a.span i) ∧
      ∀ j ∈ ns, ∀ kind' text', a.data? j = some (.constant kind' text') →
        token.span.Inside (a.span j) → j = i := by
  obtain ⟨parts, rfl, hleaves, hparts⟩ := h
  obtain ⟨⟨taken, part⟩, hpart, htaken⟩ := List.mem_flatMap.mp htoken
  obtain ⟨i, kind, text, hfound, hdata⟩ := (hparts _ hpart).constant htaken hvalue
  have hfound : part = some i := hfound
  subst hfound
  have hnode (j : NodeId) : (∃ part ∈ parts, part.2 = some j) ↔ j ∈ ns ∧ a.isLeaf j = true := by
    rw [← List.mem_filter, hleaves, List.mem_filterMap]
  -- The tokens are those before the part, those of the part and those behind it.
  obtain ⟨xs, ys, rfl⟩ := List.append_of_mem hpart
  rw [List.flatMap_append, List.flatMap_cons] at hordered horder
  obtain ⟨-, hordered, hbefore⟩ := List.pairwise_append.mp hordered
  obtain ⟨hown, -, hbehind⟩ := List.pairwise_append.mp hordered
  refine ⟨i, ((hnode i).mp ⟨_, hpart, rfl⟩).1, kind, text, hdata, ?_, fun j hj kind' text' hdata' hinside => ?_⟩
  · obtain ⟨first, last, hfirst, hlast, hspan⟩ := (hparts _ hpart).span hdata
    have horder' : ∀ x ∈ taken, x.span.start ≤ x.span.stop := fun x hx =>
      horder x (List.mem_append_right _ (List.mem_append_left _ hx))
    rw [hspan]
    exact ⟨Token.start_le_start hown horder' hfirst htaken,
      Token.stop_le_stop hown horder' hlast htaken⟩
  · have hleaf : a.isLeaf j = true := by rw [isLeaf, hdata']; rfl
    obtain ⟨⟨taken', part'⟩, hpart', hfound'⟩ := (hnode j).mpr ⟨hj, hleaf⟩
    have hfound' : part' = some j := hfound'
    subst hfound'
    obtain ⟨first, last, hfirst, hlast, hspan⟩ := (hparts _ hpart').span hdata'
    obtain ⟨hstart, hstop⟩ := hspan ▸ hinside
    rcases List.mem_append.mp hpart' with hpart' | hpart'
    · have hprecedes : last.Precedes token := hbefore last
        (List.mem_flatMap.mpr ⟨_, hpart', List.mem_of_getLast? hlast⟩) token
        (List.mem_append_left _ htaken)
      have hlt := Nat.lt_of_lt_of_le hsize (Nat.le_trans hstop hprecedes)
      exact absurd hlt (Nat.lt_irrefl _)
    · rcases List.mem_cons.mp hpart' with heq | hpart'
      · cases heq
        rfl
      · have hprecedes : token.Precedes first := hbehind token htaken first
          (List.mem_flatMap.mpr ⟨_, hpart', List.mem_of_head? hfirst⟩)
        have hlt := Nat.lt_of_lt_of_le hsize (Nat.le_trans hprecedes hstart)
        exact absurd hlt (Nat.lt_irrefl _)

end Arena

/-- **No token is lost or duplicated silently.** A parse without problems accounts for all tokens of
the text; and where a node of the tree is malformed, there is a problem. -/
theorem accountsFor_parse (text : String) :
    ((parse text).findings = [] →
      (parse text).tree.arena.AccountsFor (parse text).tree.root (scan text).tokens.toList) ∧
    ∀ i, (parse text).tree.arena.Reachable (parse text).tree.root i →
      (parse text).tree.arena.data? i = some .malformed → (parse text).findings ≠ [] := by
  obtain ⟨ns, hforest, -, -, hclean⟩ := accounted_parse text
  have ht := ordered_scan text
  refine ⟨fun hnone => ?_, fun i hi hbad hnone => ?_⟩
  · obtain ⟨hshows, hformed⟩ := hclean hnone
    obtain ⟨before, stop, htokens, -⟩ := ht.last
    rw [htokens, List.dropLast_concat] at hshows
    have hsub : before.Sublist (scan text).tokens.toList := by
      rw [htokens]
      exact List.sublist_append_left _ _
    have hmem (token : Token) (htoken : token ∈ before) : token ∈ (scan text).tokens :=
      Array.mem_toList_iff.mp (hsub.subset htoken)
    refine ⟨?_, fun token htoken hvalue => ?_, fun i hi => hformed i (hforest.reachable_iff.mp hi)⟩
    · rw [hforest.walk, hshows.names, htokens, List.filter_append, List.map_append]
      exact (List.append_nil _).symm
    · have hbefore : token ∈ before := by
        rw [htokens] at htoken
        rcases List.mem_append.mp htoken with htoken | htoken
        · exact htoken
        · rw [List.mem_singleton.mp htoken] at hvalue
          cases hvalue
      have hline : token.kind.endsLine = false := by
        cases hkind : token.kind <;> rw [hkind] at hvalue <;> first | rfl | cases hvalue
      obtain ⟨i, hi, kind, text, hdata, hinside, hunique⟩ :=
        hshows.values (ht.ordered.sublist hsub) (fun x hx => ht.order x (hmem x hx)) hbefore hvalue
          (ht.size token (hmem token hbefore) hline)
      refine ⟨i, kind, text, hforest.reachable_iff.mpr hi, hdata, hinside, fun j kind' text' hj => ?_⟩
      exact hunique j (hforest.reachable_iff.mp hj) kind' text'
  · exact (hclean hnone).2 i (hforest.reachable_iff.mp hi) hbad

/-- Names, numbers and strings written side by side. -/
theorem accountsFor_assignment : (parse "x = f(1, 'a' 'b')\n").findings = [] ∧
    (parse "x = f(1, 'a' 'b')\n").tree.arena.AccountsFor (parse "x = f(1, 'a' 'b')\n").tree.root
      (scan "x = f(1, 'a' 'b')\n").tokens.toList := by
  have hnone : (parse "x = f(1, 'a' 'b')\n").findings = [] := by decide +kernel
  exact ⟨hnone, (accountsFor_parse _).1 hnone⟩

end LiveCheck
