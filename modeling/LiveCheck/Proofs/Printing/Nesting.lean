import LiveCheck.Proofs.Printing.Displays

/-!
# Reading nested expressions

Calls, subscripts and attributes are read back like the operators that group to the left. With them
every kind of expression is read back from its pieces, if the expressions in it are. The parser
counts how deeply it descends, but only where an expression begins anew: in brackets, and behind
`else`. By induction on the depth every expression is read back that does not begin too many of them
inside one another, however many operators and trailers it has.
-/

namespace LiveCheck

/-! ## What counts as nesting -/

/-- The levels of an operand with `nesting` levels: one more if it stands in parentheses. A tuple has
its own. -/
def enclosedLevels (wanted grade nesting : Nat) : Nat :=
  if 1 ≤ grade ∧ grade < wanted then nesting + 1 else nesting

mutual

/-- How many expressions begin anew inside one another in an expression: in brackets of any kind, and
behind `else`. -/
def Expr.nesting : Expr → Nat
  | .name _ | .literal _ => 0
  | .unary op operand => enclosedLevels op.grade operand.grade operand.nesting
  | .binary left op right =>
    max (enclosedLevels op.leftGrade left.grade left.nesting)
      (enclosedLevels op.rightGrade right.grade right.nesting)
  | .boolean op first second others =>
    max (max (enclosedLevels (op.grade + 1) first.grade first.nesting)
      (enclosedLevels (op.grade + 1) second.grade second.nesting)) (nestings (op.grade + 1) others)
  | .compare left _ right others =>
    max (max (enclosedLevels 6 left.grade left.nesting)
      (enclosedLevels 6 right.grade right.nesting)) (stepNestings others)
  | .conditional test body orelse =>
    max (max (enclosedLevels 2 test.grade test.nesting) (enclosedLevels 2 body.grade body.nesting))
      (orelse.nesting + 1)
  | .call func args => max (enclosedLevels 14 func.grade func.nesting) (itemNestings args)
  | .member value _ => enclosedLevels value.receiverGrade value.grade value.nesting
  | .subscript value index =>
    max (enclosedLevels 14 value.grade value.nesting) (enclosedLevels 16 index.grade index.nesting)
  | .tuple elts => itemNestings elts
  | .list elts => itemNestings elts

/-- The greatest nesting of operands. -/
def nestings (wanted : Nat) : List Expr → Nat
  | [] => 0
  | e :: es => max (enclosedLevels wanted e.grade e.nesting) (nestings wanted es)

/-- The greatest nesting of expressions in brackets. -/
def itemNestings : List Expr → Nat
  | [] => 0
  | e :: es => max (e.nesting + 1) (itemNestings es)

/-- The greatest nesting in a chain of comparisons. -/
def stepNestings : List (CompareOp × Expr) → Nat
  | [] => 0
  | (_, e) :: steps => max (enclosedLevels 6 e.grade e.nesting) (stepNestings steps)

end

private def Expr.operands : Expr → List (Nat × Expr)
  | .unary op operand => [(op.grade, operand)]
  | .binary left op right => [(op.leftGrade, left), (op.rightGrade, right)]
  | .boolean op first second others => (first :: second :: others).map ((op.grade + 1, ·))
  | .compare left op right others => (6, left) :: ((op, right) :: others).map ((6, ·.2))
  | .conditional test body _ => [(2, test), (2, body)]
  | .call func _ => [(14, func)]
  | .member value _ => [(value.receiverGrade, value)]
  | .subscript value _ => [(14, value)]
  | _ => []

private def Expr.inner : Expr → List Expr
  | .conditional _ _ orelse => [orelse]
  | .call _ args => args
  | .subscript _ index => Parser.items index
  | .tuple elts => elts
  | .list elts => elts
  | _ => []

variable {e e' : Expr} {es : List Expr} {o : Nat × Expr}

theorem le_enclosedLevels (wanted grade nesting : Nat) :
    nesting ≤ enclosedLevels wanted grade nesting := by
  unfold enclosedLevels
  split <;> omega

private theorem enclosedLevels_le (wanted grade nesting : Nat) :
    enclosedLevels wanted grade nesting ≤ nesting + 1 := by
  unfold enclosedLevels
  split <;> omega

mutual

private theorem Expr.nesting_le_depth (e : Expr) : e.nesting ≤ e.depth := by
  have hstep (wanted : Nat) (e : Expr) (h : e.nesting ≤ e.depth) :
      enclosedLevels wanted e.grade e.nesting ≤ e.depth + 1 :=
    Nat.le_trans (enclosedLevels_le ..) (Nat.succ_le_succ h)
  cases e with
  | name | literal => exact Nat.zero_le _
  | unary op operand => exact hstep _ operand operand.nesting_le_depth
  | binary left op right =>
    have hleft := hstep op.leftGrade left left.nesting_le_depth
    have hright := hstep op.rightGrade right right.nesting_le_depth
    simp only [Expr.nesting, Expr.depth]
    omega
  | boolean op first second others =>
    have hfirst := hstep (op.grade + 1) first first.nesting_le_depth
    have hsecond := hstep (op.grade + 1) second second.nesting_le_depth
    have hothers := nestings_le (op.grade + 1) others
    simp only [Expr.nesting, Expr.depth]
    omega
  | compare left op right others =>
    have hleft := hstep 6 left left.nesting_le_depth
    have hright := hstep 6 right right.nesting_le_depth
    have hothers := stepNestings_le others
    simp only [Expr.nesting, Expr.depth]
    omega
  | conditional test body orelse =>
    have htest := hstep 2 test test.nesting_le_depth
    have hbody := hstep 2 body body.nesting_le_depth
    have horelse := orelse.nesting_le_depth
    simp only [Expr.nesting, Expr.depth]
    omega
  | call func args =>
    have hfunc := hstep 14 func func.nesting_le_depth
    have hargs := itemNestings_le args
    simp only [Expr.nesting, Expr.depth]
    omega
  | member value attr => exact hstep _ value value.nesting_le_depth
  | subscript value index =>
    have hvalue := hstep 14 value value.nesting_le_depth
    have hindex := hstep 16 index index.nesting_le_depth
    simp only [Expr.nesting, Expr.depth]
    omega
  | tuple elts => exact itemNestings_le elts
  | list elts => exact itemNestings_le elts

private theorem nestings_le (wanted : Nat) (es : List Expr) :
    nestings wanted es ≤ depths es + 1 := by
  cases es with
  | nil => exact Nat.zero_le _
  | cons e es =>
    have he := Nat.le_trans (enclosedLevels_le wanted e.grade _) (Nat.succ_le_succ e.nesting_le_depth)
    have hes := nestings_le wanted es
    simp only [nestings, depths]
    omega

private theorem itemNestings_le (es : List Expr) : itemNestings es ≤ depths es + 1 := by
  cases es with
  | nil => exact Nat.zero_le _
  | cons e es =>
    have he := e.nesting_le_depth
    have hes := itemNestings_le es
    simp only [itemNestings, depths]
    omega

private theorem stepNestings_le (steps : List (CompareOp × Expr)) :
    stepNestings steps ≤ stepDepths steps + 1 := by
  match steps with
  | [] => exact Nat.zero_le _
  | (_, e) :: steps =>
    have he := Nat.le_trans (enclosedLevels_le 6 e.grade _) (Nat.succ_le_succ e.nesting_le_depth)
    have hes := stepNestings_le steps
    simp only [stepNestings, stepDepths]
    omega

end

private theorem le_nestings (wanted : Nat) (h : e ∈ es) :
    enclosedLevels wanted e.grade e.nesting ≤ nestings wanted es := by
  induction h with
  | head es => exact Nat.le_max_left _ _
  | tail e' _ ih => exact Nat.le_trans ih (Nat.le_max_right _ _)

private theorem le_itemNestings (h : e ∈ es) : e.nesting + 1 ≤ itemNestings es := by
  induction h with
  | head es => exact Nat.le_max_left _ _
  | tail e' _ ih => exact Nat.le_trans ih (Nat.le_max_right _ _)

private theorem le_stepNestings {step : CompareOp × Expr} {steps : List (CompareOp × Expr)}
    (h : step ∈ steps) : enclosedLevels 6 step.2.grade step.2.nesting ≤ stepNestings steps := by
  induction h with
  | head steps => exact Nat.le_max_left _ _
  | tail step' _ ih => exact Nat.le_trans ih (Nat.le_max_right _ _)

private theorem nesting_lt_of_mem_items {index : Expr} (h : e ∈ Parser.items index) :
    e.nesting + 1 ≤ enclosedLevels 16 index.grade index.nesting := by
  by_cases hgrade : index.grade = 0
  · obtain ⟨first, others, rfl⟩ := Expr.exists_tuple hgrade
    exact Nat.le_trans (le_itemNestings h) (le_enclosedLevels ..)
  · rw [Parser.items_of_grade hgrade, List.mem_singleton] at h
    have hle := index.grade_le
    exact Nat.le_of_eq (by rw [h, enclosedLevels, if_pos (by omega)])

theorem nesting_le_of_mem_items {index : Expr} (h : e ∈ Parser.items index) :
    e.nesting ≤ index.nesting :=
  Nat.le_of_succ_le_succ (Nat.le_trans (nesting_lt_of_mem_items h) (enclosedLevels_le ..))

namespace Expr

private theorem one_le_receiverGrade (e : Expr) : 1 ≤ e.receiverGrade := by
  unfold receiverGrade
  split <;> decide

private theorem of_mem_operands (h : o ∈ e.operands) :
    1 ≤ o.1 ∧ o.2.depth < e.depth ∧ enclosedLevels o.1 o.2.grade o.2.nesting ≤ e.nesting := by
  cases e with
  | name | literal | tuple | list => cases h
  | unary op operand =>
    rw [operands, List.mem_singleton] at h
    subst h
    have h1 : 1 ≤ op.grade := by cases op <;> decide
    exact ⟨h1, Nat.lt_succ_self _, Nat.le_refl _⟩
  | binary left op right =>
    simp only [operands, List.mem_cons, List.not_mem_nil, or_false] at h
    have hleft : 1 ≤ op.leftGrade := by cases op <;> decide
    have hright : 1 ≤ op.rightGrade := by cases op <;> decide
    simp only [depth, nesting]
    rcases h with rfl | rfl <;> dsimp only <;> omega
  | boolean op first second others =>
    obtain ⟨e', he', rfl⟩ := List.mem_map.mp h
    have hlevels := le_nestings (op.grade + 1) he'
    have hdepth := depth_le_depths he'
    simp only [nestings, depths] at hlevels hdepth
    simp only [depth, nesting]
    omega
  | compare left op right others =>
    rcases List.mem_cons.mp h with rfl | h
    · simp only [depth, nesting]
      omega
    · obtain ⟨step, hstep, rfl⟩ := List.mem_map.mp h
      have hlevels := le_stepNestings hstep
      have hdepth := depth_le_stepDepths hstep
      simp only [stepNestings, stepDepths] at hlevels hdepth
      simp only [depth, nesting]
      omega
  | conditional test body orelse =>
    simp only [operands, List.mem_cons, List.not_mem_nil, or_false] at h
    simp only [depth, nesting]
    rcases h with rfl | rfl <;> dsimp only <;> omega
  | call func args =>
    rw [operands, List.mem_singleton] at h
    subst h
    simp only [depth, nesting]
    omega
  | member value attr =>
    rw [operands, List.mem_singleton] at h
    subst h
    exact ⟨value.one_le_receiverGrade, Nat.lt_succ_self _, Nat.le_refl _⟩
  | subscript value index =>
    rw [operands, List.mem_singleton] at h
    subst h
    simp only [depth, nesting]
    omega

private theorem of_mem_inner (h : e' ∈ e.inner) :
    e'.depth < e.depth ∧ e'.nesting + 1 ≤ e.nesting := by
  cases e with
  | name | literal | unary | binary | boolean | compare | member => cases h
  | conditional test body orelse =>
    rw [inner, List.mem_singleton] at h
    subst h
    simp only [depth, nesting]
    omega
  | call func args =>
    rw [inner] at h
    have hlevels := le_itemNestings h
    have hdepth := depth_le_depths h
    simp only [depth, nesting]
    omega
  | subscript value index =>
    have hlevels := nesting_lt_of_mem_items h
    have hdepth := Parser.depth_le_of_mem_items h
    simp only [depth, nesting]
    omega
  | tuple elts => exact ⟨Nat.lt_succ_of_le (depth_le_depths h), le_itemNestings h⟩
  | list elts => exact ⟨Nat.lt_succ_of_le (depth_le_depths h), le_itemNestings h⟩

end Expr

namespace Parser

variable {n : Nested} {grade wanted fuel depth k : Nat} {s : ParseState} {q : Piece}
  {rest : List Piece} {func value index : Expr} {args : List Expr}

/-! ## Calls, subscripts and attributes -/

private theorem more_trailers (start fuel : Nat) (i : NodeId) :
    more n 14 start fuel i = trailersUpTo n start fuel i := if_pos rfl

private theorem goesOn_call (hargs : ∀ e ∈ args, Reads n.expression (e.written 1) e 1) :
    GoesOn n 14 func (Symbol.openParen.piece :: (itemPieces args ++ [Symbol.closeParen.piece]))
      (.call func args) := by
  intro s q rest hs _ start fuel i hi qs Q hmore
  simp only [List.append_assoc, List.cons_append, List.nil_append] at hs
  rw [more_trailers]
  refine .look (run_kind hs) (.take hs nofun fun _ t₁ ht₁ _ => ?_)
  refine (yields_arguments hargs ht₁.ahead).bind fun is t₂ ht₂ his =>
    .expect ht₂.ahead rfl nofun fun t₃ ht₃ => ?_
  refine (yields_finish ht₃.ahead (.call i is) start).bind fun node t₄ ht₄ hnode => ?_
  rw [← more_trailers]
  have hreach := ht₁.trans (ht₂.trans (ht₃.trans ht₄))
  refine hmore node t₄ hreach fun b hb => ⟨i, is, hnode b hb, ?_, ?_⟩
  · exact hi b (hreach.arena.trans hb)
  · exact his b ((ht₃.trans ht₄).arena.trans hb)

/-- What stands in the brackets of a subscript, behind the object. -/
theorem goesOnAs_subscript {ps : List Piece} {P Q : Arena → NodeId → Prop}
    (hindex : ∀ ⦃s rest⦄, s.ahead = ps ++ Symbol.closeBracket.piece :: rest →
      Yields (subscriptIndex n) s (Symbol.closeBracket.piece :: rest) Q) :
    GoesOnAs n 14 P (Symbol.openBracket.piece :: (ps ++ [Symbol.closeBracket.piece])) fun b node =>
      ∃ i j, b.data? node = some (.subscript i j) ∧ P b i ∧ Q b j := by
  intro s q rest hs _ start fuel i hi qs R hmore
  simp only [List.append_assoc, List.cons_append, List.nil_append] at hs
  rw [more_trailers]
  refine .look (run_kind hs) (.take hs nofun fun _ t₁ ht₁ _ => ?_)
  refine (hindex ht₁.ahead).bind fun j t₂ ht₂ hj => .expect ht₂.ahead rfl nofun fun t₃ ht₃ => ?_
  refine (yields_finish ht₃.ahead (.subscript i j) start).bind fun node t₄ ht₄ hnode => ?_
  rw [← more_trailers]
  have hreach := ht₁.trans (ht₂.trans (ht₃.trans ht₄))
  refine hmore node t₄ hreach fun b hb => ⟨i, j, hnode b hb, ?_, ?_⟩
  · exact hi b (hreach.arena.trans hb)
  · exact hj b ((ht₃.trans ht₄).arena.trans hb)

private theorem goesOn_subscript
    (hindex : ∀ e' ∈ items index, Reads n.expression (e'.written 1) e' 1) :
    GoesOn n 14 value (Symbol.openBracket.piece :: (index.pieces ++ [Symbol.closeBracket.piece]))
      (.subscript value index) := by
  refine goesOnAs_subscript fun s rest hs => ?_
  have hstop : Stops (isAt Symbol.closeBracket) (.symbol .closeBracket) := stops_isAt rfl nofun
  have hitem (e' : Expr) (he' : e' ∈ items index) := reads_sliceItem (hindex e' he')
  exact yields_tupleOf hstop hitem hs rfl

private theorem goesOn_member {attr : Identifier} :
    GoesOn n 14 value [Symbol.dot.piece, attr.piece] (.member value attr) := by
  intro s q rest hs _ start fuel i hi qs Q hmore
  rw [more_trailers]
  refine .look (run_kind hs) (.take hs nofun fun _ t₁ ht₁ _ => ?_)
  refine (yields_name ht₁.ahead).bind fun j t₂ ht₂ hj => ?_
  refine (yields_finish ht₂.ahead (.member i j) start).bind fun node t₃ ht₃ hnode => ?_
  rw [← more_trailers]
  have hreach := ht₁.trans (ht₂.trans ht₃)
  refine hmore node t₃ hreach fun b hb => ⟨i, j, hnode b hb, ?_, ?_⟩
  · exact hi b (hreach.arena.trans hb)
  · exact hj b (ht₃.arena.trans hb)

private theorem readsLeft_receiver (hvalue : Operand n value.receiverGrade value) :
    ReadsLeft n 14 (value.written value.receiverGrade) value := by
  by_cases hgrade : value.receiverGrade = 14
  · rw [hgrade] at hvalue ⊢
    exact hvalue.readsLeft (.inr rfl)
  · have hparens : value.receiverGrade = 16 := by
      unfold Expr.receiverGrade at hgrade ⊢
      split <;> simp_all
    rw [hparens] at hvalue ⊢
    exact readsLeft_of_reads fun s q rest hs hq => hvalue.reads hs (by omega)

/-! ## Expressions without parentheses -/

/-- The expression is read without parentheses where its grade allows it, and a tuple with them. -/
private structure Bare (n : Nested) (e : Expr) : Prop where
  reads : 1 ≤ e.grade → Reads (rule n e.grade) e.pieces e e.grade
  readsLeft : Repeats e.grade → ReadsLeft n e.grade e.pieces e
  readsRight : e.grade = 12 ∨ e.grade = 13 → ReadsRight n e.pieces e
  enclosed : e.grade = 0 → ∀ grade, Reads (atom n) (e.written 1) e grade

private theorem Expr.pieces_ne_nil (e : Expr) : e.pieces ≠ [] := by
  obtain ⟨p, others, hp, -⟩ := e.begins_pieces
  exact hp ▸ List.cons_ne_nil p others

private theorem Bare.of_reads (he : 1 ≤ e.grade ∧ e.grade ≤ 5 ∨ e.grade = 15)
    (h : Reads (rule n e.grade) e.pieces e e.grade) : Bare n e where
  reads _ := h
  readsLeft hg := by
    unfold Repeats at hg
    omega
  readsRight hg := by omega
  enclosed hg := by omega

private theorem Bare.of_readsLeft (he : Repeats e.grade) (h : ReadsLeft n e.grade e.pieces e) :
    Bare n e where
  reads _ := reads_of_readsLeft he h (Expr.pieces_ne_nil e)
  readsLeft _ := h
  readsRight hg := by
    unfold Repeats at he
    omega
  enclosed hg := by
    unfold Repeats at he
    omega

private theorem Bare.of_readsRight (he : e.grade = 12 ∨ e.grade = 13)
    (h : ReadsRight n e.pieces e) :
    Bare n e where
  reads _ := by
    have hrule : rule n e.grade = factor n := by rcases he with he | he <;> rw [he] <;> rfl
    rw [hrule]
    intro s q rest hs hq
    exact .look (run_remaining s) (h hs (by omega) _ (Nat.le_refl _))
  readsLeft hg := by
    unfold Repeats at hg
    omega
  readsRight _ := h
  enclosed hg := by omega

private theorem Bare.of_enclosed (he : e.grade = 0)
    (h : ∀ grade, Reads (atom n) (e.written 1) e grade) : Bare n e where
  reads hg := by omega
  readsLeft hg := by
    unfold Repeats at hg
    omega
  readsRight hg := by omega
  enclosed _ := h

private theorem bare_of_parts (hoperands : ∀ o ∈ e.operands, Operand n o.1 o.2)
    (hinner : ∀ e' ∈ e.inner, Reads n.expression (e'.written 1) e' 1) : Bare n e := by
  cases e with
  | name id => exact .of_reads (.inr rfl) (reads_name id)
  | literal value => exact .of_reads (.inr rfl) (reads_literal value)
  | unary op operand =>
    have hoperand := hoperands _ (.head _)
    cases op with
    | not => exact .of_reads (.inl ⟨Nat.le_add_left 1 3, Nat.le_succ 4⟩) (reads_not hoperand)
    | neg | pos | invert => exact .of_readsRight (.inl rfl) (readsRight_sign rfl hoperand)
  | binary left op right =>
    have hleft := hoperands _ (.head _)
    have hright := hoperands _ (.tail _ (.head _))
    by_cases hop : op = .pow
    · subst hop
      exact .of_readsRight (.inr rfl) (readsRight_pow hleft hright)
    · have hgrade : 6 ≤ op.grade ∧ op.grade ≤ 11 := by
        cases op <;> first | exact ⟨by decide, by decide⟩ | exact absurd rfl hop
      have hgrades : op.leftGrade = op.grade ∧ op.rightGrade = op.grade + 1 := by
        cases op <;> first | exact ⟨rfl, rfl⟩ | exact absurd rfl hop
      rw [hgrades.1] at hleft
      rw [hgrades.2] at hright
      exact .of_readsLeft (.inl hgrade) (readsLeft_binary hgrade hleft hright)
  | boolean op first second others =>
    have hgrade : 1 ≤ op.grade ∧ op.grade ≤ 5 := by cases op <;> decide
    exact .of_reads (.inl hgrade)
      (reads_boolean fun e' he' => hoperands _ (List.mem_map_of_mem he'))
  | compare left op right others =>
    exact .of_reads (.inl ⟨Nat.le_add_left 1 4, Nat.le_refl 5⟩)
      (reads_compare (hoperands _ (.head _))
        fun step hstep => hoperands _ (.tail _ (List.mem_map_of_mem hstep)))
  | conditional test body orelse =>
    exact .of_reads (.inl ⟨Nat.le_refl 1, Nat.le_add_left 1 4⟩)
      (reads_condition (hoperands _ (.head _)) (hoperands _ (.tail _ (.head _)))
        (hinner orelse (.head _)))
  | call func args =>
    have hfunc := (hoperands _ (.head _)).readsLeft (.inr rfl)
    exact .of_readsLeft (.inr rfl) (hfunc.step (Nat.le_refl 14) (goesOn_call hinner))
  | member value attr =>
    have hvalue := readsLeft_receiver (hoperands _ (.head _))
    exact .of_readsLeft (.inr rfl) (hvalue.step (Nat.le_refl 14) goesOn_member)
  | subscript value index =>
    have hvalue := (hoperands _ (.head _)).readsLeft (.inr rfl)
    exact .of_readsLeft (.inr rfl) (hvalue.step (Nat.le_refl 14) (goesOn_subscript hinner))
  | tuple elts =>
    cases elts with
    | nil => exact .of_reads (.inr rfl) reads_emptyTuple
    | cons first others => exact .of_enclosed rfl fun _ => reads_tuple hinner
  | list elts => exact .of_reads (.inr rfl) (reads_listDisplay hinner)

/-! ## Parentheses where they are needed -/

private theorem Bare.reads_written (h : Bare n e) (h1 : 1 ≤ grade)
    (hparens : 1 ≤ e.grade → e.grade < grade → ∀ g,
      Reads (atom n) (Symbol.openParen.piece :: (e.pieces ++ [Symbol.closeParen.piece])) e g) :
    Reads (rule n grade) (e.written grade) e grade := by
  by_cases hlt : e.grade < grade
  · have henclosed : e.written grade =
        Symbol.openParen.piece :: (e.pieces ++ [Symbol.closeParen.piece]) := if_pos hlt
    have hatom (g : Nat) :
        Reads (atom n) (Symbol.openParen.piece :: (e.pieces ++ [Symbol.closeParen.piece])) e g := by
      by_cases he : e.grade = 0
      · have htuple := h.enclosed he g
        rwa [Expr.written, enclose, if_pos (by omega)] at htuple
      · exact hparens (by omega) hlt g
    rw [henclosed]
    by_cases hgrade : grade ≤ 15
    · exact reads_of_le h1 hgrade (Nat.le_refl 15) (hatom 15) ⟨_, _, rfl, rfl⟩
    · obtain ⟨k, rfl⟩ := Nat.exists_eq_add_of_lt (Nat.lt_of_not_le hgrade)
      have hrule : rule n (15 + k + 1) = atom n := by
        rw [Nat.add_right_comm, Nat.add_comm]
        rfl
      rw [hrule]
      exact hatom _
  · have hwritten : e.written grade = e.pieces := if_neg hlt
    rw [hwritten]
    exact reads_of_le h1 (Nat.le_of_not_lt hlt) e.grade_le (h.reads (by omega)) e.begins_pieces

private theorem Bare.operand (h : Bare n e) (h1 : 1 ≤ wanted)
    (hitem : 1 ≤ e.grade → e.grade < wanted → Reads n.expression (e.written 1) e 1) :
    Operand n wanted e := by
  have hreads (grade : Nat) (hgrade : 1 ≤ grade) (hlt : e.grade < grade → e.grade < wanted) :
      Reads (rule n grade) (e.written grade) e grade :=
    h.reads_written hgrade fun he hparens _ => reads_parens he (hitem he (hlt hparens))
  refine ⟨hreads wanted h1 id, fun hrepeats => ?_, fun hsign => ?_⟩
  -- an operand of the same grade goes on with the rounds, any other one is read before them
  · by_cases heq : e.grade = wanted
    · subst heq
      rw [Expr.written, enclose, if_neg (Nat.lt_irrefl _)]
      exact h.readsLeft hrepeats
    · have hwritten : e.written wanted = e.written (wanted + 1) := by
        unfold Expr.written enclose
        split <;> split <;> first | rfl | omega
      rw [hwritten]
      exact readsLeft_of_reads (hreads (wanted + 1) (by omega) (by omega))
  · subst hsign
    by_cases heq : e.grade = 12 ∨ e.grade = 13
    · rw [Expr.written, enclose, if_neg (by omega)]
      exact h.readsRight heq
    · have hwritten : e.written 12 = e.written 14 := by
        unfold Expr.written enclose
        split <;> split <;> first | rfl | omega
      rw [hwritten]
      exact fun s q rest hs hq fuel _ =>
        yields_factorUpTo (hreads 14 (by decide) (by omega)) (e.begins_written 14) hs hq fuel

/-! ## The knot -/

/-- Expressions can begin anew inside one another at least so many times. -/
def Nested.HasRoom : Nat → Nested → Prop
  | 0, _ => True
  | depth + 1, n => ∃ inner, n.expression = rule inner 1 ∧ inner.HasRoom depth

private theorem Nested.HasRoom.mono (h : n.HasRoom depth) (hle : k ≤ depth) : n.HasRoom k := by
  induction k generalizing n depth with
  | zero => trivial
  | succ k ih =>
    obtain ⟨depth, rfl⟩ : ∃ j, depth = j + 1 := ⟨depth - 1, by omega⟩
    obtain ⟨inner, hinner, hroom⟩ := h
    exact ⟨inner, hinner, ih hroom (by omega)⟩

private theorem bare_of_room (h : n.HasRoom e.nesting) : Bare n e := by
  induction hd : e.depth using Nat.strongRecOn generalizing e n with
  | ind d ih =>
    subst hd
    have hitem (e' : Expr) (hdepth : e'.depth < e.depth) (hlevels : e'.nesting + 1 ≤ e.nesting) :
        Reads n.expression (e'.written 1) e' 1 := by
      obtain ⟨inner, hinner, hroom⟩ := h.mono hlevels
      rw [hinner]
      exact (ih e'.depth hdepth hroom rfl).reads_written (Nat.le_refl 1) fun _ _ _ => by omega
    refine bare_of_parts (fun o ho => ?_) fun e' he' => ?_
    · obtain ⟨h1, hdepth, hlevels⟩ := Expr.of_mem_operands ho
      have hroom := h.mono (Nat.le_trans (le_enclosedLevels ..) hlevels)
      refine (ih o.2.depth hdepth hroom rfl).operand h1 fun hgrade hlt => hitem o.2 hdepth ?_
      rwa [enclosedLevels, if_pos ⟨hgrade, hlt⟩] at hlevels
    · obtain ⟨hdepth, hlevels⟩ := Expr.of_mem_inner he'
      exact hitem e' hdepth hlevels

/-- What begins anew is read back if there is room for it. -/
theorem reads_of_room (h : n.HasRoom (e.nesting + 1)) :
    Reads n.expression (e.written 1) e 1 := by
  obtain ⟨inner, hinner, hroom⟩ := h
  rw [hinner]
  exact (bare_of_room hroom).reads_written (Nat.le_refl 1) fun _ _ _ => by omega

private theorem operand_of_room (h1 : 1 ≤ wanted) (h : n.HasRoom (e.nesting + 1)) :
    Operand n wanted e :=
  (bare_of_room (h.mono (Nat.le_succ _))).operand h1 fun _ _ => reads_of_room h

/-! ## How much room there is -/

/-- The rules inside an expression that is inside `depth` others. -/
def nest (fuel depth : Nat) : Nested := ⟨expressionAt fuel (depth + 1), bitOrAt fuel (depth + 1)⟩

theorem expressionAt_succ (h : depth < Limits.parseDepth) :
    (expressionAt (fuel + 1) depth : Parser NodeId) = rule (nest fuel depth) 1 := by
  funext s
  rw [expressionAt, if_neg (Nat.not_le_of_lt h)]
  rfl

private theorem hasRoom_nest (hfuel : k ≤ fuel) (hdepth : depth + k < Limits.parseDepth) :
    (nest fuel depth).HasRoom k := by
  induction k generalizing fuel depth with
  | zero => trivial
  | succ k ih =>
    obtain ⟨fuel, rfl⟩ : ∃ j, fuel = j + 1 := ⟨fuel - 1, by omega⟩
    exact ⟨nest fuel (depth + 1), expressionAt_succ (by omega), ih (by omega) (by omega)⟩

private theorem hasRoom_outermost (hfuel : k ≤ fuel) (hdepth : k ≤ Limits.parseDepth) :
    (outermost fuel).HasRoom k := by
  cases k with
  | zero => trivial
  | succ k =>
    obtain ⟨fuel, rfl⟩ : ∃ j, fuel = j + 1 := ⟨fuel - 1, by omega⟩
    have hrule : (outermost (fuel + 1)).expression = rule (nest fuel 0) 1 :=
      expressionAt_succ (Nat.zero_lt_of_lt hdepth)
    exact ⟨nest fuel 0, hrule, hasRoom_nest (by omega) (by omega)⟩

/-- In a statement there is room for an expression that does not nest too deeply. -/
theorem hasRoom_of_nesting (hfuel : e.nesting < fuel) (hnesting : e.nesting < Limits.parseDepth) :
    (outermost fuel).HasRoom (e.nesting + 1) :=
  hasRoom_outermost hfuel hnesting

/-- What is not deep does not nest deeply. -/
theorem nesting_lt (h : e.depth < k) : e.nesting < k := Nat.lt_of_le_of_lt e.nesting_le_depth h

/-- An expression is read back in a statement if the bound on the nesting allows it. -/
theorem reads_expressionAt (hfuel : e.depth < fuel) (hdepth : e.depth < Limits.parseDepth) :
    Reads (outermost fuel).expression (e.written 1) e 1 :=
  reads_of_room (hasRoom_of_nesting (nesting_lt hfuel) (nesting_lt hdepth))

/-- An operand in a statement is read back if the bound on the nesting allows it. -/
theorem operand_outermost (h1 : 1 ≤ wanted) (hfuel : e.depth < fuel)
    (hdepth : e.depth < Limits.parseDepth) : Operand (outermost fuel) wanted e :=
  operand_of_room h1 (hasRoom_of_nesting (nesting_lt hfuel) (nesting_lt hdepth))

end Parser
end LiveCheck
