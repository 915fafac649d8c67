import LiveCheck.Proofs.Printing.Grades

/-!
# Reading operators

Each operator, connective, comparison and condition is read back from its pieces, once its operands
are read back where their grades allow them to stand.
-/

namespace LiveCheck.Parser

/-- The pieces are read as the expression by the rule for signs and powers, with any number of
rounds that is not less than the number of pieces. -/
def ReadsRight (n : Nested) (ps : List Piece) (e : Expr) : Prop :=
  ∀ ⦃s q rest⦄, s.ahead = ps ++ q :: rest → q.kind.continues < 13 → ∀ fuel, s.ahead.length ≤ fuel →
    Yields (factorUpTo n fuel) s (q :: rest) fun b i => e.Shown b i

/-- The expression is read where an operand of some grade is wanted, in parentheses if it needs
them. -/
structure Operand (n : Nested) (wanted : Nat) (e : Expr) : Prop where
  reads : Reads (rule n wanted) (e.written wanted) e wanted
  readsLeft : Repeats wanted → ReadsLeft n wanted (e.written wanted) e
  readsRight : wanted = 12 → ReadsRight n (e.written wanted) e

variable {n : Nested} {grade fuel : Nat} {s : ParseState} {p q : Piece} {ps qs rest : List Piece}
  {e operand left right first second test body orelse : Expr} {op : BinaryOp} {es : List Expr}

/-- A node that has the shape of an expression by what it holds. -/
theorem yields_shape {data : NodeData} {start : Nat} (hs : s.ahead = ps)
    (h : ∀ b i, s.arena.Extends b → b.data? i = some data → e.Shown b i) :
    Yields (finish data start) s ps fun b i => e.Shown b i :=
  (yields_finish hs data start).mono h

/-! ## Signs, negations and powers -/

theorem reads_not (h : Operand n 4 operand) :
    Reads (negation n) (Expr.unary .not operand).pieces (.unary .not operand) 4 := by
  intro s q rest hs hq
  replace hs : s.ahead = Keyword.notKw.piece :: (operand.written 4 ++ q :: rest) := hs
  refine .look (run_remaining s) ?_
  rw [hs, List.length_cons]
  refine .look (run_isAt_of_eq hs rfl) (.start hs fun _ => .take hs nofun fun _ t ht _ => ?_)
  have hoperand := Yields.of_look (run_remaining t) (h.reads ht.ahead hq)
  rw [ht.ahead] at hoperand
  refine hoperand.bind fun i r hr hi => yields_shape hr.ahead fun b node hb hnode => ?_
  exact ⟨i, hnode, hi b hb⟩

theorem readsRight_sign {op : UnaryOp} (hop : op.grade = 12) (h : Operand n 12 operand) :
    ReadsRight n (Expr.unary op operand).pieces (.unary op operand) := by
  intro s q rest hs hq fuel hfuel
  replace hs : s.ahead = op.piece :: (operand.written op.grade ++ q :: rest) := hs
  rw [hop] at hs
  have hsign : signOf? op.piece.kind = some op := by
    cases op <;> first | rfl | exact absurd hop (by decide)
  have hend : op.piece.kind ≠ .endOfFile := by cases op <;> exact nofun
  obtain ⟨fuel, rfl⟩ := exists_fuel hs hfuel
  refine .start hs fun _ => .look (run_kind hs) ?_
  rw [hsign]
  refine .take hs hend fun _ t ht _ => ?_
  refine (h.readsRight rfl ht.ahead hq _ ?_).bind fun i r hr hi =>
    yields_shape hr.ahead fun b node hb hnode => ⟨i, hnode, hi b hb⟩
  rw [ht.ahead]
  omega

theorem readsRight_pow (hleft : Operand n 14 left) (hright : Operand n 12 right) :
    ReadsRight n (Expr.binary left .pow right).pieces (.binary left .pow right) := by
  intro s q rest hs hq fuel hfuel
  replace hs : s.ahead =
      left.written 14 ++ Symbol.doubleStar.piece :: (right.written 12 ++ q :: rest) := by
    rw [hs]
    exact List.append_assoc ..
  obtain ⟨p, others, hp, hopens⟩ := left.begins_written 14
  have hs' := hs
  rw [hp, List.cons_append] at hs'
  obtain ⟨fuel, rfl⟩ := exists_fuel hs' hfuel
  refine .start hs' fun _ => .look (run_kind hs') ?_
  rw [signOf?_of_opens hopens]
  refine (hleft.reads hs (by decide)).bind fun i t ht hi =>
    .eat ht.ahead rfl nofun fun t₁ ht₁ => ?_
  refine (hright.readsRight rfl ht₁.ahead hq _ ?_).bind fun j t₂ ht₂ hj =>
    yields_shape ht₂.ahead fun b node hb hnode => ?_
  -- one round is used up, and at least one piece less is ahead
  · rw [ht₁.ahead]
    simp only [List.length_append, List.length_cons]
    omega
  · exact ⟨i, j, hnode, hi b (ht₁.arena.trans (ht₂.arena.trans hb)), hj b hb⟩

/-! ## Operators that group to the left -/

private theorem operator?_symbol (op : BinaryOp) (hop : op.grade ≤ 11) :
    (levelAt op.grade).operator? op.symbol.piece.kind = some op := by
  cases op <;> first | rfl | exact absurd hop (by decide)

/-- An operator and its right operand, behind the left one. -/
theorem goesOnAs_binary {P Q : Arena → NodeId → Prop} (hop : 6 ≤ op.grade ∧ op.grade ≤ 11)
    (hright : ReadsAs (rule n (op.grade + 1)) ps Q (op.grade + 1)) :
    GoesOnAs n op.grade P (op.symbol.piece :: ps) fun b node =>
      ∃ i j, b.data? node = some (.binary i op j) ∧ P b i ∧ Q b j := by
  intro s q rest hs hq start fuel i hi qs R hmore
  have hmoreAt (fuel : Nat) (i : NodeId) : more n op.grade start fuel i =
      operationsUpTo (levelAt op.grade) (rule n (op.grade + 1)) start fuel i := if_neg (by omega)
  rw [List.cons_append] at hs
  rw [hmoreAt]
  refine .look (run_kind hs) ?_
  rw [operator?_symbol op hop.2]
  refine .take hs nofun fun _ t₁ ht₁ _ => ?_
  refine (hright ht₁.ahead (by omega)).bind fun j t₂ ht₂ hj => ?_
  refine (yields_finish ht₂.ahead (.binary i op j) start).bind fun node t₃ ht₃ hnode => ?_
  rw [← hmoreAt]
  have hreach := ht₁.trans (ht₂.trans ht₃)
  refine hmore node t₃ hreach fun b hb => ⟨i, j, hnode b hb, ?_, ?_⟩
  · exact hi b (hreach.arena.trans hb)
  · exact hj b (ht₃.arena.trans hb)

private theorem goesOn_binary (hop : 6 ≤ op.grade ∧ op.grade ≤ 11)
    (hright : Operand n (op.grade + 1) right)
    :
    GoesOn n op.grade left (op.symbol.piece :: right.written (op.grade + 1))
      (.binary left op right) :=
  goesOnAs_binary hop hright.reads

theorem readsLeft_binary (hop : 6 ≤ op.grade ∧ op.grade ≤ 11) (hleft : Operand n op.grade left)
    (hright : Operand n (op.grade + 1) right) :
    ReadsLeft n op.grade (Expr.binary left op right).pieces (.binary left op right) := by
  have hgrades : op.leftGrade = op.grade ∧ op.rightGrade = op.grade + 1 := by
    cases op <;> first | exact ⟨rfl, rfl⟩ | exact absurd hop (by decide)
  have hpieces : (Expr.binary left op right).pieces =
      left.written op.grade ++ op.symbol.piece :: right.written (op.grade + 1) := by
    rw [← hgrades.2, Expr.pieces, hgrades.1]
    rfl
  have hcontinues := continues_of_operator? hop (operator?_symbol op hop.2)
  rw [hpieces]
  exact (hleft.readsLeft (.inl hop)).step (Nat.le_of_eq hcontinues)
    (goesOn_binary hop hright)

/-! ## Connectives -/

theorem eachAfter_eq (mark : Piece) (grade : Nat) (es : List Expr) :
    eachAfter mark grade es = behindEach mark (·.written grade) es := by
  induction es with
  | nil => rfl
  | cons e es ih =>
    rw [eachAfter, ih]
    rfl

theorem allShown_of_forall₂ {b : Arena} {is : List NodeId} (h : List.Forall₂ (Expr.Shown b) es is) :
    AllShown b es is := by
  induction h with
  | nil => rfl
  | cons hi _ ih => exact ⟨_, _, rfl, hi, ih⟩

private theorem yields_eachAfter (mark : Piece) {item : Parser NodeId}
    (hitem : ∀ e ∈ es, Reads item (e.written grade) e grade) (hmark : mark.kind.continues < grade)
    (hend : mark.kind ≠ .endOfFile) (hs : s.ahead = eachAfter mark grade es ++ q :: rest)
    (hq : q.kind.continues < grade) (hne : q.kind ≠ mark.kind) :
    Yields (afterEach mark.kind item) s (q :: rest) fun b is => AllShown b es is := by
  rw [eachAfter_eq] at hs
  refine (yields_afterEach (fun e he t p ps ht hp => hitem e he ht ?_) hs rfl rfl hne hend).mono
    fun _ _ _ his => allShown_of_forall₂ his
  rcases hp with hp | hp <;> rw [hp]
  · exact hmark
  · exact hq

theorem reads_boolean {op : BoolOp} {others : List Expr}
    (hoperands : ∀ e ∈ first :: second :: others, Operand n (op.grade + 1) e) :
    Reads (rule n op.grade) (Expr.boolean op first second others).pieces
      (.boolean op first second others) op.grade := by
  intro s q rest hs hq
  have hrule : rule n op.grade = connective op.word op (rule n (op.grade + 1)) := by
    cases op <;> rfl
  have hword : op.word.piece.kind.continues = op.grade := by cases op <;> rfl
  replace hs : s.ahead = first.written (op.grade + 1) ++
      (eachAfter op.word.piece (op.grade + 1) (second :: others) ++ q :: rest) := by
    rw [hs]
    exact List.append_assoc ..
  obtain ⟨p, others', hs', -⟩ := (first.begins_written (op.grade + 1)).ahead hs
  rw [hrule]
  refine .start hs' fun _ => ?_
  refine ((hoperands first (.head _)).reads hs (by rw [hword]; omega)).bind fun i t ht hi => ?_
  have hne : q.kind ≠ op.word.piece.kind :=
    TokenKind.ne_of_continues hq (Nat.le_of_eq hword.symm)
  refine .look (run_isAt_of_eq ht.ahead rfl) ?_
  refine (yields_eachAfter op.word.piece (fun e he => (hoperands e (.tail _ he)).reads)
    (by omega) nofun ht.ahead (by omega) hne).bind fun is t₁ ht₁ his =>
    yields_shape ht₁.ahead fun b node hb hnode => ?_
  obtain ⟨j, js, rfl, hj, hjs⟩ := his b hb
  exact ⟨i, j, js, hnode, hi b (ht₁.arena.trans hb), hj, hjs⟩

/-! ## Comparisons -/

private theorem run_comparisonOp {op : CompareOp} (hs : s.ahead = op.pieces ++ p :: rest)
    (hp : p.kind ≠ .keyword .notKw) :
    comparisonOp.run s = (some (op, op.pieces.length), s) := by
  cases op
  case isNot | notIn => exact (run_bind (run_kind hs)).trans (run_bind (run_following hs))
  case is =>
    refine (run_bind (run_kind hs)).trans ((run_bind (run_following hs)).trans ?_)
    rw [beq_eq_false_iff_ne.mpr hp]
    rfl
  all_goals exact run_bind (run_kind hs)

private theorem continues_compare (op : CompareOp) (ps : List Piece) : ∃ p others,
    op.pieces ++ ps = p :: others ∧ p.kind.continues = 5 := by
  cases op <;> exact ⟨_, _, rfl, rfl⟩

private theorem exists_stepPieces (steps : List (CompareOp × Expr)) (rest : List Piece)
    (hq : q.kind.continues < 5) :
    ∃ p ps, stepPieces steps ++ q :: rest = p :: ps ∧ p.kind.continues < 6 := by
  cases steps with
  | nil => exact ⟨q, rest, rfl, by omega⟩
  | cons step steps =>
    obtain ⟨p, ps, hps, hp⟩ :=
      continues_compare step.1 (step.2.written 6 ++ stepPieces steps ++ q :: rest)
    refine ⟨p, ps, ?_, by omega⟩
    rw [← hps]
    show (step.1.pieces ++ (step.2.written 6 ++ _)) ++ _ = _
    simp only [List.append_assoc]

private theorem yields_takeComparison {α : Type} {op : CompareOp} {x : Parser α}
    {Q : Arena → α → Prop}
    (hs : s.ahead = op.pieces ++ ps) (hx : ∀ t, s.Reaches ps t → Yields x t qs Q) :
    Yields (do
      let _ ← bump
      if op.pieces.length == 2 then
        let _ ← bump
      x) s qs Q := by
  cases op
  case isNot | notIn =>
    exact .take hs nofun fun _ t ht _ => .take ht.ahead nofun fun _ r hr _ => hx r (ht.trans hr)
  all_goals exact .take hs nofun fun _ t ht _ => hx t ht

private theorem yields_comparisonsUpTo {steps : List (CompareOp × Expr)}
    (hsteps : ∀ step ∈ steps, Operand n 6 step.2) (hs : s.ahead = stepPieces steps ++ q :: rest)
    (hq : q.kind.continues < 5) (hfuel : s.ahead.length ≤ fuel) :
    Yields (comparisonsUpTo n fuel) s (q :: rest) fun b found =>
      found.map Prod.fst = steps.map Prod.fst ∧ StepsShown b steps (found.map Prod.snd) := by
  induction steps generalizing s fuel with
  | nil =>
    replace hs : s.ahead = q :: rest := hs
    obtain ⟨fuel, rfl⟩ := exists_fuel hs hfuel
    exact .look (run_comparisonOp_of_lt hs hq) (.pure hs fun _ _ => ⟨rfl, rfl⟩)
  | cons step steps ih =>
    obtain ⟨op, e⟩ := step
    replace hs : s.ahead = op.pieces ++ (e.written 6 ++ (stepPieces steps ++ q :: rest)) := by
      rw [hs]
      show (op.pieces ++ (e.written 6 ++ _)) ++ _ = _
      simp only [List.append_assoc]
    obtain ⟨p, others, hp, hopens⟩ := e.begins_written 6
    have hnot : p.kind ≠ .keyword .notKw := TokenKind.ne_of_opens hopens rfl
    have hop : 0 < op.pieces.length := by cases op <;> decide
    rw [hs, List.length_append] at hfuel
    obtain ⟨fuel, rfl⟩ := Nat.exists_eq_add_of_lt (by omega : 0 < fuel)
    have hat := hs
    rw [hp, List.cons_append] at hat
    refine .look (run_comparisonOp hat hnot) (yields_takeComparison hs fun t ht => ?_)
    obtain ⟨p', ps, hps, hp'⟩ := exists_stepPieces steps rest hq
    rw [hps] at ht
    refine ((hsteps _ (.head steps)).reads ht.ahead hp').bind fun i t₁ ht₁ hi => ?_
    have hrest : t₁.ahead = stepPieces steps ++ q :: rest := ht₁.ahead.trans hps.symm
    refine (ih (fun step hstep => hsteps step (.tail _ hstep)) hrest ?_).bind fun found t₂ ht₂ h =>
      .pure ht₂.ahead fun b hb => ?_
    · rw [hrest]
      simp only [List.length_append] at hfuel ⊢
      omega
    · obtain ⟨hops, hshown⟩ := h b hb
      exact ⟨congrArg (op :: ·) hops, i, _, rfl, hi b (ht₂.arena.trans hb), hshown⟩

theorem reads_compare {op : CompareOp} {others : List (CompareOp × Expr)}
    (hleft : Operand n 6 left) (hothers : ∀ step ∈ (op, right) :: others, Operand n 6 step.2) :
    Reads (comparison n) (Expr.compare left op right others).pieces
      (.compare left op right others) 5 := by
  intro s q rest hs hq
  replace hs : s.ahead = left.written 6 ++ (stepPieces ((op, right) :: others) ++ q :: rest) := by
    rw [hs]
    exact List.append_assoc ..
  obtain ⟨p, others', hs', -⟩ := (left.begins_written 6).ahead hs
  obtain ⟨p', ps, hps, hp'⟩ := exists_stepPieces ((op, right) :: others) rest hq
  rw [hps] at hs
  refine .start hs' fun start => (hleft.reads hs hp').bind fun i t ht hi =>
    .look (run_remaining t) ?_
  have hrest : t.ahead = stepPieces ((op, right) :: others) ++ q :: rest := ht.ahead.trans hps.symm
  refine (yields_comparisonsUpTo hothers hrest hq (Nat.le_refl _)).bind fun found t₁ ht₁ h => ?_
  have hfound : found.isEmpty = false := by
    have hops := (h t₁.arena (.refl _)).1
    cases found with
    | nil => cases hops
    | cons => rfl
  rw [hfound, if_neg Bool.false_ne_true]
  refine yields_shape ht₁.ahead fun b node hb hnode => ?_
  obtain ⟨hops, j, is, his, hj, hothers⟩ := h b hb
  rw [hops, his] at hnode
  exact ⟨i, j, is, hnode, hi b (ht₁.arena.trans hb), hj, hothers⟩

/-! ## Conditions -/

theorem reads_condition (htest : Operand n 2 test) (hbody : Operand n 2 body)
    (horelse : Reads n.expression (orelse.written 1) orelse 1) :
    Reads (Parser.conditional n) (Expr.conditional test body orelse).pieces
      (.conditional test body orelse) 1 := by
  intro s q rest hs hq
  replace hs : s.ahead = body.written 2 ++ Keyword.ifKw.piece ::
      (test.written 2 ++ Keyword.elseKw.piece :: (orelse.written 1 ++ q :: rest)) := by
    rw [hs]
    show (body.written 2 ++ _ :: (test.written 2 ++ _ :: orelse.written 1)) ++ _ = _
    simp only [List.append_assoc, List.cons_append]
  obtain ⟨p, others, hs', hopens⟩ := (body.begins_written 2).ahead hs
  have hlambda : p.kind ≠ .keyword .lambdaKw := TokenKind.ne_of_opens hopens rfl
  refine .look (run_isAt_of_ne hs' hlambda) (.start hs' fun _ => ?_)
  refine (hbody.reads hs (by decide)).bind fun j t ht hj =>
    .eat ht.ahead rfl nofun fun t₁ ht₁ => ?_
  refine (htest.reads ht₁.ahead (by decide)).bind fun i t₂ ht₂ hi =>
    .expect ht₂.ahead rfl nofun fun t₃ ht₃ => ?_
  refine (horelse ht₃.ahead hq).bind fun k t₄ ht₄ hk =>
    yields_shape ht₄.ahead fun b node hb hnode => ⟨i, j, k, hnode, ?_, ?_, hk b hb⟩
  · exact hi b (ht₃.arena.trans (ht₄.arena.trans hb))
  · exact hj b (ht₁.arena.trans (ht₂.arena.trans (ht₃.arena.trans (ht₄.arena.trans hb))))

end LiveCheck.Parser
