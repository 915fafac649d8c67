import LiveCheck.Proofs.Printing.Reading

/-!
# Reading by grades

For every grade there is a rule of the grammar that reads expressions of that grade or a higher one.
It stops in front of a piece that would only continue an expression of a lower grade. A rule reads
all that the rule for the next grade reads, so what an atom is read as is what every rule reads it
as.
-/

namespace LiveCheck

/-- The grade of the expressions that a token behind them continues: the grade of the operator, of
the trailer or of the condition that begins with it, 15 for a string behind a string, and 0 if
nothing goes on with it. -/
def TokenKind.continues : TokenKind → Nat
  | .keyword .ifKw => 1
  | .keyword .orKw => 2
  | .keyword .andKw => 3
  | .keyword .inKw | .keyword .notKw | .keyword .isKw => 5
  | .symbol .less | .symbol .greater | .symbol .lessEquals | .symbol .greaterEquals
  | .symbol .equalsEquals | .symbol .notEquals => 5
  | .symbol .pipe => 6
  | .symbol .caret => 7
  | .symbol .ampersand => 8
  | .symbol .leftShift | .symbol .rightShift => 9
  | .symbol .plus | .symbol .minus => 10
  | .symbol .star | .symbol .slash | .symbol .doubleSlash | .symbol .percent
  | .symbol .atSign => 11
  | .symbol .doubleStar => 13
  | .symbol .openParen | .symbol .openBracket | .symbol .dot => 14
  | .string | .bytes => 15
  | _ => 0

/-- Whether an expression of the grade or a higher one can begin with a token. -/
def TokenKind.opens (grade : Nat) : TokenKind → Bool
  | .name | .int | .string | .keyword .trueKw | .keyword .falseKw | .keyword .noneKw
  | .symbol .ellipsis | .symbol .openParen | .symbol .openBracket => true
  | .symbol .minus | .symbol .plus | .symbol .tilde => grade ≤ 12
  | .keyword .notKw => grade ≤ 4
  | _ => false

variable {kind k : TokenKind} {g h : Nat}

private theorem TokenKind.opens_mono (hle : g ≤ h) (hk : kind.opens h = true) :
    kind.opens g = true := by
  unfold TokenKind.opens at hk ⊢
  split <;> simp_all <;> omega

/-- What opens a grade is no token that does not. -/
theorem TokenKind.ne_of_opens {grade : Nat} (h : kind.opens grade = true)
    (hk : k.opens grade = false) : kind ≠ k := by
  rintro rfl
  rw [hk] at h
  cases h

theorem TokenKind.ne_of_continues {grade : Nat} (h : kind.continues < grade)
    (hk : grade ≤ k.continues) : kind ≠ k := by
  rintro rfl
  exact Nat.not_le_of_lt h hk

/-! ## The first piece -/

/-- The pieces begin as those of an expression of the grade do. -/
def Begins (grade : Nat) (ps : List Piece) : Prop :=
  ∃ p others, ps = p :: others ∧ p.kind.opens grade = true

theorem Begins.append {grade : Nat} {ps : List Piece} (h : Begins grade ps) (qs : List Piece) :
    Begins grade (ps ++ qs) := by
  obtain ⟨p, others, rfl, hp⟩ := h
  exact ⟨p, others ++ qs, rfl, hp⟩

theorem Begins.mono {ps : List Piece} (hps : Begins h ps) (hle : g ≤ h) :
    Begins g ps := by
  obtain ⟨p, others, rfl, hp⟩ := hps
  exact ⟨p, others, rfl, TokenKind.opens_mono hle hp⟩

/-- The first token of a row is one that opens its grade. -/
theorem Begins.ahead {grade : Nat} {ps qs : List Piece} {s : ParseState} (h : Begins grade ps)
    (hs : s.ahead = ps ++ qs) :
    ∃ p others, s.ahead = p :: others ∧ p.kind.opens grade = true := by
  obtain ⟨p, others, hps, hp⟩ := h.append qs
  exact ⟨p, others, hs.trans hps, hp⟩

private theorem begins_enclose {wanted grade : Nat} {ps : List Piece} (h : Begins grade ps) :
    Begins wanted (enclose wanted grade ps) := by
  unfold enclose
  split
  · exact ⟨_, _, rfl, rfl⟩
  · exact h.mono (by omega)

private theorem Literal.opens_piece (value : Literal) (grade : Nat) :
    value.piece.kind.opens grade = Bool.true := by
  cases value <;> rfl

/-- What an expression is written as begins as its grade says. -/
theorem Expr.begins_pieces (e : Expr) : Begins e.grade e.pieces := by
  match e with
  | .name id => exact ⟨_, _, rfl, rfl⟩
  | .literal value => exact ⟨_, _, rfl, value.opens_piece _⟩
  | .unary op operand => cases op <;> exact ⟨_, _, rfl, rfl⟩
  | .binary left op right =>
    have hle : op.grade ≤ op.leftGrade := by cases op <;> decide
    exact ((begins_enclose left.begins_pieces).mono hle).append _
  | .boolean op first _ _ =>
    exact ((begins_enclose first.begins_pieces).mono (Nat.le_succ op.grade)).append _
  | .compare left _ _ _ =>
    exact ((begins_enclose left.begins_pieces).mono (by decide : 5 ≤ 6)).append _
  | .conditional _ body _ =>
    exact ((begins_enclose body.begins_pieces).mono (by decide : 1 ≤ 2)).append _
  | .call func _ => exact (begins_enclose func.begins_pieces).append _
  | .member value _ =>
    have hle : 14 ≤ value.receiverGrade := by
      unfold receiverGrade
      split <;> decide
    exact ((begins_enclose value.begins_pieces).mono hle).append _
  | .subscript value _ => exact (begins_enclose value.begins_pieces).append _
  | .tuple [] => exact ⟨_, _, rfl, rfl⟩
  | .tuple (first :: _) =>
    exact ((begins_enclose first.begins_pieces).mono (Nat.zero_le 1)).append _
  | .list _ => exact ⟨_, _, rfl, rfl⟩

/-- A written expression begins with what opens its grade. -/
theorem Expr.begins_written (e : Expr) (wanted : Nat) : Begins wanted (e.written wanted) :=
  begins_enclose e.begins_pieces

namespace Parser

/-! ## Rules -/

/-- The level of the operators of a grade that groups to the left. -/
def levelAt (grade : Nat) : Level := levels.getD (grade - 6) fun _ => none

/-- The rule for expressions of a grade. -/
def rule (n : Nested) (grade : Nat) : Parser NodeId :=
  match grade with
  | 0 | 1 => conditional n
  | 2 => orTest n
  | 3 => connective .andKw .and (negation n)
  | 4 => negation n
  | 5 => comparison n
  | 6 | 7 | 8 | 9 | 10 | 11 => (levels.drop (grade - 6)).foldr operations (factor n)
  | 12 | 13 => factor n
  | 14 => primary n
  | _ => atom n

/-- The rule reads the pieces as a node of a certain shape, up to a piece that does not continue an
expression of the grade. -/
def ReadsAs (x : Parser NodeId) (ps : List Piece) (Q : Arena → NodeId → Prop) (grade : Nat) : Prop :=
  ∀ ⦃s q rest⦄, s.ahead = ps ++ q :: rest → q.kind.continues < grade → Yields x s (q :: rest) Q

/-- The rule reads the pieces as the expression, up to a piece that does not continue an expression
of the grade. -/
def Reads (x : Parser NodeId) (ps : List Piece) (e : Expr) (grade : Nat) : Prop :=
  ReadsAs x ps (fun b i => e.Shown b i) grade

/-- The grades of which the rules go on with what they have read so far. -/
def Repeats (grade : Nat) : Prop := 6 ≤ grade ∧ grade ≤ 11 ∨ grade = 14

/-- Going on with what was read so far, at most `fuel` times. -/
def more (n : Nested) (grade start fuel : Nat) (left : NodeId) : Parser NodeId :=
  if grade = 14 then trailersUpTo n start fuel left
  else operationsUpTo (levelAt grade) (rule n (grade + 1)) start fuel left

private theorem grade_cases {grade : Nat} (h : 6 ≤ grade ∧ grade ≤ 11) :
    grade = 6 ∨ grade = 7 ∨ grade = 8 ∨ grade = 9 ∨ grade = 10 ∨ grade = 11 := by
  omega

private theorem rule_eq_of_repeats {grade : Nat} (h : Repeats grade) (n : Nested) :
    rule n grade = (do
      let start ← start
      let left ← rule n (grade + 1)
      let fuel ← remaining
      more n grade start fuel left) := by
  obtain h | rfl := h
  · rcases grade_cases h with rfl | rfl | rfl | rfl | rfl | rfl <;> rfl
  · rfl

/-- Reading the pieces with the rule for the next grade and going on from there is the same as
going on from a node of a certain shape, if no piece comes that the rule for the next grade would
take. -/
def ReadsLeftAs (n : Nested) (grade : Nat) (ps : List Piece) (P : Arena → NodeId → Prop) : Prop :=
  ∀ ⦃s q rest⦄, s.ahead = ps ++ q :: rest → q.kind.continues ≤ grade →
    ∀ (start : Nat) (qs : List Piece) (Q : Arena → NodeId → Prop),
    (∀ i t fuel, rest.length < fuel → s.Reaches (q :: rest) t →
      (∀ b, t.arena.Extends b → P b i) → Yields (more n grade start fuel i) t qs Q) →
    Yields (do
      let left ← rule n (grade + 1)
      let fuel ← remaining
      more n grade start fuel left) s qs Q

/-- The pieces are read so as a node for the expression. -/
def ReadsLeft (n : Nested) (grade : Nat) (ps : List Piece) (e : Expr) : Prop :=
  ReadsLeftAs n grade ps fun b i => e.Shown b i

/-! ## From one grade to the one below -/

variable {n : Nested} {grade : Nat} {s : ParseState} {q : Piece} {ps qs rest : List Piece}
  {P Q : Arena → NodeId → Prop}

/-- An operator of the level has its grade. -/
theorem continues_of_operator? (h : 6 ≤ grade ∧ grade ≤ 11) {op : BinaryOp}
    (hop : (levelAt grade).operator? kind = some op) : kind.continues = grade := by
  unfold Level.operator? at hop
  split at hop
  case h_1 mark =>
    rcases grade_cases h with rfl | rfl | rfl | rfl | rfl | rfl <;> cases mark <;>
      first | rfl | cases hop
  case h_2 => cases hop

private theorem run_more (h : Repeats grade) (hs : s.ahead = q :: rest)
    (hq : q.kind.continues < grade)
    (start fuel : Nat) (left : NodeId) : (more n grade start fuel left).run s = (left, s) := by
  cases fuel with
  | zero =>
    unfold more
    split <;> rfl
  | succ fuel =>
    unfold more
    split
    case isTrue h14 =>
      subst h14
      refine (run_bind (run_kind hs)).trans ?_
      split
      case h_1 heq => simp [heq, TokenKind.continues] at hq
      case h_2 heq => simp [heq, TokenKind.continues] at hq
      case h_3 heq => simp [heq, TokenKind.continues] at hq
      case h_4 => rfl
    case isFalse h14 =>
      have hgrade : 6 ≤ grade ∧ grade ≤ 11 := h.resolve_right h14
      refine (run_bind (run_kind hs)).trans ?_
      split
      case h_1 op hop =>
        have := continues_of_operator? hgrade hop
        omega
      case h_2 => rfl

theorem readsLeft_of_reads (h : ReadsAs (rule n (grade + 1)) ps P (grade + 1)) :
    ReadsLeftAs n grade ps P := by
  intro s q rest hs hq start qs Q hmore
  refine (h hs (by omega)).bind fun i t ht hi => .look (run_remaining t) ?_
  refine hmore i t _ ?_ ht hi
  rw [ht.ahead, List.length_cons]
  omega

theorem reads_of_readsLeft (hg : Repeats grade) (h : ReadsLeftAs n grade ps P) (hne : ps ≠ []) :
    ReadsAs (rule n grade) ps P grade := by
  intro s q rest hs hq
  obtain ⟨p, others, rfl⟩ := List.exists_cons_of_ne_nil hne
  rw [rule_eq_of_repeats hg]
  -- what follows is of a lower grade, so that no round is left
  refine .start hs fun start => h hs (by omega) start _ _ fun i t fuel _ ht hi => ?_
  exact .stay (run_more hg ht.ahead hq start fuel i) ht.ahead hi

/-- One round of going on behind a node of one shape takes the pieces and makes a node of another
one. -/
def GoesOnAs (n : Nested) (grade : Nat) (P : Arena → NodeId → Prop) (ps : List Piece)
    (P' : Arena → NodeId → Prop) : Prop :=
  ∀ ⦃s q rest⦄, s.ahead = ps ++ q :: rest → q.kind.continues ≤ grade →
    ∀ (start fuel : Nat) (i : NodeId), (∀ b, s.arena.Extends b → P b i) →
    ∀ (qs : List Piece) (Q : Arena → NodeId → Prop),
    (∀ node t, s.Reaches (q :: rest) t → (∀ b, t.arena.Extends b → P' b node) →
      Yields (more n grade start fuel node) t qs Q) →
    Yields (more n grade start (fuel + 1) i) s qs Q

/-- One round of going on behind a node for `left` takes the pieces and makes a node for `e`. -/
def GoesOn (n : Nested) (grade : Nat) (left : Expr) (ps : List Piece) (e : Expr) : Prop :=
  GoesOnAs n grade (fun b i => left.Shown b i) ps fun b i => e.Shown b i

/-- One more round is behind the pieces that are read already. -/
theorem ReadsLeftAs.step {p : Piece} (hleft : ReadsLeftAs n grade qs P)
    (hp : p.kind.continues ≤ grade) (hstep : GoesOnAs n grade P (p :: ps) Q) :
    ReadsLeftAs n grade (qs ++ p :: ps) Q := by
  intro s q rest hs hq start rs R hmore
  rw [List.append_assoc, List.cons_append] at hs
  refine hleft hs hp start rs R fun i t fuel hfuel ht hi => ?_
  obtain ⟨fuel, rfl⟩ := Nat.exists_eq_add_of_lt hfuel
  refine hstep ht.ahead hq start _ i hi rs R fun node r hr hnode => ?_
  refine hmore node r _ ?_ (ht.trans hr) hnode
  simp only [List.length_append, List.length_cons]
  omega

private theorem reads_connective {word : Keyword} {op : BoolOp} {operand : Parser NodeId}
    (hword : (TokenKind.keyword word).continues = grade) (h : ReadsAs operand ps P (grade + 1))
    (hne : ps ≠ []) : ReadsAs (connective word op operand) ps P grade := by
  intro s q rest hs hq
  obtain ⟨p, others, rfl⟩ := List.exists_cons_of_ne_nil hne
  refine .start hs fun _ => (h hs (by omega)).bind fun i t ht hi => ?_
  have hend : q.kind ≠ .keyword word := TokenKind.ne_of_continues hq (Nat.le_of_eq hword.symm)
  exact .look (run_isAt_of_ne ht.ahead hend) (.pure ht.ahead hi)

private theorem reads_conditional (h : ReadsAs (orTest n) ps P 2) (hb : Begins 2 ps) :
    ReadsAs (conditional n) ps P 1 := by
  intro s q rest hs hq
  obtain ⟨p, others, rfl, hp⟩ := hb
  have hlambda : p.kind ≠ .keyword .lambdaKw := TokenKind.ne_of_opens hp rfl
  have hif : q.kind ≠ .keyword .ifKw := TokenKind.ne_of_continues hq (by decide)
  refine .look (run_isAt_of_ne hs hlambda) (.start hs fun _ => ?_)
  refine (h hs (by omega)).bind fun i t ht hi => ?_
  exact .look (run_eat_of_ne ht.ahead hif) (.pure ht.ahead hi)

private theorem yields_negationUpTo (h : ReadsAs (comparison n) ps P 5) (hb : Begins 5 ps)
    (hs : s.ahead = ps ++ q :: rest) (hq : q.kind.continues < 5) (fuel : Nat) :
    Yields (negationUpTo n fuel) s (q :: rest) P := by
  cases fuel with
  | zero => exact h hs hq
  | succ fuel =>
    obtain ⟨p, others, rfl, hp⟩ := hb
    have hnot : p.kind ≠ .keyword .notKw := TokenKind.ne_of_opens hp rfl
    exact .look (run_isAt_of_ne hs hnot) (h hs hq)

theorem run_comparisonOp_of_lt (hs : s.ahead = q :: rest) (hq : q.kind.continues < 5) :
    comparisonOp.run s = (none, s) := by
  refine (run_bind (run_kind hs)).trans ?_
  split <;> first | rfl | simp_all [TokenKind.continues]

private theorem reads_comparison (h : ReadsAs (bitOr n) ps P 6) (hne : ps ≠ []) :
    ReadsAs (comparison n) ps P 5 := by
  intro s q rest hs hq
  obtain ⟨p, others, rfl⟩ := List.exists_cons_of_ne_nil hne
  refine .start hs fun start => (h hs (by omega)).bind fun i t ht hi => ?_
  refine .look (run_remaining t) ?_
  have hsteps (fuel : Nat) : (comparisonsUpTo n fuel).run t = ([], t) := by
    cases fuel with
    | zero => rfl
    | succ fuel => exact run_bind (run_comparisonOp_of_lt ht.ahead hq)
  exact .look (hsteps _) (.pure ht.ahead hi)

theorem signOf?_of_opens (h : kind.opens 14 = true) : signOf? kind = none := by
  unfold signOf?
  split <;> simp_all [TokenKind.opens]

theorem yields_factorUpTo (h : ReadsAs (primary n) ps P 14) (hb : Begins 14 ps)
    (hs : s.ahead = ps ++ q :: rest) (hq : q.kind.continues < 13) (fuel : Nat) :
    Yields (factorUpTo n fuel) s (q :: rest) P := by
  cases fuel with
  | zero => exact h hs (by omega)
  | succ fuel =>
    obtain ⟨p, others, rfl, hp⟩ := hb
    refine .start hs fun _ => .look (run_kind hs) ?_
    rw [signOf?_of_opens hp]
    refine (h hs (by omega)).bind fun i t ht hi => ?_
    have hpow : q.kind ≠ .symbol .doubleStar := TokenKind.ne_of_continues hq (by decide)
    exact .look (run_eat_of_ne ht.ahead hpow) (.pure ht.ahead hi)

private theorem reads_pred (h1 : 1 ≤ grade) (h14 : grade ≤ 14)
    (h : ReadsAs (rule n (grade + 1)) ps P (grade + 1)) (hb : Begins (grade + 1) ps) :
    ReadsAs (rule n grade) ps P grade := by
  have hne : ps ≠ [] := by
    obtain ⟨p, others, rfl, -⟩ := hb
    exact List.cons_ne_nil p others
  by_cases hg : Repeats grade
  · exact reads_of_readsLeft hg (readsLeft_of_reads h) hne
  · have hcases : grade = 1 ∨ grade = 2 ∨ grade = 3 ∨ grade = 4 ∨ grade = 5 ∨ grade = 12 ∨
        grade = 13 := by
      unfold Repeats at hg
      omega
    rcases hcases with rfl | rfl | rfl | rfl | rfl | rfl | rfl
    · exact reads_conditional h hb
    · exact reads_connective rfl h hne
    · exact reads_connective rfl h hne
    · exact fun s _ _ hs hq => .look (run_remaining s) (yields_negationUpTo h hb hs (by omega) _)
    · exact reads_comparison h hne
    · exact fun s _ _ hs hq => h hs (by omega)
    · exact fun s _ _ hs hq => .look (run_remaining s) (yields_factorUpTo h hb hs hq _)

/-- What the rule for a grade reads is read by the rules for all lower ones. -/
theorem reads_of_le {low high : Nat} (h1 : 1 ≤ low) (hle : low ≤ high) (hhigh : high ≤ 15)
    (h : ReadsAs (rule n high) ps P high) (hb : Begins high ps) : ReadsAs (rule n low) ps P low := by
  induction hle with
  | refl => exact h
  | @step high hle ih =>
    have h1' : 1 ≤ high := Nat.le_trans h1 hle
    exact ih (by omega) (reads_pred h1' (by omega) h hb) (hb.mono (Nat.le_succ high))

end Parser
end LiveCheck
