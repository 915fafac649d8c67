import LiveCheck.Proofs.Printing.Nesting
import LiveCheck.Proofs.Printing.Statement

/-!
# Reading lines

Every statement that fits into a line is read back from its pieces, if its expressions are not too
deep.
-/

/-!
## Reading the parts of statements

Expressions, targets and names where statements have them, one by one, several in a row, and parts
that may be missing.
-/

namespace LiveCheck

/-- Whether expressions with commas between them end before a token. -/
def TokenKind.endsExpressions (kind : TokenKind) : Bool :=
  kind.continues == 0 && !Parser.startsExpression kind && kind != .symbol .comma

namespace Parser

variable {ι : Type} {s : ParseState} {p q mark : Piece} {ps rest : List Piece} {e e' : Expr}
  {es : List Expr} {fuel : Nat} {i : NodeId} {x : Option Expr}

/-! ### Expressions -/

theorem depth_lt_written (e : Expr) (grade : Nat) : e.depth < (e.written grade).length :=
  Nat.lt_of_lt_of_le e.depth_lt_length (length_le_enclose grade e.grade e.pieces)

/-- An expression in a statement. -/
theorem yields_expression (hs : s.ahead = e.item ++ q :: rest) (hq : q.kind.continues = 0)
    (hdepth : e.depth < Limits.parseDepth) :
    Yields expression s (q :: rest) fun b i => e.Shown b i := by
  have hlength : e.depth < s.ahead.length + 1 := by
    have hwritten : e.depth < e.item.length := depth_lt_written e 1
    rw [hs, List.length_append]
    omega
  exact .look (run_remaining s) (reads_expressionAt hlength hdepth hs (by omega))

/-- Expressions with commas between them in a statement. -/
theorem yields_starExpressions (hs : s.ahead = e.pieces ++ q :: rest)
    (hq : q.kind.endsExpressions = true) (hnesting : e.nesting < Limits.parseDepth) :
    Yields (inStatement starExpressions) s (q :: rest) fun b i => e.Shown b i := by
  simp only [TokenKind.endsExpressions, Bool.and_eq_true, beq_iff_eq, Bool.not_eq_true',
    bne_iff_ne] at hq
  obtain ⟨⟨hcontinues, hstarts⟩, hcomma⟩ := hq
  have hfuel : e.nesting < s.ahead.length := by
    have hpieces := nesting_lt e.depth_lt_length
    rw [hs, List.length_append]
    omega
  have hstop : Stops notAtExpression q.kind := stops_notAtExpression hstarts hcomma
  refine .look (run_remaining s) (yields_tupleOf hstop (fun e' he' => ?_) hs rfl)
  have hle := nesting_le_of_mem_items he'
  have hroom : (outermost (s.ahead.length + 1)).HasRoom (e'.nesting + 1) :=
    hasRoom_of_nesting (by omega) (by omega)
  exact (reads_starOrExpression (reads_of_room hroom)).item hcontinues

/-! ### Operands and targets -/

private theorem bitOrAt_succ (fuel : Nat) :
    (outermost (fuel + 1)).bitOr = rule (outermost fuel) 6 := rfl

/-- An operand without comparisons and connectives in a statement. -/
theorem yields_bitOr (hs : s.ahead = e.written 6 ++ q :: rest) (hq : q.kind.continues = 0)
    (hdepth : e.depth < Limits.parseDepth) :
    Yields (inStatement bitOr) s (q :: rest) fun b i => e.Shown b i := by
  have hlength : e.depth < s.ahead.length + 1 := by
    have hwritten := depth_lt_written e 6
    rw [hs, List.length_append]
    omega
  have hoperand : Operand (outermost (s.ahead.length + 1)) 6 e :=
    operand_outermost (by decide) hlength hdepth
  exact .look (run_remaining s) (hoperand.reads hs (by omega))

private theorem grade_of_isPlace (h : e.isPlace = true) : 14 ≤ e.grade := by
  cases e with
  | name => exact Nat.le_succ 14
  | member | subscript => exact Nat.le_refl 14
  | _ => cases h

private theorem grade_of_isTarget (h : e.isTarget = true) : e.grade = 0 ∨ 14 ≤ e.grade := by
  cases e with
  | tuple elts => cases elts <;> [exact .inr (Nat.le_succ 14); exact .inl rfl]
  | list elts => exact .inr (Nat.le_succ 14)
  | name | member | subscript => exact .inr (grade_of_isPlace h)
  | _ => cases h

private theorem written_of_isTarget (h : e.isTarget = true) : e.written 6 = e.item := by
  have hgrade := grade_of_isTarget h
  unfold Expr.item Expr.written enclose
  split <;> split <;> first | rfl | omega

private theorem isTarget_of_mem (h : areTargets es = true) (he' : e' ∈ es) :
    e'.isTarget = true := by
  induction es with
  | nil => cases he'
  | cons e es ih =>
    rw [areTargets, Bool.and_eq_true] at h
    rcases List.mem_cons.mp he' with rfl | he'
    · exact h.1
    · exact ih h.2 he'

private theorem isTarget_of_mem_items (h : e.isTarget = true) (he' : e' ∈ items e) :
    e'.isTarget = true := by
  by_cases hgrade : e.grade = 0
  · obtain ⟨first, others, rfl⟩ := Expr.exists_tuple hgrade
    exact isTarget_of_mem h he'
  · rw [items_of_grade hgrade] at he'
    rw [List.mem_singleton.mp he']
    exact h

/-- The targets of a loop or of a deletion. -/
theorem yields_targetList (hs : s.ahead = e.pieces ++ q :: rest) (he : e.isTarget = true)
    (hstarts : startsExpression q.kind = false) (hcomma : q.kind ≠ .symbol .comma)
    (hq : q.kind.continues < 6) (hdepth : e.depth < Limits.parseDepth) :
    Yields (inStatement targetList) s (q :: rest) fun b i => e.Shown b i := by
  have hlength : e.depth < s.ahead.length := by
    have hpieces := e.depth_lt_length
    rw [hs, List.length_append]
    omega
  have hstop : Stops notAtExpression q.kind := stops_notAtExpression hstarts hcomma
  refine .look (run_remaining s) (yields_tupleOf hstop (fun e' he' t q' rest' ht hq' => ?_) hs rfl)
  have hle := depth_le_of_mem_items he'
  have hwritten := written_of_isTarget (isTarget_of_mem_items he he')
  obtain ⟨p, others, ht', hopens⟩ := (e'.begins_written 1).ahead ht
  have hstar : p.kind ≠ .symbol .star := TokenKind.ne_of_opens hopens rfl
  have hend : q'.kind.continues < 6 := by
    rcases hq' with hq' | hq' <;> rw [hq']
    · decide
    · exact hq
  rw [← Expr.item, ← hwritten] at ht
  refine .look (run_isAt_of_ne ht' hstar) ?_
  have hoperand : Operand (outermost s.ahead.length) 6 e' :=
    operand_outermost (by decide) (by omega) (by omega)
  rw [bitOrAt_succ]
  exact hoperand.reads ht hend

private theorem run_dataOf (s : ParseState) (i : NodeId) :
    (dataOf i).run s = (s.arena.data? i, s) := rfl

private theorem run_checkTargetUpTo (he : e.isTarget = true) (hi : e.Shown s.arena i) (fuel : Nat) :
    (checkTargetUpTo fuel i).run s = ((), s) := by
  induction fuel generalizing e i with
  | zero => rfl
  | succ fuel ih =>
    have hall (es : List Expr) (is : List NodeId) (hes : areTargets es = true)
        (his : AllShown s.arena es is) :
        (is.forM (checkTargetUpTo fuel) : Parser PUnit).run s = (⟨⟩, s) := by
      induction es generalizing is with
      | nil =>
        rw [his]
        rfl
      | cons e es ihes =>
        obtain ⟨i, js, rfl, hi, hjs⟩ := his
        rw [areTargets, Bool.and_eq_true] at hes
        exact (run_bind (ih hes.1 hi)).trans (ihes js hes.2 hjs)
    rw [checkTargetUpTo]
    refine (run_bind (run_dataOf s i)).trans ?_
    cases e with
    | name id =>
      obtain ⟨atom, hdata, -⟩ := hi
      rw [hdata]
      rfl
    | member value attr =>
      obtain ⟨j, k, hdata, -⟩ := hi
      rw [hdata]
      rfl
    | subscript value index =>
      obtain ⟨j, k, hdata, -⟩ := hi
      rw [hdata]
      rfl
    | tuple elts | list elts =>
      obtain ⟨is, hdata, his⟩ := hi
      rw [hdata]
      exact hall elts is he his
    | _ => cases he

theorem run_checkTarget (he : e.isTarget = true) (hi : e.Shown s.arena i) :
    (checkTarget i).run s = ((), s) :=
  run_checkTargetUpTo he hi s.arena.size

private theorem run_checkPlace (he : e.isPlace = true) (hi : e.Shown s.arena i) :
    (checkPlace i).run s = ((), s) := by
  have hplace : ∃ data, s.arena.data? i = some data ∧ data.isPlace = true := by
    cases e with
    | name id =>
      obtain ⟨atom, hdata, -⟩ := hi
      exact ⟨_, hdata, rfl⟩
    | member value attr =>
      obtain ⟨j, k, hdata, -⟩ := hi
      exact ⟨_, hdata, rfl⟩
    | subscript value index =>
      obtain ⟨j, k, hdata, -⟩ := hi
      exact ⟨_, hdata, rfl⟩
    | _ => cases he
  obtain ⟨data, hdata, hisPlace⟩ := hplace
  refine (run_bind (run_dataOf s i)).trans ?_
  rw [hdata, Option.map_some, Option.getD_some, hisPlace]
  rfl

/-! ### Parts that may be missing -/

/-- An expression before a part that may be missing. -/
theorem yields_expressionBefore {pieces : ι → List Piece} {x : Option ι}
    (hs : s.ahead = e.item ++ (optionalPieces mark pieces x ++ q :: rest))
    (hmark : mark.kind.continues = 0) (hq : q.kind.continues = 0)
    (hdepth : e.depth < Limits.parseDepth) :
    Yields expression s (optionalPieces mark pieces x ++ q :: rest) fun b i => e.Shown b i := by
  obtain ⟨p, ps, hps, hp⟩ := exists_optionalPieces mark pieces x q rest
  rw [hps] at hs ⊢
  refine yields_expression hs ?_ hdepth
  rcases hp with hp | hp <;> rw [hp]
  · exact hmark
  · exact hq

/-- An expression behind a word or a symbol, if it is there. -/
theorem yields_optionalExpression (hs : s.ahead = optionalPieces mark Expr.item x ++ q :: rest)
    (hq : q.kind ≠ mark.kind) (hend : q.kind.continues = 0) (hmark : mark.kind ≠ .endOfFile)
    (hdepth : Shallow x.toList) :
    Yields (optional (eat mark.kind) expression) s (q :: rest) fun b r => OptionShown b x r :=
  yields_optional hs hq hmark fun e he _ ht =>
    yields_expression ht hend (hdepth e (Option.mem_toList.mpr he))

/-- A new name, if there is one. -/
theorem yields_optionalName {x : Option Identifier}
    (hs : s.ahead = optionalPieces mark (fun id => [id.piece]) x ++ q :: rest)
    (hq : q.kind ≠ mark.kind) (hmark : mark.kind ≠ .endOfFile) :
    Yields (optional (eat mark.kind) name) s (q :: rest)
      fun b r => Option.Rel (Identifier.Shown b) x r :=
  yields_optional hs hq hmark fun _ _ _ ht => yields_name ht

private theorem yields_optionalHere {item : Parser NodeId} {pieces : Expr → List Piece}
    (hs : s.ahead = x.elim [] pieces ++ q :: rest) (hq : startsExpression q.kind = false)
    (hbegins : ∀ e, Begins 0 (pieces e))
    (hitem : ∀ e ∈ x, ∀ t, t.ahead = pieces e ++ q :: rest →
      Yields item t (q :: rest) fun b i => e.Shown b i) :
    Yields (optional atExpression item) s (q :: rest) fun b r => OptionShown b x r := by
  cases x with
  | none =>
    have hstop := run_atExpression hs
    rw [hq] at hstop
    exact .look hstop (.pure hs fun _ _ => .none)
  | some e =>
    obtain ⟨p, others, hs', hopens⟩ := (hbegins e).ahead hs
    have hgoes := run_atExpression hs'
    rw [startsExpression_of_opens hopens] at hgoes
    refine .look hgoes ((hitem e rfl s hs).bind fun i t ht hi => ?_)
    exact .pure ht.ahead fun b hb => .some (hi b hb)

end Parser
end LiveCheck

namespace LiveCheck.Parser

variable {α β : Type} {s : ParseState} {p q : Piece} {ps qs rest : List Piece} {e target : Expr}
  {es : List Expr} {R : Arena → β → Prop} {value : Option Expr} {first : Identifier}
  {others : List Identifier} {source : ImportSource} {Q : Arena → NodeId → Prop} {is : List NodeId}

/-- The offset of the next token is looked at. -/
theorem Yields.startOf {f : Nat → Parser β} (h : s.ahead = ps ++ q :: rest)
    (hf : ∀ n, Yields (f n) s qs R) : Yields (Parser.start >>= f) s qs R := by
  obtain ⟨p, others, hcons⟩ := List.exists_cons_of_ne_nil
    (List.append_ne_nil_of_right_ne_nil ps (List.cons_ne_nil q rest))
  exact .start (h.trans hcons) hf

/-! ## Words -/

private theorem yields_keywordStatement (data : NodeData) (hs : s.ahead = p :: ps)
    (hp : p.kind ≠ .endOfFile) :
    Yields (keywordStatement data) s ps fun b i => b.data? i = some data :=
  .start hs fun n => .take hs hp fun _ _ ht _ => yields_finish ht.ahead data n

private theorem yields_returnStatement
    (hs : s.ahead = Keyword.returnKw.piece :: (value.elim [] Expr.pieces ++ q :: rest))
    (hq : q.kind = .newline) (hdepth : Shallow value.toList) :
    Yields returnStatement s (q :: rest) fun b i => (Simple.returns value).Shown b i := by
  have hstarts : startsExpression q.kind = false := by rw [hq]; rfl
  have hends : q.kind.endsExpressions = true := by rw [hq]; rfl
  refine .start hs fun n => .take hs nofun fun _ t ht _ => ?_
  refine (yields_optionalHere ht.ahead hstarts (fun e => e.begins_pieces.mono (Nat.zero_le _))
    fun e he t' ht' => yields_starExpressions ht' hends
      (nesting_lt (hdepth e (Option.mem_toList.mpr he)))).bind fun i t₁ ht₁ hi => ?_
  exact (yields_finish ht₁.ahead _ n).mono fun b node hb hnode => ⟨i, hnode, hi b hb⟩

private theorem yields_raiseStatement {exc : Option (Expr × Option Expr)}
    (hs : s.ahead = (Simple.raises exc).pieces ++ q :: rest) (hq : q.kind = .newline)
    (hdepth : Shallow (Simple.raises exc).exprs) :
    Yields raiseStatement s (q :: rest) fun b i => (Simple.raises exc).Shown b i := by
  have hcontinues : q.kind.continues = 0 := by rw [hq]; rfl
  have hfrom : q.kind ≠ .keyword .fromKw := by rw [hq]; exact nofun
  cases exc with
  | none =>
    replace hs : s.ahead = Keyword.raiseKw.piece :: q :: rest := hs
    refine .start hs fun n => .take hs nofun fun _ t ht _ => ?_
    have hnone : (optional atExpression expression).run t = (none, t) := by
      have hstop := run_atExpression ht.ahead
      rw [hq] at hstop
      exact run_bind hstop
    refine .look hnone ((yields_finish ht.ahead (.raiseStmt none none) n).mono fun b node _ hnode => ?_)
    exact ⟨none, none, hnode, .none, .none⟩
  | some exc =>
    obtain ⟨type, cause⟩ := exc
    have htype : type.depth < Limits.parseDepth := hdepth type (.head _)
    have hcause : Shallow cause.toList := fun e he => hdepth e (.tail _ he)
    replace hs : s.ahead = Keyword.raiseKw.piece ::
        (type.item ++ (optionalPieces Keyword.fromKw.piece Expr.item cause ++ q :: rest)) := by
      rw [← List.append_assoc]
      exact hs
    refine .start hs fun n => .take hs nofun fun _ t ht _ => ?_
    have hexc : Yields (optional atExpression expression) t
        (optionalPieces Keyword.fromKw.piece Expr.item cause ++ q :: rest)
        fun b r => ∃ i, r = some i ∧ type.Shown b i := by
      obtain ⟨p, others, ht', hopens⟩ := (type.begins_written 1).ahead ht.ahead
      have hgoes := run_atExpression ht'
      rw [startsExpression_of_opens hopens] at hgoes
      refine .look hgoes ((yields_expressionBefore ht.ahead rfl hcontinues htype).bind
        fun i t₁ ht₁ hi => .pure ht₁.ahead fun b hb => ⟨i, rfl, hi b hb⟩)
    refine hexc.bind fun r t₁ ht₁ hr => ?_
    obtain ⟨i, rfl, -⟩ := hr t₁.arena (.refl _)
    refine (yields_optionalExpression ht₁.ahead hfrom hcontinues nofun hcause).bind
      fun j t₂ ht₂ hj => (yields_finish ht₂.ahead (.raiseStmt (some i) j) n).mono
        fun b node hb hnode => ?_
    obtain ⟨_, heq, hi⟩ := hr b (ht₂.arena.trans hb)
    cases heq
    exact ⟨some i, j, hnode, .some hi, hj b hb⟩

private theorem yields_assertStatement {test : Expr} {msg : Option Expr}
    (hs : s.ahead = (Simple.asserts test msg).pieces ++ q :: rest) (hq : q.kind = .newline)
    (hdepth : Shallow (Simple.asserts test msg).exprs) :
    Yields assertStatement s (q :: rest) fun b i => (Simple.asserts test msg).Shown b i := by
  have hcontinues : q.kind.continues = 0 := by rw [hq]; rfl
  have hcomma : q.kind ≠ .symbol .comma := by rw [hq]; exact nofun
  replace hs : s.ahead = Keyword.assertKw.piece ::
      (test.item ++ (optionalPieces Symbol.comma.piece Expr.item msg ++ q :: rest)) := by
    rw [← List.append_assoc]
    exact hs
  refine .start hs fun n => .take hs nofun fun _ t ht _ => ?_
  refine (yields_expressionBefore ht.ahead rfl hcontinues (hdepth test (.head _))).bind
    fun i t₁ ht₁ hi => ?_
  refine (yields_optionalExpression ht₁.ahead hcomma hcontinues nofun
    fun e he => hdepth e (.tail _ he)).bind fun j t₂ ht₂ hj => ?_
  exact (yields_finish ht₂.ahead _ n).mono fun b node hb hnode =>
    ⟨i, j, hnode, hi b (ht₂.arena.trans hb), hj b hb⟩

/-! ## Deletions -/

private theorem yields_deleteStatement (h : target.isTarget = true)
    (hs : s.ahead = Keyword.delKw.piece :: (target.pieces ++ q :: rest)) (hq : q.kind = .newline)
    (hdepth : target.depth < Limits.parseDepth) :
    Yields deleteStatement s (q :: rest) fun b i => (Simple.deletes target h).Shown b i := by
  have hstarts : startsExpression q.kind = false := by rw [hq]; rfl
  have hcomma : q.kind ≠ .symbol .comma := by rw [hq]; exact nofun
  have hcontinues : q.kind.continues < 6 := by rw [hq]; decide
  refine .start hs fun n => .take hs nofun fun _ t ht _ => ?_
  refine (yields_targetList ht.ahead h hstarts hcomma hcontinues hdepth).bind fun i t₁ ht₁ hi => ?_
  have hshown := hi t₁.arena (.refl _)
  refine .look (run_checkTarget h hshown) (.look (run_dataOf t₁ i) ?_)
  cases target with
  | tuple elts =>
    obtain ⟨is, hdata, -⟩ := hshown
    rw [hdata]
    refine (yields_finish ht₁.ahead (.deleteStmt is) n).mono fun b node hb hnode => ⟨is, hnode, ?_⟩
    obtain ⟨js, hdata', hjs⟩ := hi b hb
    cases (hb.data? i _ hdata).symm.trans hdata'
    exact hjs
  | list elts =>
    obtain ⟨is, hdata, -⟩ := hshown
    rw [hdata]
    exact (yields_finish ht₁.ahead (.deleteStmt [i]) n).mono fun b node hb hnode =>
      ⟨i, hnode, hi b hb⟩
  | name id =>
    obtain ⟨atom, hdata, -⟩ := hshown
    rw [hdata]
    exact (yields_finish ht₁.ahead (.deleteStmt [i]) n).mono fun b node hb hnode =>
      ⟨i, hnode, hi b hb⟩
  | member value attr =>
    obtain ⟨j, k, hdata, -⟩ := hshown
    rw [hdata]
    exact (yields_finish ht₁.ahead (.deleteStmt [i]) n).mono fun b node hb hnode =>
      ⟨i, hnode, hi b hb⟩
  | subscript value index =>
    obtain ⟨j, k, hdata, -⟩ := hshown
    rw [hdata]
    exact (yields_finish ht₁.ahead (.deleteStmt [i]) n).mono fun b node hb hnode =>
      ⟨i, hnode, hi b hb⟩
  | _ => cases h

/-! ## Names -/

private theorem readsEach_name (k l : TokenKind) (ids : List Identifier) :
    ReadsEach name (fun id : Identifier => [id.piece]) k l ids fun b id i => id.Shown b i :=
  fun _ _ _ _ _ hs _ => yields_name hs

private theorem yields_nameList (hs : s.ahead = namePieces first others ++ q :: rest)
    (hq : q.kind ≠ .symbol .comma) :
    Yields nameList s (q :: rest) fun b is => NamesShown b (first :: others) is :=
  .between (readsEach_name _ _ _) hs rfl rfl hq nofun fun _ _ _ ht his => .pure ht.ahead his

private theorem yields_dottedName {path : DottedName} (hs : s.ahead = path.pieces ++ q :: rest)
    (hq : q.kind ≠ .symbol .dot) :
    Yields dottedName s (q :: rest) fun b is => NamesShown b path.names is :=
  .between (readsEach_name _ _ _) hs rfl rfl hq nofun fun _ _ _ ht his => .pure ht.ahead his

private theorem yields_namesStatement {word : Keyword} {data : List NodeId → NodeData}
    (hs : s.ahead = word.piece :: (namePieces first others ++ q :: rest)) (hq : q.kind = .newline) :
    Yields (do
      let start ← start
      let _ ← bump
      finish (data (← nameList)) start) s (q :: rest)
      fun b i => ∃ is, b.data? i = some (data is) ∧ NamesShown b (first :: others) is := by
  refine .start hs fun n => .take hs nofun fun _ t ht _ => ?_
  refine (yields_nameList ht.ahead (by rw [hq]; exact nofun)).bind fun is t₁ ht₁ his => ?_
  exact (yields_finish ht₁.ahead _ n).mono fun b node hb hnode => ⟨is, hnode, his b hb⟩

/-! ## Imports -/

private theorem yields_importAlias {path : Parser (List NodeId)} {pieces : α → List Piece}
    {names : α → List Identifier} {imported : Alias α}
    (hpath : ∀ ⦃t p ps⦄, t.ahead = pieces imported.path ++ p :: ps → p.kind ≠ .symbol .dot →
      Yields path t (p :: ps) fun b is => NamesShown b (names imported.path) is)
    (hs : s.ahead = imported.pieces pieces ++ q :: rest)
    (hq : q.kind = .symbol .comma ∨ q.kind = .newline) :
    Yields (importAlias path) s (q :: rest) fun b i => imported.Shown names b i := by
  have has : q.kind ≠ .keyword .asKw := by rcases hq with hq | hq <;> rw [hq] <;> exact nofun
  have hdot : q.kind ≠ .symbol .dot := by rcases hq with hq | hq <;> rw [hq] <;> exact nofun
  replace hs : s.ahead = pieces imported.path ++
      (optionalPieces Keyword.asKw.piece (fun id => [id.piece]) imported.asname ++ q :: rest) :=
    hs.trans (List.append_assoc ..)
  obtain ⟨p, ps, hps, hp⟩ := exists_optionalPieces Keyword.asKw.piece
    (fun id : Identifier => [id.piece]) imported.asname q rest
  rw [hps] at hs
  refine .startOf hs fun n => (hpath hs ?_).bind fun is t ht his => ?_
  · rcases hp with hp | hp <;> rw [hp]
    · exact nofun
    · exact hdot
  · refine (yields_optionalName (ht.ahead.trans hps.symm) has nofun).bind fun k t₁ ht₁ hk => ?_
    exact (yields_finish ht₁.ahead _ n).mono fun b node hb hnode =>
      ⟨is, k, hnode, his b (ht₁.arena.trans hb), hk b hb⟩

private theorem yields_importStatement {first : Alias DottedName} {others : List (Alias DottedName)}
    (hs : s.ahead = Keyword.importKw.piece ::
      (between Symbol.comma.piece (Alias.pieces DottedName.pieces) (first :: others) ++ q :: rest))
    (hq : q.kind = .newline) :
    Yields importStatement s (q :: rest) fun b i => (Simple.imports first others).Shown b i := by
  refine .start hs fun n => .take hs nofun fun _ t ht _ => ?_
  have hitem : ReadsEach (importAlias dottedName) (Alias.pieces DottedName.pieces)
      (.symbol .comma) .newline (first :: others) fun b imported i =>
        imported.Shown DottedName.names b i :=
    fun imported _ t' p ps ht' hp =>
      yields_importAlias (fun _ _ _ h hdot => yields_dottedName h hdot) ht' hp
  refine .between hitem ht.ahead rfl hq nofun nofun fun i is t₁ ht₁ his => ?_
  exact (yields_finish ht₁.ahead _ n).mono fun b node hb hnode => ⟨i :: is, hnode, his b hb⟩

private theorem yields_importLevelUpTo {level fuel : Nat}
    (hs : s.ahead = List.replicate level Symbol.dot.piece ++ q :: rest)
    (hdot : q.kind ≠ .symbol .dot) (hellipsis : q.kind ≠ .symbol .ellipsis)
    (hfuel : s.ahead.length ≤ fuel) :
    Yields (importLevelUpTo fuel) s (q :: rest) fun _ n => n = level := by
  induction level generalizing s fuel with
  | zero =>
    replace hs : s.ahead = q :: rest := hs
    obtain ⟨fuel, rfl⟩ := exists_fuel hs hfuel
    refine .look (run_kind hs) ?_
    split
    case h_1 heq => exact absurd heq hdot
    case h_2 heq => exact absurd heq hellipsis
    case h_3 => exact .pure hs fun _ _ => rfl
  | succ level ih =>
    rw [List.replicate_succ, List.cons_append] at hs
    obtain ⟨fuel, rfl⟩ := exists_fuel hs hfuel
    refine .look (run_kind hs) (.take hs nofun fun _ t ht _ => ?_)
    refine (ih ht.ahead ?_).bind fun n t₁ ht₁ hn => .pure ht₁.ahead fun b hb => ?_
    · rw [ht.ahead]
      omega
    · rw [hn b hb, Nat.add_comm]

private theorem yields_behindSource {f : Nat → List NodeId → Parser β}
    (hs : s.ahead = source.pieces ++ Keyword.importKw.piece :: rest)
    (hf : ∀ is t, s.Reaches (Keyword.importKw.piece :: rest) t →
      (∀ b, t.arena.Extends b → NamesShown b source.parts.2 is) →
      Yields (f source.parts.1 is) t qs R) :
    Yields (do
      let level ← importLevelUpTo (← remaining)
      let path ← if level == 0 || (← isAt .name) then dottedName else pure []
      f level path) s qs R := by
  refine .look (run_remaining s) ?_
  cases source with
  | module level path =>
    replace hs : s.ahead = List.replicate level Symbol.dot.piece ++
        (path.pieces ++ Keyword.importKw.piece :: rest) := hs.trans (List.append_assoc ..)
    obtain ⟨ps, hps⟩ : ∃ ps, path.pieces ++ Keyword.importKw.piece :: rest =
        path.first.piece :: ps := ⟨_, rfl⟩
    rw [hps] at hs
    refine (yields_importLevelUpTo hs nofun nofun (Nat.le_refl _)).bind fun n t ht hn => ?_
    rw [hn t.arena (.refl _)]
    refine .look (run_isAt_of_eq ht.ahead rfl) ?_
    rw [Bool.or_true, if_pos rfl]
    refine (yields_dottedName (ht.ahead.trans hps.symm) nofun).bind fun is t₁ ht₁ his => ?_
    exact hf is t₁ (ht.trans ht₁) his
  | dots more =>
    refine (yields_importLevelUpTo hs nofun nofun (Nat.le_refl _)).bind fun n t ht hn => ?_
    rw [hn t.arena (.refl _)]
    exact .look (run_isAt_of_ne ht.ahead nofun) (.look rfl (hf [] t ht fun _ _ => .nil))

private theorem yields_importedNames {first : Alias Identifier} {others : List (Alias Identifier)}
    (hs : s.ahead = between Symbol.comma.piece (Alias.pieces fun id => [id.piece]) (first :: others) ++
      q :: rest) (hq : q.kind = .newline) :
    Yields importedNames s (q :: rest)
      fun b is => List.Forall₂ (Alias.Shown (fun id => [id]) b) (first :: others) is := by
  have hbegins (x : Alias Identifier) (ps : List Piece) : ∃ others,
      x.pieces (fun id => [id.piece]) ++ ps = x.path.piece :: others := ⟨_, rfl⟩
  have hstop : EndsList (do return !(← isAt .name)) (Alias.pieces fun id => [id.piece]) .newline
      (first :: others) := by
    refine ⟨fun x _ t ps ht => ?_, fun t p ps ht hp => ?_⟩
    · obtain ⟨behind, hcons⟩ := hbegins x ps
      exact run_bind (run_isAt_of_eq (ht.trans hcons) rfl)
    · exact run_bind (run_isAt_of_ne ht (by rw [hp]; exact nofun))
  have hitem : ReadsEach (some <$> importAlias (do return [← name]))
      (Alias.pieces fun id => [id.piece]) (.symbol .comma) .newline (first :: others)
      fun b x r => ∃ i, r = some i ∧ x.Shown (fun id => [id]) b i := by
    intro x _ t p ps ht hp
    refine (yields_importAlias (fun t' p' ps' ht' _ => ?_) ht hp).map fun b i hi => ⟨i, rfl, hi⟩
    refine (yields_name ht').bind fun i t₁ ht₁ hi => .pure ht₁.ahead fun b hb => ?_
    exact .cons (hi b hb) .nil
  obtain ⟨behind, hcons⟩ : ∃ behind, between Symbol.comma.piece (Alias.pieces fun id => [id.piece])
      (first :: others) ++ q :: rest = first.path.piece :: behind := ⟨_, rfl⟩
  refine .look (run_eat_of_ne (hs.trans hcons) nofun) ?_
  refine (yields_list hstop hitem hs hq nofun).bind fun is t ht his => ?_
  have hnonempty : is.isEmpty = false := by
    cases his t.arena (.refl _)
    rfl
  rw [hnonempty]
  exact .pure ht.ahead his

private theorem yields_fromStatement {first : Alias Identifier} {others : List (Alias Identifier)}
    (hs : s.ahead = (Simple.importsFrom source first others).pieces ++ q :: rest)
    (hq : q.kind = .newline) :
    Yields fromStatement s (q :: rest)
      fun b i => (Simple.importsFrom source first others).Shown b i := by
  replace hs : s.ahead = Keyword.fromKw.piece :: (source.pieces ++ Keyword.importKw.piece ::
      (between Symbol.comma.piece (Alias.pieces fun id => [id.piece]) (first :: others) ++
        q :: rest)) := by
    rw [hs]
    simp only [Simple.pieces, List.cons_append, List.append_assoc]
  refine .start hs fun n => .take hs nofun fun _ t ht _ => ?_
  refine yields_behindSource ht.ahead fun is t₁ ht₁ his => .expect ht₁.ahead rfl nofun fun t₂ ht₂ => ?_
  obtain ⟨behind, hcons⟩ : ∃ behind, between Symbol.comma.piece (Alias.pieces fun id => [id.piece])
      (first :: others) ++ q :: rest = first.path.piece :: behind := ⟨_, rfl⟩
  refine .look (run_eat_of_ne (ht₂.ahead.trans hcons) nofun) ?_
  refine (yields_importedNames ht₂.ahead hq).bind fun js t₃ ht₃ hjs => ?_
  exact (yields_finish ht₃.ahead _ n).mono fun b node hb hnode =>
    ⟨is, js, hnode, his b (ht₂.arena.trans (ht₃.arena.trans hb)), hjs b hb⟩

private theorem yields_fromStatementAll
    (hs : s.ahead = (Simple.importsAll source).pieces ++ q :: rest) :
    Yields fromStatement s (q :: rest) fun b i => (Simple.importsAll source).Shown b i := by
  replace hs : s.ahead = Keyword.fromKw.piece :: (source.pieces ++ Keyword.importKw.piece ::
      Symbol.star.piece :: q :: rest) := by
    rw [hs]
    simp only [Simple.pieces, List.cons_append, List.append_assoc, List.nil_append]
  refine .start hs fun n => .take hs nofun fun _ t ht _ => ?_
  refine yields_behindSource ht.ahead fun is t₁ ht₁ his => .expect ht₁.ahead rfl nofun fun t₂ ht₂ => ?_
  refine .eat ht₂.ahead rfl nofun fun t₃ ht₃ => ?_
  exact (yields_finish ht₃.ahead _ n).mono fun b node hb hnode =>
    ⟨is, hnode, his b (ht₂.arena.trans (ht₃.arena.trans hb))⟩

/-! ## Expressions and assignments -/

/-- The expression at the beginning of a statement, before something that is no colon. -/
theorem yields_expressionStatement_of (hs : s.ahead = e.pieces ++ q :: rest)
    (hq : q.kind.endsExpressions = true) (hnesting : e.nesting < Limits.parseDepth)
    (h : ∀ n i t, t.ahead = q :: rest → (∀ b, t.arena.Extends b → e.Shown b i) →
      Yields (do
        if ← eat Symbol.colon then annotatedAssignment n i
        else
          match augmentedOperator? (← kind) with
          | some op => augmentedAssignment n i op
          | none =>
            if ← isAt Symbol.equals then
              let others ← afterEach Symbol.equals (inStatement starExpressions)
              assignment n i others
            else finish (.exprStmt i) n) t qs Q) :
    Yields expressionStatement s qs Q :=
  .startOf hs fun n => (yields_starExpressions hs hq hnesting).bind fun i t ht hi =>
    h n i t ht.ahead hi

theorem yields_exprStatement (hs : s.ahead = e.pieces ++ q :: rest) (hq : q.kind = .newline)
    (hnesting : e.nesting < Limits.parseDepth) :
    Yields expressionStatement s (q :: rest) fun b i => (Simple.expr e).Shown b i := by
  refine yields_expressionStatement_of hs (by rw [hq]; rfl) hnesting fun n i t ht hi => ?_
  refine .look (run_eat_of_ne ht (by rw [hq]; exact nofun)) (.look (run_kind ht) ?_)
  rw [hq]
  refine .look (run_isAt_of_ne ht (by rw [hq]; exact nofun)) ?_
  exact (yields_finish ht _ n).mono fun b node hb hnode => ⟨i, hnode, hi b hb⟩

theorem run_checkTargets (hes : areTargets es = true) (his : AllShown s.arena es is) :
    (is.forM checkTarget : Parser PUnit).run s = (⟨⟩, s) := by
  induction es generalizing is with
  | nil =>
    rw [his]
    rfl
  | cons e es ih =>
    obtain ⟨i, js, rfl, hi, hjs⟩ := his
    rw [areTargets, Bool.and_eq_true] at hes
    exact (run_bind (run_checkTarget hes.1 hi)).trans (ih hes.2 hjs)

private theorem allShown_concat {a : Arena} (h : AllShown a (es ++ [e]) is) :
    ∃ js j, is = js ++ [j] ∧ AllShown a es js ∧ e.Shown a j := by
  induction es generalizing is with
  | nil =>
    obtain ⟨i, js, rfl, hi, rfl⟩ := h
    exact ⟨[], i, rfl, rfl, hi⟩
  | cons e' es ih =>
    obtain ⟨i, js, rfl, hi, hjs⟩ := h
    obtain ⟨ks, k, rfl, hks, hk⟩ := ih hjs
    exact ⟨i :: ks, k, rfl, ⟨i, ks, rfl, hi, hks⟩, hk⟩

private theorem yields_assignment {first value : Expr} {others : List Expr}
    (h : areTargets (first :: others) = true)
    (hs : s.ahead = (Simple.assign first others value h).pieces ++ q :: rest)
    (hq : q.kind = .newline) (hdepth : Shallow (first :: (others ++ [value]))) :
    Yields expressionStatement s (q :: rest)
      fun b i => (Simple.assign first others value h).Shown b i := by
  obtain ⟨behind, hbehind⟩ : ∃ behind, behindEach Symbol.equals.piece Expr.pieces
      (others ++ [value]) ++ q :: rest = Symbol.equals.piece :: behind := by
    cases others <;> exact ⟨_, rfl⟩
  replace hs : s.ahead = first.pieces ++ Symbol.equals.piece :: behind := by
    rw [hs, Simple.pieces, between, List.append_assoc, hbehind]
  refine yields_expressionStatement_of hs rfl (nesting_lt (hdepth first (.head _))) fun n i t ht hi => ?_
  refine .look (run_eat_of_ne ht (by decide)) (.look (run_kind ht) (.look (run_isAt_of_eq ht rfl) ?_))
  have hitem : ReadsEach (inStatement starExpressions) Expr.pieces (.symbol .equals) .newline
      (others ++ [value]) fun b e i => e.Shown b i := by
    intro e he t' p ps ht' hp
    refine yields_starExpressions ht' ?_ (nesting_lt (hdepth e (.tail _ he)))
    rcases hp with hp | hp <;> rw [hp] <;> rfl
  refine (yields_afterEach hitem (ht.trans hbehind.symm) rfl hq (by decide) (by decide)).bind
    fun is t₁ ht₁ his => ?_
  have hall (b : Arena) (hb : t₁.arena.Extends b) := allShown_concat (allShown_of_forall₂ (his b hb))
  obtain ⟨js, j, rfl, hjs, -⟩ := hall t₁.arena (.refl _)
  have htargets : (i :: (js ++ [j])).dropLast = i :: js := by
    rw [← List.cons_append, List.dropLast_concat]
  have hchecked : ((i :: (js ++ [j])).dropLast.forM checkTarget : Parser PUnit).run t₁ =
      (⟨⟩, t₁) := by
    rw [htargets]
    exact run_checkTargets h ⟨i, js, rfl, hi _ ht₁.arena, hjs⟩
  refine .look hchecked ((yields_finish ht₁.ahead _ n).mono fun b node hb hnode => ?_)
  rw [htargets, List.getLastD_concat] at hnode
  obtain ⟨js', j', heq, hjs', hj'⟩ := hall b hb
  obtain ⟨rfl, hlast⟩ := List.append_inj' heq rfl
  obtain ⟨rfl, -⟩ := List.cons.inj hlast
  exact ⟨i :: js, j, hnode, ⟨i, js, rfl, hi b (ht₁.arena.trans hb), hjs'⟩, hj'⟩

private theorem augmentedOperator?_augmented (op : BinaryOp) :
    augmentedOperator? op.augmented.piece.kind = some op := by
  cases op <;> rfl

private theorem yields_augmented {value : Expr} {op : BinaryOp} (h : target.isPlace = true)
    (hs : s.ahead = target.pieces ++ op.augmented.piece :: (value.pieces ++ q :: rest))
    (hq : q.kind = .newline) (hdepth : Shallow [target, value]) :
    Yields expressionStatement s (q :: rest)
      fun b i => (Simple.augmented target op value h).Shown b i := by
  have hends : op.augmented.piece.kind.endsExpressions = true := by cases op <;> rfl
  have hcolon : op.augmented.piece.kind ≠ .symbol .colon := by cases op <;> exact nofun
  have hend : op.augmented.piece.kind ≠ .endOfFile := by cases op <;> exact nofun
  have htarget : target.nesting < Limits.parseDepth := nesting_lt (hdepth target (.head _))
  have hvalue : value.nesting < Limits.parseDepth := nesting_lt (hdepth value (.tail _ (.head _)))
  refine yields_expressionStatement_of hs hends htarget fun n i t ht hi => ?_
  refine .look (run_eat_of_ne ht hcolon) (.look (run_kind ht) ?_)
  rw [augmentedOperator?_augmented]
  refine .take ht hend fun _ t₁ ht₁ _ => ?_
  refine .look (run_checkPlace h (hi _ ht₁.arena)) ?_
  refine (yields_starExpressions ht₁.ahead (by rw [hq]; rfl) hvalue).bind
    fun j t₂ ht₂ hj => (yields_finish ht₂.ahead _ n).mono fun b node hb hnode => ?_
  exact ⟨i, j, hnode, hi b (ht₁.arena.trans (ht₂.arena.trans hb)), hj b hb⟩

private theorem yields_annotated {hint : Expr} (h : target.isPlace = true)
    (hs : s.ahead = (Simple.annotated target hint value h).pieces ++ q :: rest)
    (hq : q.kind = .newline) (hdepth : Shallow (target :: hint :: value.toList)) :
    Yields expressionStatement s (q :: rest)
      fun b i => (Simple.annotated target hint value h).Shown b i := by
  have hcontinues : q.kind.continues = 0 := by rw [hq]; rfl
  have hequals : q.kind ≠ .symbol .equals := by rw [hq]; exact nofun
  have hends : q.kind.endsExpressions = true := by rw [hq]; rfl
  replace hs : s.ahead = target.pieces ++ Symbol.colon.piece ::
      (hint.item ++ (optionalPieces Symbol.equals.piece Expr.pieces value ++ q :: rest)) := by
    rw [hs]
    simp only [Simple.pieces, List.cons_append, List.append_assoc]
  have htarget : target.nesting < Limits.parseDepth := nesting_lt (hdepth target (.head _))
  refine yields_expressionStatement_of hs rfl htarget fun n i t ht hi => ?_
  refine .eat ht rfl nofun fun t₁ ht₁ => .look (run_checkPlace h (hi _ ht₁.arena)) ?_
  refine (yields_expressionBefore ht₁.ahead rfl hcontinues (hdepth hint (.tail _ (.head _)))).bind
    fun j t₂ ht₂ hj => ?_
  have hvalue : Yields (optional (eat Symbol.equals) (inStatement starExpressions)) t₂ (q :: rest)
      fun b r => OptionShown b value r :=
    yields_optional ht₂.ahead hequals nofun fun e he _ ht' => yields_starExpressions ht' hends
      (nesting_lt (hdepth e (.tail _ (.tail _ (Option.mem_toList.mpr he)))))
  refine hvalue.bind fun k t₃ ht₃ hk => (yields_finish ht₃.ahead _ n).mono fun b node hb hnode => ?_
  exact ⟨i, j, k, hnode, hi b (ht₁.arena.trans (ht₂.arena.trans (ht₃.arena.trans hb))),
    hj b (ht₃.arena.trans hb), hk b hb⟩

/-! ## All of them -/

theorem yields_simpleStatement_of_expression (hs : s.ahead = e.pieces ++ ps)
    (h : Yields expressionStatement s qs Q) :
    Yields simpleStatement s qs Q := by
  obtain ⟨p, others, hs', hopens⟩ := (e.begins_pieces.mono (Nat.zero_le _)).ahead hs
  refine .look (run_kind hs') ?_
  split
  case h_12 => exact h
  all_goals simp_all [TokenKind.opens]

/-- A statement that fits into a line is read back. -/
theorem yields_simple (line : Simple) (hs : s.ahead = line.pieces ++ q :: rest)
    (hq : q.kind = .newline) (hdepth : Shallow line.exprs) :
    Yields simpleStatement s (q :: rest) fun b i => line.Shown b i := by
  cases line with
  | pass | breakLoop | continueLoop => exact .look (run_kind hs) (yields_keywordStatement _ hs nofun)
  | expr value =>
    exact yields_simpleStatement_of_expression hs
      (yields_exprStatement hs hq (nesting_lt (hdepth value (.head _))))
  | assign first others value h =>
    have hfirst : s.ahead = first.pieces ++
        (behindEach Symbol.equals.piece Expr.pieces (others ++ [value]) ++ q :: rest) :=
      hs.trans (List.append_assoc ..)
    exact yields_simpleStatement_of_expression hfirst (yields_assignment h hs hq hdepth)
  | annotated target hint value h =>
    exact yields_simpleStatement_of_expression (hs.trans (List.append_assoc ..))
      (yields_annotated h hs hq hdepth)
  | augmented target op value h =>
    replace hs : s.ahead = target.pieces ++ op.augmented.piece :: (value.pieces ++ q :: rest) :=
      hs.trans (List.append_assoc ..)
    exact yields_simpleStatement_of_expression hs (yields_augmented h hs hq hdepth)
  | returns value => exact .look (run_kind hs) (yields_returnStatement hs hq hdepth)
  | raises exc => exact .look (run_kind hs) (yields_raiseStatement hs hq hdepth)
  | asserts test msg => exact .look (run_kind hs) (yields_assertStatement hs hq hdepth)
  | deletes target h =>
    exact .look (run_kind hs) (yields_deleteStatement h hs hq (hdepth target (.head _)))
  | globals first others | nonlocals first others =>
    exact .look (run_kind hs) (yields_namesStatement hs hq)
  | imports first others => exact .look (run_kind hs) (yields_importStatement hs hq)
  | importsFrom source first others => exact .look (run_kind hs) (yields_fromStatement hs hq)
  | importsAll source => exact .look (run_kind hs) (yields_fromStatementAll hs)

/-- A line with one statement. -/
theorem yields_simpleLine (hs : s.ahead = p :: ps) (hq : q.kind = .newline)
    (h : Yields simpleStatement s (q :: rest) Q) :
    Yields simpleLine s rest fun b is => ∃ i, is = [i] ∧ Q b i := by
  have hsemicolon : q.kind ≠ .symbol .semicolon := by rw [hq]; exact nofun
  have hstatements : Yields (simpleStatementsUpTo s.ahead.length) s (q :: rest)
      fun b is => ∃ i, is = [i] ∧ Q b i := by
    rw [hs, List.length_cons]
    refine h.bind fun i t ht hi => .look (run_eat_of_ne ht.ahead hsemicolon) ?_
    exact .look (run_atLineEnd ht.ahead) (.pure ht.ahead fun b hb => ⟨i, rfl, hi b hb⟩)
  have hproblems : problems.run s = (s.findings.size, s) := rfl
  refine .look hproblems (.look (run_remaining s) (hstatements.bind fun is t ht his => ?_))
  refine .look (run_atLineEnd ht.ahead) ?_
  rw [hq]
  exact .eat ht.ahead hq nofun fun t₁ ht₁ => .pure ht₁.ahead fun b hb => his b (ht₁.arena.trans hb)

end LiveCheck.Parser
