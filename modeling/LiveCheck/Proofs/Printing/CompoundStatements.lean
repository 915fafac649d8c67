import LiveCheck.Proofs.Printing.Clauses

/-!
# Reading blocks

Every compound statement is read back if its blocks are. By induction over the statement all of them
are, where the fuel is no less than the number of lines. What follows a statement must not be the
word of a clause, which would belong to the statement.
-/

namespace LiveCheck

/-! ## How statements begin -/

variable {word : Keyword} {a : Arena} {is : List NodeId} {handlers : Handlers}

namespace TokenKind

/-- Whether a token begins a clause that belongs to a statement before it. -/
def isClause : TokenKind → Bool
  | .keyword .elifKw | .keyword .elseKw | .keyword .exceptKw | .keyword .finallyKw => true
  | _ => false

/-- Whether a token begins a statement. -/
def beginsStatement (kind : TokenKind) : Bool := !kind.endsLine && !kind.isClause

variable {kind : TokenKind}

private theorem ne_of_isClause (h : kind.isClause = false)
    (hword : (TokenKind.keyword word).isClause = true) : kind ≠ .keyword word := by
  rintro rfl
  rw [hword] at h
  cases h

private theorem isClause_of_beginsStatement (h : kind.beginsStatement = true) :
    kind.isClause = false := by
  simp only [beginsStatement, Bool.and_eq_true, Bool.not_eq_true'] at h
  exact h.2

private theorem begins_of_opens {grade : Nat} (h : kind.opens grade = true) :
    kind.beginsStatement = true ∧ kind.beginsCompound = false := by
  unfold opens at h
  split at h <;> first | exact ⟨rfl, rfl⟩ | cases h

end TokenKind

theorem begins_simple (line : Simple) (behind : List Piece) :
    ∃ p ps, line.pieces ++ behind = p :: ps ∧ p.kind.beginsStatement = true ∧
      p.kind.beginsCompound = false := by
  have hexpr (e : Expr) (ps : List Piece) (hps : line.pieces = e.pieces ++ ps) :
      ∃ p ps, line.pieces ++ behind = p :: ps ∧ p.kind.beginsStatement = true ∧
        p.kind.beginsCompound = false := by
    obtain ⟨p, others, hp, hopens⟩ := (e.begins_pieces.append ps).append behind
    exact ⟨p, others, hps ▸ hp, TokenKind.begins_of_opens hopens⟩
  cases line with
  | expr value => exact hexpr value [] (List.append_nil _).symm
  | assign first | annotated first | augmented first => exact hexpr first _ rfl
  | _ => exact ⟨_, _, rfl, rfl, rfl⟩

private theorem begins_outline (statement : Stmt) (column : Nat) (behind : List Piece) :
    ∃ p ps, statement.outline.pieces column ++ behind = p :: ps ∧
      p.kind.beginsStatement = true := by
  cases statement with
  | simple line =>
    obtain ⟨p, ps, hps, hp, -⟩ := begins_simple line (Piece.lineEnd :: behind)
    exact ⟨p, ps, by simpa [Stmt.outline, Outline.pieces] using hps, hp⟩
  | ifElse test body orelse | whileLoop test body orelse | forLoop target iter body orelse =>
    cases body
    exact ⟨_, _, by rw [Stmt.outline, pieces_before, pieces_block], rfl⟩
  | tryExcept body handlers orelse finalbody =>
    cases body
    exact ⟨_, _, by rw [Stmt.outline, pieces_before, pieces_before, pieces_both, pieces_block], rfl⟩
  | tryFinally body orelse finalbody =>
    cases body
    cases finalbody
    exact ⟨_, _, by rw [Stmt.outline, pieces_both, pieces_before, pieces_block], rfl⟩
  | withItems first others body | functionDef name params returns body | classDef name bases body =>
    cases body
    exact ⟨_, _, by rw [Stmt.outline, pieces_block], rfl⟩

private theorem begins_body (body : Body) (column : Nat) (behind : List Piece) :
    ∃ p ps, body.outline.pieces column ++ behind = p :: ps ∧ p.kind.beginsStatement = true := by
  cases body with
  | last statement => exact begins_outline statement column behind
  | cons statement others =>
    rw [Body.outline, pieces_both]
    exact begins_outline statement column _

/-! ## Blocks and handlers are not empty -/

private theorem Body.ne_nil_of_shown {body : Body} (h : body.Shown a is) : is ≠ [] := by
  rintro rfl
  cases body with
  | last => simp [Body.Shown] at h
  | cons => simp [Body.Shown] at h

private theorem Handlers.ne_nil_of_shown (h : handlers.Shown a is) : is ≠ [] := by
  rintro rfl
  cases handlers with
  | last caught body => cases body; simp [Handlers.Shown] at h
  | cons caught body others => cases body; simp [Handlers.Shown] at h

namespace Parser

variable {s : ParseState} {p q : Piece} {ps qs rest : List Piece} {fuel column extra : Nat}
  {statements : Parser (List NodeId)} {body : Body} {test : Expr} {orelse finalbody : Tail}
  {caught : Caught} {id : Identifier} {es : List Expr}

/-! ## Clauses behind a block -/

private def ReadsTail (statements : Parser (List NodeId)) : Tail → Prop
  | .none => True
  | .block (.mk _ body) => ReadsBlock statements body

private theorem exists_optionalTail (word : Keyword) (tail : Tail) (column : Nat) (q : Piece)
    (rest : List Piece) : ∃ p ps, optionalLines column (tail.outline word) ++ q :: rest = p :: ps ∧
      (p.kind = .keyword word ∨ p.kind = q.kind) := by
  cases tail with
  | none => exact ⟨q, rest, rfl, .inr rfl⟩
  | block body => cases body; exact ⟨_, _, pieces_block .., .inl rfl⟩

private theorem yields_tail {tail : Tail} (h : ReadsTail statements tail)
    (hs : s.ahead = optionalLines column (tail.outline word) ++ q :: rest)
    (hq : q.kind ≠ .keyword word) :
    Yields (do if ← eat word then colonBlock statements else pure []) s (q :: rest)
      fun b is => tail.Shown b is := by
  cases tail with
  | none => exact .look (run_eat_of_ne hs hq) (.pure hs fun _ _ => rfl)
  | block body =>
    cases body
    exact .eat (hs.trans (pieces_block ..)) rfl nofun fun t ht => yields_colonBlock h ht.ahead

/-! ## Loops -/

private theorem yields_whileStatement (hbody : ReadsBlock statements body)
    (horelse : ReadsTail statements orelse)
    (hs : s.ahead = (Stmt.whileLoop test (.mk extra body) orelse).outline.pieces column ++ q :: rest)
    (hq : q.kind.isClause = false) (hdepth : test.depth < Limits.parseDepth) :
    Yields (whileStatement statements) s (q :: rest)
      fun b node => (Stmt.whileLoop test (.mk extra body) orelse).Shown b node := by
  rw [Stmt.outline, pieces_before, pieces_block] at hs
  refine .start hs fun n => .take hs nofun fun _ t ht _ => ?_
  refine (yields_expression ht.ahead rfl hdepth).bind fun i t₁ ht₁ hi => ?_
  refine (yields_colonBlock hbody ht₁.ahead).bind fun js t₂ ht₂ hjs => ?_
  refine (yields_tail horelse ht₂.ahead (TokenKind.ne_of_isClause hq rfl)).bind
    fun ks t₃ ht₃ hks => (yields_finish ht₃.ahead _ n).mono fun b node hb hnode => ?_
  exact ⟨i, js, ks, hnode, hi b (ht₂.arena.trans (ht₃.arena.trans hb)),
    hjs b (ht₃.arena.trans hb), hks b hb⟩

private theorem yields_forStatement {target iter : Expr} (h : target.isTarget = true)
    (hbody : ReadsBlock statements body) (horelse : ReadsTail statements orelse)
    (hs : s.ahead =
      (Stmt.forLoop target iter (.mk extra body) orelse h).outline.pieces column ++ q :: rest)
    (hq : q.kind.isClause = false) (htarget : target.depth < Limits.parseDepth)
    (hiter : iter.depth < Limits.parseDepth) :
    Yields (forStatement statements) s (q :: rest)
      fun b node => (Stmt.forLoop target iter (.mk extra body) orelse h).Shown b node := by
  rw [Stmt.outline, pieces_before, pieces_block] at hs
  have hs' := hs
  rw [List.append_assoc, List.cons_append] at hs'
  refine .start hs fun n => .take hs' nofun fun _ t ht _ => ?_
  refine (yields_targetList ht.ahead h rfl nofun (by decide) htarget).bind fun i t₁ ht₁ hi => ?_
  refine .look (run_checkTarget h (hi t₁.arena (.refl _))) ?_
  refine .expect ht₁.ahead rfl nofun fun t₂ ht₂ => ?_
  refine (yields_starExpressions ht₂.ahead rfl (nesting_lt hiter)).bind fun j t₃ ht₃ hj => ?_
  refine (yields_colonBlock hbody ht₃.ahead).bind fun ks t₄ ht₄ hks => ?_
  refine (yields_tail horelse ht₄.ahead (TokenKind.ne_of_isClause hq rfl)).bind
    fun ls t₅ ht₅ hls => (yields_finish ht₅.ahead _ n).mono fun b node hb hnode => ?_
  have hb₄ := ht₅.arena.trans hb
  have hb₃ := ht₄.arena.trans hb₄
  exact ⟨i, j, ks, ls, hnode, hi b (ht₂.arena.trans (ht₃.arena.trans hb₃)), hj b hb₃, hks b hb₄,
    hls b hb⟩

/-! ## Branches -/

private def ReadsBranch (statements : Parser (List NodeId)) (fuel : Nat) (orelse : Branch) : Prop :=
  ∀ ⦃s column q rest⦄, s.ahead = optionalLines column orelse.outline ++ q :: rest →
    q.kind.isClause = false →
    Yields (do
      if ← isAt Keyword.elifKw then List.singleton <$> ifStatementUpTo statements fuel
      else elseBlock statements) s (q :: rest) fun b is => orelse.Shown b is

private def IfShown (a : Arena) (test : Expr) (body : Body) (orelse : Branch) (node : NodeId) :
    Prop :=
  ∃ i js ks, a.data? node = some (.ifStmt i js ks) ∧ test.Shown a i ∧ body.Shown a js ∧
    orelse.Shown a ks

private theorem yields_ifStatementUpTo {orelse : Branch} (hbody : ReadsBlock statements body)
    (horelse : ReadsBranch statements fuel orelse)
    (hs : s.ahead = word.piece :: (test.item ++ indented body.outline column extra
      (optionalLines column orelse.outline ++ q :: rest))) (hq : q.kind.isClause = false)
    (hdepth : test.depth < Limits.parseDepth) :
    Yields (ifStatementUpTo statements (fuel + 1)) s (q :: rest)
      fun b node => IfShown b test body orelse node := by
  refine .start hs fun n => .take hs nofun fun _ t ht _ => ?_
  refine (yields_expression ht.ahead rfl hdepth).bind fun i t₁ ht₁ hi => ?_
  refine (yields_colonBlock hbody ht₁.ahead).bind fun js t₂ ht₂ hjs => ?_
  refine (horelse ht₂.ahead hq).choice fun ks t₃ ht₃ hks =>
    (yields_finish ht₃.ahead _ n).mono fun b node hb hnode => ?_
  exact ⟨i, js, ks, hnode, hi b (ht₂.arena.trans (ht₃.arena.trans hb)),
    hjs b (ht₃.arena.trans hb), hks b hb⟩

private theorem readsBranch_none : ReadsBranch statements fuel .none := by
  intro s column q rest hs hq
  have helif : q.kind ≠ .keyword .elifKw := TokenKind.ne_of_isClause hq rfl
  have helse : q.kind ≠ .keyword .elseKw := TokenKind.ne_of_isClause hq rfl
  exact .look (run_isAt_of_ne hs helif) (.look (run_eat_of_ne hs helse) (.pure hs fun _ _ => rfl))

private theorem readsBranch_orelse (hbody : ReadsBlock statements body) :
    ReadsBranch statements fuel (.orelse (.mk extra body)) := by
  intro s column q rest hs hq
  replace hs := hs.trans (pieces_block ..)
  exact .look (run_isAt_of_ne hs nofun)
    (.eat hs rfl nofun fun t ht => yields_colonBlock hbody ht.ahead)

private theorem readsBranch_elif {orelse : Branch} (hbody : ReadsBlock statements body)
    (horelse : ReadsBranch statements fuel orelse) (hdepth : test.depth < Limits.parseDepth) :
    ReadsBranch statements (fuel + 1) (.elif test (.mk extra body) orelse) := by
  intro s column q rest hs hq
  replace hs := hs.trans ((pieces_before ..).trans (pieces_block ..))
  exact .look (run_isAt_of_eq hs rfl) ((yields_ifStatementUpTo hbody horelse hs hq hdepth).map
    fun b node hnode => ⟨node, rfl, hnode⟩)

/-! ## Handlers -/

private def ReadsHandlers (statements : Parser (List NodeId)) (fuel : Nat) (handlers : Handlers) :
    Prop :=
  ∀ ⦃s column q rest⦄, s.ahead = handlers.outline.pieces column ++ q :: rest →
    q.kind ≠ .keyword .exceptKw →
    Yields (handlersUpTo statements fuel) s (q :: rest) fun b is => handlers.Shown b is

private def HandlerShown (a : Arena) (caught : Caught) (body : Body) (node : NodeId) : Prop :=
  ∃ i j ks, a.data? node = some (.handler i j ks) ∧ CaughtShown a caught i j ∧ body.Shown a ks

private theorem yields_noHandlers (hs : s.ahead = q :: rest) (hq : q.kind ≠ .keyword .exceptKw)
    (fuel : Nat) : Yields (handlersUpTo statements fuel) s (q :: rest) fun _ is => is = [] := by
  cases fuel with
  | zero => exact .pure hs fun _ _ => rfl
  | succ fuel => exact .start hs fun _ => .look (run_eat_of_ne hs hq) (.pure hs fun _ _ => rfl)

section

variable (hbody : ReadsBlock statements body)
include hbody

private theorem yields_handlersUpTo (hdepth : Shallow (caughtExprs caught))
    (hs : s.ahead = Keyword.exceptKw.piece ::
      (caughtPieces caught ++ indented body.outline column extra ps))
    (hothers : ∀ t, t.ahead = ps → Yields (handlersUpTo statements fuel) t rest R) :
    Yields (handlersUpTo statements (fuel + 1)) s rest fun b is =>
      ∃ node others, is = node :: others ∧ HandlerShown b caught body node ∧ R b others := by
  refine .start hs fun n => .eat hs rfl nofun fun t ht => ?_
  refine yields_behindCaught ht.ahead hdepth fun i j t₁ ht₁ hcaught => ?_
  refine (yields_colonBlock hbody ht₁.ahead).bind fun ks t₂ ht₂ hks => ?_
  refine (yields_finish ht₂.ahead (.handler i j ks) n).bind fun node t₃ ht₃ hnode => ?_
  refine (hothers t₃ ht₃.ahead).bind fun others t₄ ht₄ hothers => .pure ht₄.ahead fun b hb => ?_
  have hb₃ := ht₄.arena.trans hb
  have hb₂ := ht₃.arena.trans hb₃
  exact ⟨node, others, rfl,
    ⟨i, j, ks, hnode b hb₃, hcaught b (ht₂.arena.trans hb₂), hks b hb₂⟩, hothers b hb⟩

private theorem readsHandlers_last (hdepth : Shallow (caughtExprs caught)) :
    ReadsHandlers statements (fuel + 1) (.last caught (.mk extra body)) := by
  intro s column q rest hs hq
  replace hs := hs.trans (pieces_block ..)
  refine (yields_handlersUpTo hbody hdepth hs fun t ht => yields_noHandlers ht hq fuel).mono
    fun b is _ his => ?_
  obtain ⟨node, others, rfl, hnode, rfl⟩ := his
  exact ⟨node, rfl, hnode⟩

private theorem readsHandlers_cons {others : Handlers}
    (hothers : ReadsHandlers statements fuel others)
    (hdepth : Shallow (caughtExprs caught)) :
    ReadsHandlers statements (fuel + 1) (.cons caught (.mk extra body) others) := by
  intro s column q rest hs hq
  replace hs := hs.trans ((pieces_both ..).trans (pieces_block ..))
  exact yields_handlersUpTo hbody hdepth hs fun t ht => hothers ht hq

private theorem yields_tryStatement {handled : List Piece} {H : Arena → List NodeId → Prop}
    (horelse : ReadsTail statements orelse) (hfinal : ReadsTail statements finalbody)
    (hhandlers : ∀ ⦃t p ps⦄, t.ahead = handled ++ p :: ps → p.kind ≠ .keyword .exceptKw →
      Yields (handlersUpTo statements t.ahead.length) t (p :: ps) H)
    (hsome : ∀ a is js, H a is → finalbody.Shown a js → is ≠ [] ∨ js ≠ [])
    (hs : s.ahead = Keyword.tryKw.piece :: indented body.outline column extra
      (handled ++ (optionalLines column (orelse.outline .elseKw) ++
        (optionalLines column (finalbody.outline .finallyKw) ++ q :: rest))))
    (hq : q.kind.isClause = false) :
    Yields (tryStatement statements) s (q :: rest) fun b node =>
      ∃ is js ks ls, b.data? node = some (.tryStmt is js ks ls) ∧ body.Shown b is ∧ H b js ∧
        orelse.Shown b ks ∧ finalbody.Shown b ls := by
  obtain ⟨p₂, ps₂, hps₂, hp₂⟩ := exists_optionalTail .finallyKw finalbody column q rest
  rw [hps₂] at hs
  obtain ⟨p₁, ps₁, hps₁, hp₁⟩ := exists_optionalTail .elseKw orelse column p₂ ps₂
  rw [hps₁] at hs
  have hclause₂ : p₂.kind ≠ .keyword .exceptKw ∧ p₂.kind ≠ .keyword .elseKw := by
    rcases hp₂ with hp₂ | hp₂ <;> rw [hp₂]
    · exact ⟨nofun, nofun⟩
    · exact ⟨TokenKind.ne_of_isClause hq rfl, TokenKind.ne_of_isClause hq rfl⟩
  have hexcept : p₁.kind ≠ .keyword .exceptKw := by
    rcases hp₁ with hp₁ | hp₁ <;> rw [hp₁]
    · exact nofun
    · exact hclause₂.1
  refine .start hs fun n => .take hs nofun fun _ t ht _ => ?_
  refine (yields_colonBlock hbody ht.ahead).bind fun is t₁ ht₁ his => ?_
  refine .look (run_remaining t₁) ((hhandlers ht₁.ahead hexcept).bind fun js t₂ ht₂ hjs => ?_)
  refine (yields_tail horelse (ht₂.ahead.trans hps₁.symm) hclause₂.2).bind fun ks t₃ ht₃ hks => ?_
  refine (yields_tail hfinal (ht₃.ahead.trans hps₂.symm) (TokenKind.ne_of_isClause hq rfl)).choice
    fun ls t₄ ht₄ hls => ?_
  have hempty : ¬(js.isEmpty && ls.isEmpty) = true := by
    have hjs' := hjs t₄.arena (ht₃.arena.trans ht₄.arena)
    rcases hsome t₄.arena js ls hjs' (hls t₄.arena (.refl _)) with hne | hne <;> simp [hne]
  simp only [if_neg hempty]
  refine (yields_finish ht₄.ahead (.tryStmt is js ks ls) n).mono fun b node hb hnode => ?_
  have hb₃ := ht₄.arena.trans hb
  have hb₂ := ht₃.arena.trans hb₃
  exact ⟨is, js, ks, ls, hnode, his b (ht₂.arena.trans hb₂), hjs b hb₂, hks b hb₃, hls b hb⟩

private theorem yields_tryExcept
    (hhandlers : ∀ fuel, handlers.outline.size ≤ fuel → ReadsHandlers statements fuel handlers)
    (horelse : ReadsTail statements orelse) (hfinal : ReadsTail statements finalbody)
    (hs : s.ahead =
      (Stmt.tryExcept (.mk extra body) handlers orelse finalbody).outline.pieces column ++ q :: rest)
    (hq : q.kind.isClause = false) :
    Yields (tryStatement statements) s (q :: rest)
      fun b node => (Stmt.tryExcept (.mk extra body) handlers orelse finalbody).Shown b node := by
  rw [Stmt.outline, pieces_before, pieces_before, pieces_both, pieces_block] at hs
  refine yields_tryStatement hbody horelse hfinal (fun t p ps ht hp => ?_)
    (fun a is js his _ => .inl (Handlers.ne_nil_of_shown his)) hs hq
  have hsize := handlers.outline.size_le_length column
  refine hhandlers _ ?_ ht hp
  rw [ht, List.length_append]
  omega

private theorem yields_tryFinally {finalbody : Body} {extra' : Nat}
    (horelse : ReadsTail statements orelse)
    (hfinal : ReadsBlock statements finalbody)
    (hs : s.ahead = (Stmt.tryFinally (.mk extra body) orelse (.mk extra' finalbody)).outline.pieces
      column ++ q :: rest) (hq : q.kind.isClause = false) :
    Yields (tryStatement statements) s (q :: rest)
      fun b node => (Stmt.tryFinally (.mk extra body) orelse (.mk extra' finalbody)).Shown b node := by
  rw [Stmt.outline, pieces_both, pieces_before, pieces_block] at hs
  have hnone ⦃t : ParseState⦄ ⦃p : Piece⦄ ⦃ps : List Piece⦄ (ht : t.ahead = [] ++ p :: ps)
      (hp : p.kind ≠ .keyword .exceptKw) :
      Yields (handlersUpTo statements t.ahead.length) t (p :: ps) fun _ is => is = [] :=
    yields_noHandlers ht hp _
  have htail : ReadsTail statements (.block (.mk extra' finalbody)) := hfinal
  refine (yields_tryStatement hbody horelse htail hnone
    (fun a is js _ hjs => .inr (Body.ne_nil_of_shown hjs)) hs hq).mono fun b node _ hnode => ?_
  obtain ⟨is, _, ks, ls, hnode, his, rfl, hks, hls⟩ := hnode
  exact ⟨is, ks, ls, hnode, his, hks, hls⟩

/-! ## Definitions and contexts -/

private theorem yields_withStatement {first : WithItem} {others : List WithItem}
    (hs : s.ahead = (Stmt.withItems first others (.mk extra body)).outline.pieces column ++ rest)
    (hdepth : Shallow ((first :: others).flatMap WithItem.exprs)) :
    Yields (withStatement statements) s rest
      fun b node => (Stmt.withItems first others (.mk extra body)).Shown b node := by
  rw [Stmt.outline, pieces_block] at hs
  refine .start hs fun n => .take hs nofun fun _ t ht _ => ?_
  refine .between (readsEach_withItem hdepth) ht.ahead rfl rfl nofun nofun
    fun i is t₁ ht₁ his => ?_
  refine (yields_colonBlock hbody ht₁.ahead).bind fun js t₂ ht₂ hjs =>
    (yields_finish ht₂.ahead _ n).mono fun b node hb hnode => ?_
  exact ⟨i :: is, js, hnode, his b (ht₂.arena.trans hb), hjs b hb⟩

private theorem yields_functionStatement {params : List Parameter} {returns : Option Expr}
    (start : Nat)
    (hs : s.ahead =
      (Stmt.functionDef id params returns (.mk extra body)).outline.pieces column ++ rest)
    (hparams : Shallow (params.flatMap Parameter.exprs)) (hreturns : Shallow returns.toList) :
    Yields (functionStatement statements [] start) s rest
      fun b node => (Stmt.functionDef id params returns (.mk extra body)).Shown b node := by
  rw [Stmt.outline, pieces_block] at hs
  simp only [List.cons_append, List.append_assoc] at hs
  refine .take hs nofun fun _ t ht _ => ?_
  refine (yields_name ht.ahead).bind fun i t₁ ht₁ hi => .expect ht₁.ahead rfl nofun fun t₂ ht₂ => ?_
  refine (yields_parameters ht₂.ahead hparams).bind fun js t₃ ht₃ hjs => ?_
  refine .expect ht₃.ahead rfl nofun fun t₄ ht₄ => .look rfl ?_
  refine (yields_optionalExpression ht₄.ahead nofun rfl nofun hreturns).bind fun k t₅ ht₅ hk => ?_
  refine (yields_colonBlock hbody ht₅.ahead).bind fun ls t₆ ht₆ hls =>
    (yields_finish ht₆.ahead _ start).mono fun b node hb hnode => ?_
  have hb₅ := ht₆.arena.trans hb
  have hb₃ := ht₄.arena.trans (ht₅.arena.trans hb₅)
  exact ⟨i, js, k, ls, hnode, hi b (ht₂.arena.trans (ht₃.arena.trans hb₃)), hjs b hb₃, hk b hb₅,
    hls b hb⟩

private theorem yields_classStatement {bases : Option (List Expr)} (start : Nat)
    (hs : s.ahead = (Stmt.classDef id bases (.mk extra body)).outline.pieces column ++ rest)
    (hdepth : Shallow (bases.getD [])) :
    Yields (classStatement statements [] start) s rest
      fun b node => (Stmt.classDef id bases (.mk extra body)).Shown b node := by
  rw [Stmt.outline, pieces_block] at hs
  refine .take hs nofun fun _ t ht _ => (yields_name ht.ahead).bind fun i t₁ ht₁ hi => ?_
  refine yields_bases ht₁.ahead hdepth fun js t₂ ht₂ hjs => .look rfl ?_
  refine (yields_colonBlock hbody ht₂.ahead).bind fun ks t₃ ht₃ hks =>
    (yields_finish ht₃.ahead _ start).mono fun b node hb hnode => ?_
  have hb₂ := ht₃.arena.trans hb
  exact ⟨i, js, ks, hnode, hi b (ht₂.arena.trans hb₂), hjs b hb₂, hks b hb⟩

end

/-! ## Statements -/

private theorem yields_single {x : Parser NodeId} {Q : Arena → NodeId → Prop}
    (h : Yields x s ps Q) :
    Yields (List.singleton <$> x) s ps fun b is => ∃ i, is = [i] ∧ Q b i :=
  h.map fun _ i hi => ⟨i, rfl, hi⟩

private def ReadsStatement (statements : Parser (List NodeId)) (st : Stmt) : Prop :=
  ∀ ⦃s column q rest⦄, s.ahead = st.outline.pieces column ++ q :: rest → q.kind.isClause = false →
    Yields (statement statements) s (q :: rest) fun b is => ∃ i, is = [i] ∧ st.Shown b i

private theorem yields_statement_line {Q : Arena → NodeId → Prop} (hs : s.ahead = p :: ps)
    (hp : p.kind.beginsCompound = false) (hq : q.kind = .newline)
    (h : Yields simpleStatement s (q :: rest) Q) :
    Yields (statement statements) s rest fun b is => ∃ i, is = [i] ∧ Q b i := by
  refine .look (run_kind hs) ?_
  split
  case h_9 => exact yields_simpleLine hs hq h
  all_goals simp_all [TokenKind.beginsCompound]

private theorem yields_statement_simple {line : Simple} (hs : s.ahead = line.pieces ++ q :: rest)
    (hq : q.kind = .newline) (hdepth : Shallow line.exprs) :
    Yields (statement statements) s rest fun b is => ∃ i, is = [i] ∧ line.Shown b i := by
  obtain ⟨p, ps, hps, -, hp⟩ := begins_simple line (q :: rest)
  exact yields_statement_line (hs.trans hps) hp hq (yields_simple line hs hq hdepth)

private theorem shallow_cons {e : Expr} :
    Shallow (e :: es) ↔ e.depth < Limits.parseDepth ∧ Shallow es := List.forall_mem_cons

private theorem shallow_append {es' : List Expr} : Shallow (es ++ es') ↔ Shallow es ∧ Shallow es' :=
  List.forall_mem_append

private theorem yields_statementsUpTo {Q : Arena → NodeId → Prop} (hs : s.ahead = p :: ps)
    (hp : p.kind.beginsStatement = true)
    (hfirst : Yields (statement (statementsUpTo fuel)) s qs fun b is => ∃ i, is = [i] ∧ Q b i)
    (hothers : ∀ t, t.ahead = qs → Yields (statementsUpTo fuel) t rest R) :
    Yields (statementsUpTo (fuel + 1)) s rest fun b is => ∃ i js, is = i :: js ∧ Q b i ∧ R b js := by
  refine .look (run_kind hs) ?_
  split
  case h_5 =>
    refine hfirst.bind fun is t ht his => (hothers t ht.ahead).bind fun js t₁ ht₁ hjs =>
      .pure ht₁.ahead fun b hb => ?_
    obtain ⟨i, rfl, hi⟩ := his b (ht₁.arena.trans hb)
    exact ⟨i, js, rfl, hi, hjs b hb⟩
  all_goals simp_all [TokenKind.beginsStatement, TokenKind.endsLine]

private theorem yields_statementsUpTo_end (hs : s.ahead = Piece.dedent :: rest) (fuel : Nat) :
    Yields (statementsUpTo fuel) s (Piece.dedent :: rest) fun _ is => is = [] := by
  cases fuel with
  | zero => exact .pure hs fun _ _ => rfl
  | succ fuel => exact .look (run_kind hs) (.pure hs fun _ _ => rfl)

/-! ## The knot -/

mutual

private theorem readsStatement : (st : Stmt) → Shallow st.exprs → (fuel : Nat) →
    st.outline.size ≤ fuel + 1 → ReadsStatement (statementsUpTo fuel) st
  | .simple line, hdepth, fuel, _ => by
    intro s column q rest hs hq
    replace hs : s.ahead = line.pieces ++ Piece.lineEnd :: q :: rest :=
      hs.trans (List.append_assoc ..)
    exact yields_statement_simple hs rfl hdepth
  | .ifElse test (.mk extra body) orelse, hdepth, fuel, hsize => by
    intro s column q rest hs hq
    obtain ⟨htest, hdepth⟩ := shallow_cons.mp hdepth
    obtain ⟨hbody, horelse⟩ := shallow_append.mp hdepth
    simp only [Stmt.outline, size_before, Outline.size] at hsize
    rw [Stmt.outline, pieces_before, pieces_block] at hs
    have hlines := size_le_optionalLines orelse.outline column
    refine .look (run_kind hs) (.look (run_remaining s) (yields_single ?_))
    rw [hs, List.length_cons]
    refine yields_ifStatementUpTo (readsBody body hbody fuel (by omega))
      (readsBranch orelse horelse fuel _ (by omega) ?_) hs hq htest
    simp only [indented, List.length_append, List.length_cons]
    omega
  | .whileLoop test (.mk extra body) orelse, hdepth, fuel, hsize => by
    intro s column q rest hs hq
    obtain ⟨htest, hdepth⟩ := shallow_cons.mp hdepth
    obtain ⟨hbody, horelse⟩ := shallow_append.mp hdepth
    simp only [Stmt.outline, size_before, Outline.size] at hsize
    have hs' := hs
    rw [Stmt.outline, pieces_before, pieces_block] at hs'
    exact .look (run_kind hs') (yields_single (yields_whileStatement
      (readsBody body hbody fuel (by omega)) (readsTail .elseKw orelse horelse fuel (by omega)) hs hq htest))
  | .forLoop target iter (.mk extra body) orelse h, hdepth, fuel, hsize => by
    intro s column q rest hs hq
    obtain ⟨htarget, hdepth⟩ := shallow_cons.mp hdepth
    obtain ⟨hiter, hdepth⟩ := shallow_cons.mp hdepth
    obtain ⟨hbody, horelse⟩ := shallow_append.mp hdepth
    simp only [Stmt.outline, size_before, Outline.size] at hsize
    have hs' := hs
    rw [Stmt.outline, pieces_before, pieces_block] at hs'
    exact .look (run_kind hs') (yields_single (yields_forStatement h
      (readsBody body hbody fuel (by omega)) (readsTail .elseKw orelse horelse fuel (by omega)) hs hq htarget
      hiter))
  | .tryExcept (.mk extra body) handlers orelse finalbody, hdepth, fuel, hsize => by
    intro s column q rest hs hq
    obtain ⟨hbody, hdepth⟩ := shallow_append.mp hdepth
    obtain ⟨hhandlers, hdepth⟩ := shallow_append.mp hdepth
    obtain ⟨horelse, hfinal⟩ := shallow_append.mp hdepth
    simp only [Stmt.outline, size_before, Outline.size] at hsize
    have hs' := hs
    rw [Stmt.outline, pieces_before, pieces_before, pieces_both, pieces_block] at hs'
    exact .look (run_kind hs') (yields_single (yields_tryExcept
      (readsBody body hbody fuel (by omega))
      (fun m hm => readsHandlers handlers hhandlers fuel m (by omega) hm)
      (readsTail .elseKw orelse horelse fuel (by omega)) (readsTail .finallyKw finalbody hfinal fuel (by omega)) hs hq))
  | .tryFinally (.mk extra body) orelse (.mk extra' finalbody), hdepth, fuel, hsize => by
    intro s column q rest hs hq
    obtain ⟨hbody, hdepth⟩ := shallow_append.mp hdepth
    obtain ⟨horelse, hfinal⟩ := shallow_append.mp hdepth
    simp only [Stmt.outline, size_before, Outline.size] at hsize
    have hs' := hs
    rw [Stmt.outline, pieces_both, pieces_before, pieces_block] at hs'
    exact .look (run_kind hs') (yields_single (yields_tryFinally
      (readsBody body hbody fuel (by omega)) (readsTail .elseKw orelse horelse fuel (by omega))
      (readsBody finalbody hfinal fuel (by omega)) hs hq))
  | .withItems first others (.mk extra body), hdepth, fuel, hsize => by
    intro s column q rest hs _
    obtain ⟨hitems, hbody⟩ := shallow_append.mp hdepth
    simp only [Stmt.outline, Outline.size] at hsize
    have hs' := hs
    rw [Stmt.outline, pieces_block] at hs'
    exact .look (run_kind hs') (yields_single (yields_withStatement
      (readsBody body hbody fuel (by omega)) hs hitems))
  | .functionDef id params returns (.mk extra body), hdepth, fuel, hsize => by
    intro s column q rest hs _
    obtain ⟨hparams, hdepth⟩ := shallow_append.mp hdepth
    obtain ⟨hreturns, hbody⟩ := shallow_append.mp hdepth
    simp only [Stmt.outline, Outline.size] at hsize
    have hs' := hs
    rw [Stmt.outline, pieces_block] at hs'
    exact .look (run_kind hs') (.start hs' fun n => yields_single (yields_functionStatement
      (readsBody body hbody fuel (by omega)) n hs hparams hreturns))
  | .classDef id bases (.mk extra body), hdepth, fuel, hsize => by
    intro s column q rest hs _
    obtain ⟨hbases, hbody⟩ := shallow_append.mp hdepth
    simp only [Stmt.outline, Outline.size] at hsize
    have hs' := hs
    rw [Stmt.outline, pieces_block] at hs'
    exact .look (run_kind hs') (.start hs' fun n => yields_single (yields_classStatement
      (readsBody body hbody fuel (by omega)) n hs hbases))

private theorem readsBody : (body : Body) → Shallow body.exprs → (fuel : Nat) →
    body.outline.size ≤ fuel → ReadsBlock (statementsUpTo fuel) body
  | .last st, hdepth, 0, hsize => absurd hsize (Nat.not_le_of_lt st.outline.size_pos)
  | .last st, hdepth, fuel + 1, hsize => by
    intro s column rest hs
    obtain ⟨p, ps, hps, hp⟩ := begins_outline st column (Piece.dedent :: rest)
    refine (yields_statementsUpTo (hs.trans hps) hp (readsStatement st hdepth fuel hsize hs rfl)
      fun t ht => yields_statementsUpTo_end ht fuel).mono fun b is _ his => ?_
    obtain ⟨i, js, rfl, hi, rfl⟩ := his
    exact ⟨i, rfl, hi⟩
  | .cons st others, hdepth, 0, hsize =>
    absurd hsize (Nat.not_le_of_lt (Body.cons st others).outline.size_pos)
  | .cons st others, hdepth, fuel + 1, hsize => by
    intro s column rest hs
    obtain ⟨hst, hothers⟩ := shallow_append.mp hdepth
    simp only [Body.outline, Outline.size] at hsize
    have hpos := st.outline.size_pos
    rw [Body.outline, pieces_both] at hs
    obtain ⟨p, ps, hps, hp⟩ := begins_outline st column
      (others.outline.pieces column ++ Piece.dedent :: rest)
    obtain ⟨q, qs, hqs, hq⟩ := begins_body others column (Piece.dedent :: rest)
    have hfirst := hs
    rw [hqs] at hfirst
    exact yields_statementsUpTo (hs.trans hps) hp
      (readsStatement st hst fuel (by omega) hfirst (TokenKind.isClause_of_beginsStatement hq))
      fun t ht => readsBody others hothers fuel (by omega) (ht.trans hqs.symm)

private theorem readsBranch : (orelse : Branch) → Shallow orelse.exprs → (fuel m : Nat) →
    orelse.outline.elim 0 Outline.size ≤ fuel → orelse.outline.elim 0 Outline.size ≤ m →
    ReadsBranch (statementsUpTo fuel) m orelse
  | .none, _, _, _, _, _ => readsBranch_none
  | .orelse (.mk extra body), hdepth, fuel, m, hsize, _ =>
    readsBranch_orelse (readsBody body hdepth fuel (Nat.le_of_succ_le hsize))
  | .elif test (.mk extra body) orelse, hdepth, fuel, m, hsize, hm => by
    obtain ⟨htest, hdepth⟩ := shallow_cons.mp hdepth
    obtain ⟨hbody, horelse⟩ := shallow_append.mp hdepth
    simp only [Branch.outline, Option.elim_some, size_before, Outline.size] at hsize hm
    obtain ⟨m, rfl⟩ := Nat.exists_eq_succ_of_ne_zero (by omega : m ≠ 0)
    exact readsBranch_elif (readsBody body hbody fuel (by omega))
      (readsBranch orelse horelse fuel m (by omega) (by omega)) htest

private theorem readsTail (word : Keyword) : (tail : Tail) → Shallow tail.exprs → (fuel : Nat) →
    (tail.outline word).elim 0 Outline.size ≤ fuel → ReadsTail (statementsUpTo fuel) tail
  | .none, _, _, _ => trivial
  | .block (.mk _ body), hdepth, fuel, hsize =>
    readsBody body hdepth fuel (Nat.le_of_succ_le hsize)

private theorem readsHandlers : (handlers : Handlers) → Shallow handlers.exprs → (fuel m : Nat) →
    handlers.outline.size ≤ fuel → handlers.outline.size ≤ m →
    ReadsHandlers (statementsUpTo fuel) m handlers
  | .last caught (.mk extra body), hdepth, fuel, m, hsize, hm => by
    obtain ⟨hcaught, hbody⟩ := shallow_append.mp hdepth
    simp only [Handlers.outline, Outline.size] at hsize hm
    obtain ⟨m, rfl⟩ := Nat.exists_eq_succ_of_ne_zero (by omega : m ≠ 0)
    exact readsHandlers_last (readsBody body hbody fuel (by omega)) hcaught
  | .cons caught (.mk extra body) others, hdepth, fuel, m, hsize, hm => by
    obtain ⟨hcaught, hdepth⟩ := shallow_append.mp hdepth
    obtain ⟨hbody, hothers⟩ := shallow_append.mp hdepth
    simp only [Handlers.outline, Outline.size] at hsize hm
    obtain ⟨m, rfl⟩ := Nat.exists_eq_succ_of_ne_zero (by omega : m ≠ 0)
    exact readsHandlers_cons (readsBody body hbody fuel (by omega))
      (readsHandlers others hothers fuel m (by omega) (by omega)) hcaught

end

end Parser
end LiveCheck

/-!
## Reading modules

The statements of a module are read back one by one up to the end of the text. What is read of the
pieces is then what the text is parsed as, if the scan of the text recorded no problem.
-/

namespace LiveCheck

namespace Parser

variable {s : ParseState} {p q : Piece} {ps qs rest : List Piece} {fuel : Nat}

private theorem yields_moduleUpTo {Q : Arena → NodeId → Prop} (hs : s.ahead = p :: ps)
    (hp : p.kind.beginsStatement = true)
    (hfirst : Yields (statement (statementsUpTo s.ahead.length)) s qs
      fun b is => ∃ i, is = [i] ∧ Q b i)
    (hothers : ∀ t, t.ahead = qs → Yields (moduleUpTo fuel) t rest R) :
    Yields (moduleUpTo (fuel + 1)) s rest fun b is => ∃ i js, is = i :: js ∧ Q b i ∧ R b js := by
  refine .look (run_kind hs) ?_
  split
  case h_5 =>
    refine .look (run_remaining s) (hfirst.bind fun is t ht his =>
      (hothers t ht.ahead).bind fun js t₁ ht₁ hjs => .pure ht₁.ahead fun b hb => ?_)
    obtain ⟨i, rfl, hi⟩ := his b (ht₁.arena.trans hb)
    exact ⟨i, js, rfl, hi, hjs b hb⟩
  all_goals simp_all [TokenKind.beginsStatement, TokenKind.endsLine]

private theorem yields_moduleUpTo_end (hs : s.ahead = q :: rest) (hq : q.kind = .endOfFile)
    (fuel : Nat) :
    Yields (moduleUpTo fuel) s (q :: rest) fun _ is => is = [] := by
  cases fuel with
  | zero => exact .pure hs fun _ _ => rfl
  | succ fuel =>
    refine .look (run_kind hs) ?_
    rw [hq]
    exact .pure hs fun _ _ => rfl

/-- A module of one line. -/
theorem yields_moduleUpTo_line {Q : Arena → NodeId → Prop} {lineEnd fileEnd : Piece}
    (hs : s.ahead = p :: ps)
    (hp : p.kind.beginsStatement = true ∧ p.kind.beginsCompound = false)
    (hline : lineEnd.kind = .newline) (hfile : fileEnd.kind = .endOfFile)
    (h : Yields simpleStatement s [lineEnd, fileEnd] Q) :
    Yields (moduleUpTo s.ahead.length) s [fileEnd] fun b is => ∃ i, is = [i] ∧ Q b i := by
  have hmodule : Yields (moduleUpTo (ps.length + 1)) s [fileEnd] fun b is =>
      ∃ i js, is = i :: js ∧ Q b i ∧ js = [] :=
    yields_moduleUpTo hs hp.1 (yields_statement_line hs hp.2 hline h)
      fun t ht => yields_moduleUpTo_end ht hfile ps.length
  rw [hs, List.length_cons]
  refine hmodule.mono fun b is _ his => ?_
  obtain ⟨i, js, rfl, hi, rfl⟩ := his
  exact ⟨i, rfl, hi⟩

end Parser

/-- What is read of the pieces of a text is what the text is parsed as. -/
theorem parse_of_yields {text : String} {ps : List Piece} {Q : Arena → List NodeId → Prop}
    (hfindings : (scan text).findings = #[])
    (h : ∀ s : ParseState, s.ahead = (scan text).tokens.toList.map Token.piece →
      Parser.Yields (Parser.moduleUpTo s.ahead.length) s ps Q) :
    (parse text).findings = [] ∧ Q (parse text).tree.arena (parse text).tree.statements := by
  let start : ParseState := ⟨(scan text).tokens, 0, 0, .empty, (scan text).findings⟩
  have hfile : Parser.Yields (Parser.file text.utf8ByteSize) start ps
      fun b root => ∃ is, b.data? root = some (.root is) ∧ Q b is := by
    refine .look (Parser.run_remaining start) ((h start rfl).bind fun is t ht his => ?_)
    refine (Parser.yields_addNode ht.ahead (.root is) ⟨0, text.utf8ByteSize⟩).mono
      fun b root hb hroot => ⟨is, hroot, his b hb⟩
  obtain ⟨root, done, hrun, hdone, hroot⟩ := hfile
  obtain ⟨is, hdata, his⟩ := hroot done.arena (.refl _)
  have hparse : parse text =
      ⟨⟨done.arena, root, .ofText text⟩, done.findings.toList.mergeSort Finding.notAfter⟩ :=
    congrArg (fun r =>
      (⟨⟨r.2.arena, r.1, .ofText text⟩, r.2.findings.toList.mergeSort Finding.notAfter⟩ : Parse))
      hrun
  have hnone : done.findings = #[] := hdone.findings.trans hfindings
  have hstatements : (parse text).tree.statements = is := by
    simp [hparse, Tree.statements, hdata]
  rw [hstatements, hparse]
  refine ⟨?_, his⟩
  simp [hnone]

end LiveCheck
