import LiveCheck.Proofs.Grammar.Unfolding

/-!
# Descent in the grammar

Every call of a rule either begins behind a token or goes to a rule of a lower level. Hence the
rules can be followed without fuel, and what comes out is what the parser does with fuel. Both are
shown together, by induction on the number of tokens left and the level of the rule.
-/

/-!
## The levels of the grammar

Until it takes a token, a rule calls rules below itself, and it takes one unless it may be idle at
the next token. For each rule this is read off its body.
-/

namespace LiveCheck

open Program

namespace Program

variable {ok : ∀ β, Production β → Prop} {k : TokenKind}

/-! ### Steps that depend on the next token -/

private theorem keeps_argumentForm {post : ArgumentForm × Option NodeId → Prop} (h : ∀ a, post a) :
    argumentForm.Keeps ok k post := by
  simp only [argumentForm, keeps_bind, keeps_kind]
  split <;> simp [h]

private theorem keeps_parameterForm {post : Option ParameterForm → Prop} (h : ∀ a, post a) :
    parameterForm.Keeps ok k post := by
  simp only [parameterForm, keeps_bind, keeps_kind]
  split <;> simp [h]

private theorem keeps_comparisonOp {post : Option (CompareOp × Nat) → Prop} (hnone : post none)
    (hsome : k ≠ .endOfFile → ∀ a, post a) : comparisonOp.Keeps ok k post := by
  simp only [comparisonOp, keeps_bind, keeps_kind]
  split <;> simp_all

end Program

/-! ### Rules -/

namespace Production

@[simp] theorem above_iff {α β : Type} {r : Production α} {r' : Production β} :
    r.Above r' ↔
      r'.level < r.level ∧ r'.need ≤ r.leeway ∧ (r.isLoop = true → r'.isLoop = false) :=
  ⟨fun h => ⟨h.level, h.need, h.loop⟩, fun ⟨h, h', h''⟩ => ⟨h, h', h''⟩⟩

@[simp] theorem ranked_idle {α : Type} (r : Production α) (k : TokenKind) :
    Ranked.Idle r k = r.Idle k := rfl

@[simp] theorem length_levels : Parser.levels.length = 6 := rfl

variable {k : TokenKind}

private theorem keeps_item (i : Item) :
    (item i).body.Keeps (fun _ => (item i).Above) k fun _ => True := by
  cases i <;> simp +contextual [body, Item.body, starOr, sliceItem, sliceBound, connective,
    namesAfter, importAlias, withItem, decorator]

private theorem keeps_entry (e : ListEntry) :
    (entry e).body.Keeps (fun _ => (entry e).Above) k fun _ => True := by
  cases e with
  | argument d =>
    simp only [body, ListEntry.body, argument, keeps_bind, keeps_start]
    exact fun _ => keeps_argumentForm (by simp)
  | parameter d annotated =>
    simp only [body, ListEntry.body, parameter, keeps_bind, keeps_start]
    refine fun _ => keeps_parameterForm fun form => ?_
    cases form with
    | none => simp
    | some form => cases form <;> simp
  | element d | importedName => simp [body, ListEntry.body, importAlias]

private theorem keeps_expressionStatement :
    expressionStatement.Keeps (fun _ => simpleStatement.Above) k fun _ => True := by
  simp only [expressionStatement, keeps_bind, keeps_start, keeps_follow, keeps_eat, keeps_ite]
  refine fun start => ⟨by simp, fun _ first => ⟨fun _ => ⟨by simp, fun _ => ?_⟩, ?_⟩⟩
  · rw [keeps_kind]
    cases Parser.augmentedOperator? k <;> simp +contextual [augmentedAssignment, assignment]
  · simp +contextual

private theorem keeps_body {α : Type} (r : Production α) :
    r.body.Keeps (fun _ => r.Above) k fun _ => r.Idle k := by
  cases r with
  | skipLine =>
    cases k <;> simp [body, Program.skipLine, TokenKind.endsLine]
  | stringValues =>
    simp only [body, Program.stringValues, keeps_bind, keeps_kind]
    split <;> simp
  | strings =>
    simp +contextual [body, Program.strings]
  | afterCommas stop i =>
    simp +contextual [body, Program.afterCommas]
  | afterEach mark i =>
    cases mark <;> simp +contextual [body, Program.afterEach]
  | entries stop e =>
    simp only [body, Program.entries, keeps_bind, keeps_peek, keeps_ite, keeps_follow]
    refine ⟨fun _ => trivial, fun _ => ⟨by simp, fun _ found => ?_⟩⟩
    cases found <;> simp +contextual
  | list stop e =>
    simp +contextual [body]
  | item i => exact keeps_item i
  | entry e => exact keeps_entry e
  | tooDeep =>
    simp +contextual [body, Program.tooDeep]
  | atom d =>
    simp only [body, Program.atom, keeps_bind, keeps_kind]
    split <;> simp [constant, parenthesized, listDisplay, braced, missing]
  | dictEntry d key =>
    cases key <;> simp [body, Program.dictEntry]
  | dictEntries d =>
    simp +contextual [body, Program.dictEntries]
  | dictDisplay d start key =>
    simp +contextual [body, Program.dictDisplay]
  | starExpressions d | targetList d | subscriptIndex d =>
    simp +contextual [body, tupleOf]
  | trailers d start expr =>
    simp only [body, Program.trailers, keeps_bind, keeps_kind]
    split <;> simp
  | primary d =>
    simp +contextual [body, Program.primary]
  | factors d =>
    simp only [body, Program.factors, keeps_bind, keeps_start, keeps_kind]
    intro _
    cases hop : Parser.signOf? k with
    | none => simp +contextual
    | some op =>
      have hend : k ≠ .endOfFile := fun h => by rw [h] at hop; cases hop
      simp [hend]
  | factor d =>
    simp +contextual [body]
  | operationsRest ls level d start left =>
    simp only [body, Program.operationsRest, keeps_bind, keeps_kind]
    cases hop : level.operator? k with
    | none => simp
    | some op =>
      have hend : k ≠ .endOfFile := fun h => by rw [h] at hop; cases hop
      simp [hend]
  | operations ls d =>
    cases ls <;> simp [body, Program.operations] <;> omega
  | comparisons d =>
    simp only [body, Program.comparisons, keeps_bind]
    refine keeps_comparisonOp trivial fun hend found => ?_
    cases found <;> simp [hend]
  | comparison d =>
    simp +contextual [body, Program.comparison]
  | negations d =>
    simp +contextual [body, Program.negations]
  | orTest d =>
    simp +contextual [body, connective]
  | conditional d =>
    simp +contextual [body, Program.conditional, lambdaExpression]
  | expression d =>
    simp +contextual [body, Program.expression]
  | operand d =>
    simp +contextual [body]
  | topExpression | topStarExpressions | topTargetList | topBitOr | topParameters
  | topArguments => simp +contextual [body]
  | importLevel =>
    simp only [body, Program.importLevel, keeps_bind, keeps_kind]
    split <;> simp
  | simpleStatement =>
    simp only [body, Program.simpleStatement, keeps_bind, keeps_kind]
    split
    case h_12 => exact keeps_expressionStatement
    all_goals simp [keywordStatement, returnStatement, raiseStatement, assertStatement,
      deleteStatement, globalStatement, nonlocalStatement, importStatement, fromStatement,
      namesAfter, importedNames]
  | simpleStatements =>
    simp +contextual [body, Program.simpleStatements]
  | simpleLine =>
    simp +contextual [body, Program.simpleLine]
  | block =>
    simp +contextual [body, Program.block]
  | colonBlock =>
    simp +contextual [body, Program.colonBlock]
  | elseBlock =>
    simp +contextual [body, Program.elseBlock]
  | ifStatement =>
    simp +contextual [body, Program.ifStatement]
  | whileStatement =>
    simp +contextual [body, Program.whileStatement]
  | forStatement =>
    simp +contextual [body, Program.forStatement]
  | handlers =>
    simp +contextual [body, Program.handlers]
  | tryStatement =>
    simp +contextual [body, Program.tryStatement]
  | withStatement =>
    simp +contextual [body, Program.withStatement]
  | functionStatement decorators start =>
    simp +contextual [body, Program.functionStatement]
  | classStatement decorators start =>
    simp +contextual [body, Program.classStatement]
  | decoratedStatement =>
    simp only [body, Program.decoratedStatement, keeps_bind, keeps_start, keeps_follow, keeps_kind]
    refine fun _ => ⟨by simp, fun hidle decorators => ?_⟩
    split <;> simp_all
  | statement =>
    simp only [body, Program.statement, keeps_bind, keeps_kind]
    split <;> simp
  | statements =>
    simp only [body, Program.statements, keeps_bind, keeps_kind]
    split
    case h_5 hend hdedent hnewline hindent =>
      simp [TokenKind.endsLine_eq_false hend hnewline hindent hdedent]
    all_goals simp [unexpectedBlock]
  | module =>
    simp only [body, Program.module, keeps_bind, keeps_kind]
    split
    case h_5 hend hnewline hdedent hindent =>
      simp [TokenKind.endsLine_eq_false hend hnewline hindent hdedent]
    all_goals simp [unexpectedBlock]

end Production
end LiveCheck

/-! ## Following the rules -/

namespace LiveCheck

namespace Production

open Program

variable {α β : Type} {r : Production α} {r' : Production β} {s t : ParseState} {f k : Nat}

/-- The parsers for the rules with fuel and rounds for all the tokens left. -/
def parse (α : Type) (r : Production α) : Parser α := do
  let n ← Parser.remaining
  r.parser (n + 1) n

/-- While the rule is followed from the state `s`, it may call the other one in the state `t`. -/
abbrev Reaches (r : Production α) (s : ParseState) (r' : Production β) (t : ParseState) : Prop :=
  Within (R := Production) s (fun _ r' => r.Above r') r' t

theorem Reaches.lower (h : r.Reaches s r' t) : Call.Lower ⟨r', t⟩ ⟨r, s⟩ := by
  have hremaining := h.further.remaining
  have hinside := h.further.inside
  rcases h.taken with htaken | habove
  · refine .left _ _ ?_
    show t.remaining < s.remaining
    omega
  · rcases Nat.lt_or_ge t.remaining s.remaining with hlt | hge
    · exact .left _ _ hlt
    · have heq : t.remaining = s.remaining := by omega
      show Prod.Lex _ _ (t.remaining, _) (s.remaining, _)
      rw [heq]
      exact .right _ habove.level

private theorem need_le (r : Production α) : r.need ≤ 1 := by
  cases r with
  | item i => cases i <;> simp
  | _ => simp

private theorem Enough.of_reaches (h : r.Reaches s r' t)
    (hfuel : s.remaining + r.leeway ≤ f + 1)
    (hrounds : r'.isLoop = true → t.remaining < s.remaining ∨ r.Above r' → t.remaining ≤ k) :
    r'.Enough f k t := by
  have hremaining := h.further.remaining
  have hneed := r'.need_le
  have hdescends : t.remaining < s.remaining ∨ r.Above r' := h.taken.imp_left fun htaken => by omega
  refine ⟨?_, fun hloop => hrounds hloop hdescends⟩
  rcases hdescends with hlt | habove
  · omega
  · have := habove.need
    omega

private theorem Unfolds.exists_callee (h : r.Unfolds f k s) :
    ∃ callee : ∀ β, Production β → Parser β,
      (r.body.run callee).run s = (r.parser f k).run s ∧
        ∀ {β : Type} (r' : Production β) t, r.Reaches s r' t →
          ∃ f' k', r'.Enough f' k' t ∧ (callee _ r').run t = (r'.parser f' k').run t := by
  cases h with
  | solve fuel hfuel hrun =>
    refine ⟨_, hrun, fun r' t hcall => ⟨fuel, t.remaining, ?_, rfl⟩⟩
    exact .of_reaches hcall hfuel fun _ _ => Nat.le_refl _
  | round fuel rounds hfuel hloop hrounds hrun =>
    refine ⟨_, hrun, fun r' t hcall => ⟨fuel, rounds, ?_, rfl⟩⟩
    refine .of_reaches hcall hfuel fun hloop' hdescends => ?_
    rcases hdescends with hlt | habove
    · omega
    · rw [habove.loop hloop] at hloop'
      cases hloop'

private theorem enough_remaining (r : Production α) (s : ParseState) :
    r.Enough (s.remaining + 1) s.remaining s :=
  ⟨Nat.add_le_add_left (Nat.le_trans r.need_le (Nat.le_succ _)) _, fun _ => Nat.le_refl _⟩

/-- What is known of a rule in a state. -/
structure Settles (r : Production α) (s : ParseState) : Prop where
  /-- The rule stays within the text, and takes a token unless it may be idle. -/
  answers : Answers parse r s
  /-- More fuel and rounds than enough make no difference. -/
  fuel : ∀ f k, r.Enough f k s → (r.parser f k).run s = (parse _ r).run s
  /-- The rule does what its body says. -/
  body : (r.body.run parse).run s = (parse _ r).run s
  /-- The calls of the body are within reach. -/
  calls : ∀ c ∈ r.body.calls parse s, r.Reaches s c.rule c.state
  /-- The body can be followed to its end. -/
  runs : Runs (fun _ => Production.body) r.body s ((parse _ r).run s).1 ((parse _ r).run s).2

theorem settles {α : Type} (r : Production α) {s : ParseState} (hs : s.Inside) : r.Settles s := by
  have ih {β : Type} (r' : Production β) {t : ParseState}
      (h : r.Reaches s r' t) : r'.Settles t := settles r' (hs.further h.further)
  have hrun (f k : Nat) (h : r.Enough f k s) :
      s.Further ((r.body.run parse).run s).2 ∧
        (((r.body.run parse).run s).2.cursor = s.cursor → r.Idle s.token.kind) ∧
        (∀ c ∈ r.body.calls parse s, r.Reaches s c.rule c.state) ∧
        (r.parser f k).run s = (r.body.run parse).run s := by
    obtain ⟨callee, hcallee, henough⟩ := (unfolds r hs h).exists_callee
    rw [← hcallee]
    refine further_run hs (fun r' t hcall => ⟨(ih r' hcall).answers, ?_⟩) r.keeps_body
    obtain ⟨f', k', henough', heq⟩ := henough r' t hcall
    exact heq.trans ((ih r' hcall).fuel f' k' henough')
  obtain ⟨hfurther, hidle, hcalls, hparse⟩ := hrun _ _ (r.enough_remaining s)
  have hbody : (r.body.run parse).run s = (parse _ r).run s := hparse.symm
  rw [hbody] at hfurther hidle
  refine ⟨⟨hfurther, hidle⟩, fun f k h => (hrun f k h).2.2.2.trans hbody, hbody, hcalls, ?_⟩
  rw [← hbody]
  exact runs_run fun c hc => (ih c.rule (hcalls c hc)).runs
termination_by (s.remaining, r.level)
decreasing_by exact h.lower

end Production
end LiveCheck
