import LiveCheck.Proofs.Parsing.Run

/-!
# Programs of recursive rules

A grammar is a system of rules that call each other. The body of a rule is a program: it takes
elementary steps, looks at what they yield and calls rules, itself among them. There is no fuel in
a program. Given parsers for the rules, a program runs as a parser, and its calls can be listed;
`Runs` says what a program does when every call is answered by running the body of the called rule,
so a run is finite or not there at all.

`Keeps` is a condition on a program that can be checked without running it: which rules it calls
before the first token is taken. `further_run` draws from it what the calls of a run have in common.
-/

namespace LiveCheck

namespace ParseState

variable {s t r : ParseState}

/-- The text ends with a token of its own, and the cursor stands at a token. -/
structure Inside (s : ParseState) : Prop where
  ended : Ended s.tokens
  cursor : s.cursor < s.tokens.size

/-- A parse may reach the second state from the first: the text is the same, no token is given
back, and the end of the text is not passed. -/
structure Further (s t : ParseState) : Prop where
  tokens : t.tokens = s.tokens
  cursor : s.cursor ≤ t.cursor
  inside : t.cursor < t.tokens.size

private theorem Inside.refl (h : s.Inside) : s.Further s := ⟨rfl, Nat.le_refl _, h.cursor⟩

private theorem Further.trans (h : s.Further t) (h' : t.Further r) : s.Further r :=
  ⟨h'.tokens.trans h.tokens, Nat.le_trans h.cursor h'.cursor, h'.inside⟩

theorem Inside.further (hs : s.Inside) (h : s.Further t) : t.Inside :=
  ⟨h.tokens ▸ hs.ended, h.inside⟩

private theorem Further.token (h : s.Further t) (hcursor : t.cursor = s.cursor) :
    t.token = s.token := by
  have htoken (r : ParseState) : r.token =
      (r.tokens[r.cursor]?.or r.tokens.back?).getD ⟨.endOfFile, ⟨0, 0⟩, ""⟩ := rfl
  rw [htoken, htoken, h.tokens, hcursor]

theorem Further.remaining (h : s.Further t) :
    t.remaining + (t.cursor - s.cursor) = s.remaining := by
  have hcursor := h.cursor
  have hinside := h.inside
  have hsize : t.tokens.size = s.tokens.size := by rw [h.tokens]
  rw [ParseState.remaining, ParseState.remaining]
  omega

theorem Inside.remaining_pos (h : s.Inside) : 0 < s.remaining := Nat.sub_pos_of_lt h.cursor

end ParseState

/-- An elementary step of a parser. -/
structure Primitive (α : Type) where
  /-- What it does. -/
  act : Parser α
  /-- What it can yield at a token of the given kind if it takes no token. -/
  Idle : TokenKind → α → Prop
  further : ∀ s : ParseState, s.Inside → s.Further (act.run s).2
  idle : ∀ s : ParseState, s.Inside → (act.run s).2.cursor = s.cursor →
    Idle s.token.kind (act.run s).1

/-- A program that takes steps and calls rules from `R`. -/
inductive Program (R : Type → Type) (α : Type) : Type 1
  | done (a : α) : Program R α
  | step {β : Type} (x : Primitive β) (rest : β → Program R α) : Program R α
  | call {β : Type} (r : R β) (rest : β → Program R α) : Program R α

/-- Rules with a level, and with the kinds of tokens at which they may end without having taken a
token. -/
class Ranked (R : Type → Type) where
  level : ∀ {α : Type}, R α → Nat
  Idle : ∀ {α : Type}, R α → TokenKind → Prop

namespace Program

variable {R : Type → Type} {α β : Type} {c : Prop} {p : Program R α}

/-- The first program, then the second with what the first yields. -/
protected def bind : Program R α → (α → Program R β) → Program R β
  | done a, f => f a
  | step x rest, f => step x fun b => (rest b).bind f
  | call r rest, f => call r fun b => (rest b).bind f

instance : Monad (Program R) where
  pure := done
  bind := Program.bind

/-- A single step. -/
def ask (x : Primitive α) : Program R α := step x done

/-- A single call. -/
def follow (r : R α) : Program R α := call r done

/-! ## Running -/

/-- A program as a parser, given parsers for the rules. -/
def run (solve : ∀ β, R β → Parser β) : Program R α → Parser α
  | done a => pure a
  | step x rest => x.act >>= fun b => (rest b).run solve
  | call r rest => solve _ r >>= fun b => (rest b).run solve

section Run

variable {solve : ∀ β, R β → Parser β}

@[simp] theorem run_pure (a : α) : (pure a : Program R α).run solve = pure a := rfl

@[simp] theorem run_bind (p : Program R α) (f : α → Program R β) :
    (p >>= f).run solve = p.run solve >>= fun a => (f a).run solve := by
  induction p with
  | done a => rfl
  | step x rest ih | call r rest ih => exact congrArg (_ >>= ·) (funext ih)

@[simp] theorem run_map (f : α → β) (p : Program R α) :
    (f <$> p).run solve = f <$> p.run solve := run_bind p (pure ∘ f)

@[simp] theorem run_ask (x : Primitive α) : (ask x : Program R α).run solve = x.act := rfl

@[simp] theorem run_follow (r : R α) : (follow r).run solve = solve _ r := rfl

@[simp] theorem run_ite [Decidable c] (p q : Program R α) :
    (if c then p else q).run solve = if c then p.run solve else q.run solve := by
  split <;> rfl

end Run

/-- A rule that is called, and the state in which it is called. -/
structure Call (R : Type → Type) where
  {α : Type}
  /-- The rule. -/
  rule : R α
  /-- The state. -/
  state : ParseState

/-- The calls of a program, in the order in which it makes them. -/
def calls (solve : ∀ β, R β → Parser β) : Program R α → ParseState → List (Call R)
  | done _, _ => []
  | step x rest, s => (rest (x.act.run s).1).calls solve (x.act.run s).2
  | call r rest, s => ⟨r, s⟩ :: (rest ((solve _ r).run s).1).calls solve ((solve _ r).run s).2

/-- The program, begun in the state `s`, ends in the state `t` and yields `a`, where a call of a
rule runs its body. -/
inductive Runs (body : ∀ β, R β → Program R β) :
    {α : Type} → Program R α → ParseState → α → ParseState → Prop
  | done {α : Type} {a : α} {s : ParseState} : Runs body (done a) s a s
  | step {α β : Type} {x : Primitive β} {rest : β → Program R α} {s t : ParseState} {a : α}
      (hrest : Runs body (rest (x.act.run s).1) (x.act.run s).2 a t) : Runs body (step x rest) s a t
  | call {α β : Type} {r : R β} {rest : β → Program R α} {s u t : ParseState} {b : β} {a : α}
      (hbody : Runs body (body β r) s b u) (hrest : Runs body (rest b) u a t) :
      Runs body (call r rest) s a t

section Runs

variable {body : ∀ β, R β → Program R β} {solve : ∀ β, R β → Parser β}

/-- A program has one run at most. -/
theorem Runs.unique {s t t' : ParseState} {a a' : α} (h : Runs body p s a t)
    (h' : Runs body p s a' t') : a' = a ∧ t' = t := by
  induction h generalizing t' with
  | done =>
    cases h'
    exact ⟨rfl, rfl⟩
  | step _ ih =>
    cases h' with
    | step hrest' => exact ih hrest'
  | call _ _ ihbody ihrest =>
    cases h' with
    | call hbody' hrest' =>
      obtain ⟨rfl, rfl⟩ := ihbody hbody'
      exact ihrest hrest'

/-- Where the bodies of the called rules run to what the parsers for the rules yield, so does the
program. -/
theorem runs_run {s : ParseState}
    (h : ∀ c ∈ p.calls solve s,
      Runs body (body _ c.rule) c.state ((solve _ c.rule).run c.state).1
        ((solve _ c.rule).run c.state).2) :
    Runs body p s ((p.run solve).run s).1 ((p.run solve).run s).2 := by
  induction p generalizing s with
  | done a => exact .done
  | step x rest ih => exact .step (ih _ h)
  | call r rest ih =>
    exact .call (h ⟨r, s⟩ List.mem_cons_self) (ih _ fun c hc => h c (List.mem_cons_of_mem _ hc))

end Runs

/-! ## Before the first token is taken -/

variable [Ranked R]

/-- Until a token is taken, the program calls rules with `ok` only; if it takes none at all, then
what it yields has `post`. The next token is of kind `k` all the while. -/
def Keeps (ok : ∀ β, R β → Prop) (k : TokenKind) : Program R α → (α → Prop) → Prop
  | done a, post => post a
  | step x rest, post => ∀ b, x.Idle k b → (rest b).Keeps ok k post
  | call r rest, post => ok _ r ∧ (Ranked.Idle r k → ∀ b, (rest b).Keeps ok k post)

section Keeps

variable {ok : ∀ β, R β → Prop} {k : TokenKind} {post : α → Prop}

@[simp] theorem keeps_pure (a : α) : (pure a : Program R α).Keeps ok k post ↔ post a := .rfl

@[simp] theorem keeps_bind {f : α → Program R β} {post : β → Prop} :
    (p >>= f).Keeps ok k post ↔ p.Keeps ok k fun a => (f a).Keeps ok k post := by
  induction p with
  | done a => exact .rfl
  | step x rest ih => exact forall_congr' fun b => imp_congr_right fun _ => ih b
  | call r rest ih =>
    exact and_congr_right fun _ => imp_congr_right fun _ => forall_congr' ih

@[simp] theorem keeps_map {f : α → β} {post : β → Prop} :
    (f <$> p).Keeps ok k post ↔ p.Keeps ok k fun a => post (f a) := keeps_bind

@[simp] theorem keeps_ask {x : Primitive α} :
    (ask x : Program R α).Keeps ok k post ↔ ∀ a, x.Idle k a → post a := .rfl

@[simp] theorem keeps_follow {r : R α} :
    (follow r).Keeps ok k post ↔ ok _ r ∧ (Ranked.Idle r k → ∀ a, post a) := .rfl

@[simp] theorem keeps_ite [Decidable c] {q : Program R α} :
    (if c then p else q).Keeps ok k post ↔
      (c → p.Keeps ok k post) ∧ (¬ c → q.Keeps ok k post) := by
  split <;> simp [*]

end Keeps

/-! ## What the calls of a run have in common -/

/-- The first call comes below the second: fewer tokens are left, or as many and the level is
lower. -/
def Call.Lower (c c' : Call R) : Prop :=
  Prod.Lex (· < ·) (· < ·) (c.state.remaining, Ranked.level c.rule)
    (c'.state.remaining, Ranked.level c'.rule)

/-- A call of `r` in the state `t` is within reach from the state `s`: a token has been taken, or
the rule has `ok`. -/
structure Within (s : ParseState) (ok : ∀ β, R β → Prop) (r : R α) (t : ParseState) : Prop where
  further : s.Further t
  taken : s.cursor < t.cursor ∨ ok _ r

/-- What a call does is known: it goes on, and it takes a token unless it may be idle. -/
structure Answers (solve : ∀ β, R β → Parser β) (r : R α) (s : ParseState) : Prop where
  further : s.Further ((solve _ r).run s).2
  idle : ((solve _ r).run s).2.cursor = s.cursor → Ranked.Idle r s.token.kind

variable {solve solve' : ∀ β, R β → Parser β} {ok : ∀ β, R β → Prop} {post : α → Prop}

/-- A run stays within the text, and so do its calls, if the calls within reach do. Parsers for the
rules that agree on the calls within reach make for the same run. -/
theorem further_run {s : ParseState} (hs : s.Inside)
    (hsolve : ∀ {β} (r : R β) t, Within s ok r t →
      Answers solve r t ∧ (solve' _ r).run t = (solve _ r).run t)
    (hp : p.Keeps ok s.token.kind post) :
    s.Further ((p.run solve).run s).2 ∧
      (((p.run solve).run s).2.cursor = s.cursor → post ((p.run solve).run s).1) ∧
      (∀ c ∈ p.calls solve s, Within s ok c.rule c.state) ∧
      (p.run solve').run s = (p.run solve).run s := by
  -- The program goes on from a later state; it is held to its condition until a token is taken.
  suffices hlater : ∀ t, s.Further t → (t.cursor = s.cursor → p.Keeps ok s.token.kind post) →
      s.Further ((p.run solve).run t).2 ∧
        (((p.run solve).run t).2.cursor = s.cursor → post ((p.run solve).run t).1) ∧
        (∀ c ∈ p.calls solve t, Within s ok c.rule c.state) ∧
        (p.run solve').run t = (p.run solve).run t from
    hlater s hs.refl fun _ => hp
  clear hp
  induction p with
  | done a => exact fun t ht hp => ⟨ht, hp, fun _ => List.not_mem_nil.elim, rfl⟩
  | step x rest ih =>
    intro t ht hp
    have hx := x.further t (hs.further ht)
    refine ih _ _ (ht.trans hx) fun hcursor => ?_
    have hidle : (x.act.run t).2.cursor = t.cursor :=
      Nat.le_antisymm (hcursor ▸ ht.cursor) hx.cursor
    have hstay : t.cursor = s.cursor := hidle ▸ hcursor
    exact hp hstay _ (ht.token hstay ▸ x.idle t (hs.further ht) hidle)
  | call r rest ih =>
    intro t ht hp
    have hwithin : Within s ok r t := by
      refine ⟨ht, ?_⟩
      rcases Nat.lt_or_ge s.cursor t.cursor with hlt | hge
      · exact .inl hlt
      · exact .inr (hp (Nat.le_antisymm hge ht.cursor)).1
    obtain ⟨hanswers, hagree⟩ := hsolve r t hwithin
    obtain ⟨hfurther, hpost, hcalls, hrun⟩ := ih ((solve _ r).run t).1 ((solve _ r).run t).2
      (ht.trans hanswers.further) fun hcursor => by
        have hidle : ((solve _ r).run t).2.cursor = t.cursor :=
          Nat.le_antisymm (hcursor ▸ ht.cursor) hanswers.further.cursor
        have hstay : t.cursor = s.cursor := hidle ▸ hcursor
        exact (hp hstay).2 (ht.token hstay ▸ hanswers.idle hidle) _
    refine ⟨hfurther, hpost, ?_, ?_⟩
    · rintro c hc
      rcases List.mem_cons.mp hc with rfl | hc
      · exact hwithin
      · exact hcalls c hc
    · show ((rest ((solve' _ r).run t).1).run solve').run ((solve' _ r).run t).2 = _
      rw [hagree]
      exact hrun

end Program
end LiveCheck

/-!
## The steps of a parse

The parsers that neither repeat nor nest anything, as steps of programs. Beside each step stands
what it can yield where it takes no token.
-/

namespace LiveCheck

variable {α β : Type}

/-- A parser that never gives a token back nor passes the end of the text. -/
def Parser.Steady (x : Parser α) : Prop := ∀ s : ParseState, s.Inside → s.Further (x.run s).2

/-- The answer of `p` on the kind of the next token. -/
def Parser.peek (p : TokenKind → Bool) : Parser Bool := return p (← kind)

private def Parser.Quiet (x : Parser α) : Prop :=
  ∀ s : ParseState, (x.run s).2.tokens = s.tokens ∧ (x.run s).2.cursor = s.cursor

namespace Parser

variable {x : Parser α} {f : α → Parser β}

private theorem Quiet.steady (h : Quiet x) : Steady x := fun s hs => by
  obtain ⟨htokens, hcursor⟩ := h s
  exact ⟨htokens, Nat.le_of_eq hcursor.symm, htokens ▸ hcursor ▸ hs.cursor⟩

private theorem Steady.bind (hx : Steady x) (hf : ∀ a, Steady (f a)) :
    Steady (x >>= f) := fun s hs =>
  (hx s hs).trans (hf _ _ (hs.further (hx s hs)))

private theorem Quiet.bind (hx : Quiet x) (hf : ∀ a, Quiet (f a)) : Quiet (x >>= f) := fun s =>
  ⟨(hf _ _).1.trans (hx s).1, (hf _ _).2.trans (hx s).2⟩

private theorem quiet_pure (a : α) : Quiet (pure a) := fun _ => ⟨rfl, rfl⟩

private theorem quiet_report (code : Nat) (span : Span) (arg : Option String) :
    Quiet (report code span arg) := fun s => by
  obtain ⟨findings, heq, -⟩ := s.exists_reported code span arg
  show (s.reported code span arg).tokens = _ ∧ (s.reported code span arg).cursor = _
  rw [heq]
  exact ⟨rfl, rfl⟩

private theorem quiet_reportHere (code : Nat) (arg : Option String) : Quiet (reportHere code arg) :=
  Quiet.bind (fun _ => ⟨rfl, rfl⟩) fun _ => quiet_report _ _ _

private theorem quiet_finish (data : NodeData) (start : Nat) : Quiet (finish data start) :=
  fun _ => ⟨rfl, rfl⟩

private theorem quiet_checkTarget (target : NodeId) : Quiet (checkTarget target) := fun s => by
  obtain ⟨findings, heq, -⟩ := exists_checkTarget target s
  rw [heq]
  exact ⟨rfl, rfl⟩

private theorem quiet_checkPlace (target : NodeId) : Quiet (checkPlace target) := fun s => by
  obtain ⟨findings, heq, -⟩ := exists_checkPlace target s
  rw [heq]
  exact ⟨rfl, rfl⟩

private theorem quiet_checkTargets (targets : List NodeId) : Quiet (targets.forM checkTarget) := by
  induction targets with
  | nil => exact quiet_pure _
  | cons target targets ih => exact (quiet_checkTarget target).bind fun _ => ih

private theorem run_bump_endOfFile {s : ParseState} (h : s.token.kind = .endOfFile) :
    bump.run s = (s.token, s) := by
  have hcurrent : current.run s = (s.token, s) := rfl
  refine (run_bind hcurrent).trans ?_
  rw [h]
  rfl

private theorem cursor_bump {s : ParseState} (hs : s.Inside) :
    (bump.run s).2.tokens = s.tokens ∧
      (s.token.kind = .endOfFile ∧ (bump.run s).2.cursor = s.cursor ∨
        (bump.run s).2.cursor = s.cursor + 1 ∧ s.cursor + 1 < s.tokens.size) := by
  by_cases hend : s.token.kind = .endOfFile
  · rw [run_bump_endOfFile hend]
    exact ⟨rfl, .inl ⟨hend, rfl⟩⟩
  · have hlt := ParseState.succ_lt_size hs.ended hs.cursor hend
    cases hlayout : s.token.kind.isLayout with
    | true =>
      rw [run_bump_of_isLayout hlayout]
      exact ⟨rfl, .inr ⟨rfl, hlt⟩⟩
    | false =>
      have hline : s.token.kind.endsLine = false := by
        cases hk : s.token.kind <;> rw [hk] at hlayout hend <;>
          first | exact absurd rfl hend | rfl | cases hlayout
      rw [run_bump_of_inLine hline]
      exact ⟨rfl, .inr ⟨rfl, hlt⟩⟩

private theorem steady_bump : Steady bump := fun s hs => by
  obtain ⟨htokens, ⟨-, hcursor⟩ | ⟨hcursor, hlt⟩⟩ := cursor_bump hs
  · exact ⟨htokens, Nat.le_of_eq hcursor.symm, htokens ▸ hcursor ▸ hs.cursor⟩
  · exact ⟨htokens, hcursor ▸ Nat.le_succ _, htokens ▸ hcursor ▸ hlt⟩

private theorem eq_endOfFile_of_bump {s : ParseState} (hs : s.Inside)
    (h : (bump.run s).2.cursor = s.cursor) : s.token.kind = .endOfFile := by
  obtain ⟨-, ⟨hend, -⟩ | ⟨hcursor, -⟩⟩ := cursor_bump hs
  · exact hend
  · exact absurd (hcursor.symm.trans h) (Nat.succ_ne_self _)

private theorem run_eat_of_eq {k : TokenKind} {s : ParseState} (h : s.token.kind = k) :
    (eat k).run s = (true, (bump.run s).2) := by
  have hat : (isAt k).run s = (true, s) := congrArg (·, s) (beq_iff_eq.mpr h)
  exact run_bind hat

private theorem steady_eat (k : TokenKind) : Steady (eat k) := fun s hs => by
  by_cases hk : s.token.kind = k
  · rw [run_eat_of_eq hk]
    exact steady_bump s hs
  · rw [run_eat_of_not k hk]
    exact hs.refl

private theorem steady_expect (k : TokenKind) : Steady (expect k) := (steady_eat k).bind fun b => by
  cases b with
  | true => exact (quiet_pure true).steady
  | false => exact ((quiet_reportHere _ _).bind fun _ => quiet_pure false).steady

private theorem steady_name : Steady name := fun s hs => by
  by_cases hk : s.token.kind = .name
  · have hlt := ParseState.succ_lt_size hs.ended hs.cursor (by rw [hk]; exact fun h => by cases h)
    rw [run_name hk]
    exact ⟨rfl, Nat.le_succ _, hlt⟩
  · obtain ⟨findings, heq, -⟩ := s.exists_reported Code.expectedName s.token.span none
    rw [run_name_of_ne hk, heq]
    exact ⟨rfl, Nat.le_refl _, hs.cursor⟩

end Parser

namespace Primitive

/-- A step that may leave everything as it is. -/
def ofSteady (x : Parser α) (h : Parser.Steady x) : Primitive α :=
  ⟨x, fun _ _ => True, h, fun _ _ _ => trivial⟩

/-- A step that only looks at the state. -/
def ofLook (look : ParseState → α) : Primitive α :=
  ofSteady (fun s => (look s, s)) fun _ hs => hs.refl

/-- A step that looks at the kind of the next token. -/
def peek (p : TokenKind → α) : Primitive α :=
  ⟨fun s => (p s.token.kind, s), fun k a => a = p k, fun _ hs => hs.refl, fun _ _ _ => rfl⟩

/-- The next token is taken. -/
def bump : Primitive Token :=
  ⟨Parser.bump, fun k _ => k = .endOfFile, Parser.steady_bump, fun _ => Parser.eq_endOfFile_of_bump⟩

/-- A token of the given kind is taken if it is there. -/
def eat (kind : TokenKind) : Primitive Bool where
  act := Parser.eat kind
  Idle k a := k = kind ∧ k = .endOfFile ∧ a = true ∨ k ≠ kind ∧ a = false
  further := Parser.steady_eat kind
  idle s hs h := by
    by_cases hk : s.token.kind = kind
    · rw [Parser.run_eat_of_eq hk] at h ⊢
      exact .inl ⟨hk, Parser.eq_endOfFile_of_bump hs h, rfl⟩
    · rw [Parser.run_eat_of_not kind hk]
      exact .inr ⟨hk, rfl⟩

end Primitive

namespace Program

variable {R : Type → Type}

/-- The answer of `p` on the kind of the next token. -/
def peek (p : TokenKind → Bool) : Program R Bool := ask (.peek p)

/-- What the next token is. -/
def kind : Program R TokenKind := ask (.peek id)

/-- Whether the next token is of the given kind. -/
def isAt (k : TokenKind) : Program R Bool := peek (· == k)

/-- Whether no token of the logical line is left. -/
def atLineEnd : Program R Bool := peek TokenKind.endsLine

/-- Whether an expression begins here. -/
def atExpression : Program R Bool := peek Parser.startsExpression

/-- The next token. -/
def current : Program R Token := ask (.ofLook ParseState.token)

/-- The kind of the token behind the next one. -/
def following : Program R TokenKind := ask (.ofLook ParseState.nextKind)

/-- The offset of the next token. -/
def start : Program R Nat := ask (.ofLook (·.token.span.start))

/-- The number of problems so far. -/
def problems : Program R Nat := ask (.ofLook (·.findings.size))

/-- What a node is. -/
def dataOf (id : NodeId) : Program R (Option NodeData) := ask (.ofLook (·.arena.data? id))

/-- Takes the next token, unless it is the end of the text. -/
def bump : Program R Token := ask .bump

/-- Takes the next token if it is of the given kind. -/
def eat (k : TokenKind) : Program R Bool := ask (.eat k)

/-- Takes a token of the given kind or records that it is missing. -/
def expect (k : TokenKind) : Program R Bool := ask (.ofSteady _ (Parser.steady_expect k))

/-- Records a problem. -/
def report (code : Nat) (span : Span) (arg : Option String) : Program R Unit :=
  ask (.ofSteady _ (Parser.quiet_report code span arg).steady)

/-- Records a problem with the next token. -/
def reportHere (code : Nat) (arg : Option String) : Program R Unit :=
  ask (.ofSteady _ (Parser.quiet_reportHere code arg).steady)

/-- Appends a node that reaches from `start` to the last token taken. -/
def finish (data : NodeData) (start : Nat) : Program R NodeId :=
  ask (.ofSteady _ (Parser.quiet_finish data start).steady)

/-- Takes a name, or records that one is missing. -/
def name : Program R NodeId := ask (.ofSteady _ Parser.steady_name)

/-- Records the targets that nothing can be assigned to. -/
def checkTarget (target : NodeId) : Program R Unit :=
  ask (.ofSteady _ (Parser.quiet_checkTarget target).steady)

/-- Records the targets among the given nodes that nothing can be assigned to. -/
def checkTargets (targets : List NodeId) : Program R Unit :=
  ask (.ofSteady _ (Parser.quiet_checkTargets targets).steady)

/-- Records a target that is not a single place. -/
def checkPlace (target : NodeId) : Program R Unit :=
  ask (.ofSteady _ (Parser.quiet_checkPlace target).steady)

/-- Runs a program only where `p` holds. -/
def optional (p : Program R Bool) (item : Program R α) : Program R (Option α) := do
  if ← p then return some (← item) else return none

/-! ### Steps as parsers -/

section Run

variable {solve : ∀ β, R β → Parser β}

@[simp] theorem run_peek (p : TokenKind → Bool) :
    (peek p : Program R Bool).run solve = Parser.peek p := rfl

@[simp] theorem run_kind : (kind : Program R TokenKind).run solve = Parser.kind := rfl

@[simp] theorem run_isAt (k : TokenKind) :
    (isAt k : Program R Bool).run solve = Parser.isAt k := rfl

@[simp] theorem run_atLineEnd : (atLineEnd : Program R Bool).run solve = Parser.atLineEnd := rfl

@[simp] theorem run_atExpression :
    (atExpression : Program R Bool).run solve = Parser.atExpression := rfl

@[simp] theorem run_current : (current : Program R Token).run solve = Parser.current := rfl

@[simp] theorem run_following :
    (following : Program R TokenKind).run solve = Parser.following := rfl

@[simp] theorem run_start : (start : Program R Nat).run solve = Parser.start := rfl

@[simp] theorem run_problems : (problems : Program R Nat).run solve = Parser.problems := rfl

@[simp] theorem run_dataOf (id : NodeId) :
    (dataOf id : Program R (Option NodeData)).run solve = Parser.dataOf id := rfl

@[simp] theorem run_bump : (bump : Program R Token).run solve = Parser.bump := rfl

@[simp] theorem run_eat (k : TokenKind) :
    (eat k : Program R Bool).run solve = Parser.eat k := rfl

@[simp] theorem run_expect (k : TokenKind) :
    (expect k : Program R Bool).run solve = Parser.expect k := rfl

@[simp] theorem run_report (code : Nat) (span : Span) (arg : Option String) :
    (report code span arg : Program R Unit).run solve = Parser.report code span arg := rfl

@[simp] theorem run_reportHere (code : Nat) (arg : Option String) :
    (reportHere code arg : Program R Unit).run solve = Parser.reportHere code arg := rfl

@[simp] theorem run_finish (data : NodeData) (start : Nat) :
    (finish data start : Program R NodeId).run solve = Parser.finish data start := rfl

@[simp] theorem run_name : (name : Program R NodeId).run solve = Parser.name := rfl

@[simp] theorem run_checkTarget (target : NodeId) :
    (checkTarget target : Program R Unit).run solve = Parser.checkTarget target := rfl

@[simp] theorem run_checkTargets (targets : List NodeId) :
    (checkTargets targets : Program R Unit).run solve = targets.forM Parser.checkTarget := rfl

@[simp] theorem run_checkPlace (target : NodeId) :
    (checkPlace target : Program R Unit).run solve = Parser.checkPlace target := rfl

@[simp] theorem run_optional (p : Program R Bool) (item : Program R α) :
    (optional p item).run solve = Parser.optional (p.run solve) (item.run solve) := by
  simp [optional, Parser.optional]

end Run

/-! ### Steps before the first token is taken -/

section Keeps

variable [Ranked R] {ok : ∀ β, R β → Prop} {k k' : TokenKind} {code : Nat} {arg : Option String}
  {target : NodeId}

@[simp] theorem keeps_peek {p : TokenKind → Bool} {post : Bool → Prop} :
    (peek p : Program R Bool).Keeps ok k post ↔ post (p k) := by
  simp [peek, Primitive.peek]

@[simp] theorem keeps_kind {post : TokenKind → Prop} :
    (kind : Program R TokenKind).Keeps ok k post ↔ post k := by
  simp [kind, Primitive.peek]

@[simp] theorem keeps_isAt {post : Bool → Prop} :
    (isAt k' : Program R Bool).Keeps ok k post ↔ post (k == k') := keeps_peek

@[simp] theorem keeps_atLineEnd {post : Bool → Prop} :
    (atLineEnd : Program R Bool).Keeps ok k post ↔ post k.endsLine := keeps_peek

@[simp] theorem keeps_atExpression {post : Bool → Prop} :
    (atExpression : Program R Bool).Keeps ok k post ↔ post (Parser.startsExpression k) := keeps_peek

@[simp] theorem keeps_ofSteady {x : Parser α} {h : Parser.Steady x} {post : α → Prop} :
    (ask (.ofSteady x h) : Program R α).Keeps ok k post ↔ ∀ a, post a := by
  simp [Primitive.ofSteady]

private theorem keeps_ofSteady_unit {x : Parser Unit} {h : Parser.Steady x} {post : Unit → Prop} :
    (ask (.ofSteady x h) : Program R Unit).Keeps ok k post ↔ post () :=
  keeps_ofSteady.trans ⟨fun h => h (), fun h _ => h⟩

@[simp] theorem keeps_current {post : Token → Prop} :
    (current : Program R Token).Keeps ok k post ↔ ∀ a, post a := keeps_ofSteady

@[simp] theorem keeps_following {post : TokenKind → Prop} :
    (following : Program R TokenKind).Keeps ok k post ↔ ∀ a, post a := keeps_ofSteady

@[simp] theorem keeps_start {post : Nat → Prop} :
    (start : Program R Nat).Keeps ok k post ↔ ∀ a, post a := keeps_ofSteady

@[simp] theorem keeps_problems {post : Nat → Prop} :
    (problems : Program R Nat).Keeps ok k post ↔ ∀ a, post a := keeps_ofSteady

@[simp] theorem keeps_dataOf {id : NodeId} {post : Option NodeData → Prop} :
    (dataOf id : Program R (Option NodeData)).Keeps ok k post ↔ ∀ a, post a := keeps_ofSteady

@[simp] theorem keeps_bump {post : Token → Prop} :
    (bump : Program R Token).Keeps ok k post ↔ (k = .endOfFile → ∀ a, post a) :=
  ⟨fun h hk a => h a hk, fun h a hk => h hk a⟩

@[simp] theorem keeps_eat {post : Bool → Prop} :
    (eat k' : Program R Bool).Keeps ok k post ↔
      (k ≠ k' → post false) ∧ (k = k' → k = .endOfFile → post true) := by
  simp [eat, Primitive.eat]

@[simp] theorem keeps_expect {post : Bool → Prop} :
    (expect k' : Program R Bool).Keeps ok k post ↔ ∀ a, post a := keeps_ofSteady

@[simp] theorem keeps_report {span : Span} {post : Unit → Prop} :
    (report code span arg : Program R Unit).Keeps ok k post ↔ post () := keeps_ofSteady_unit

@[simp] theorem keeps_reportHere {post : Unit → Prop} :
    (reportHere code arg : Program R Unit).Keeps ok k post ↔ post () := keeps_ofSteady_unit

@[simp] theorem keeps_finish {data : NodeData} {start : Nat} {post : NodeId → Prop} :
    (finish data start : Program R NodeId).Keeps ok k post ↔ ∀ a, post a := keeps_ofSteady

@[simp] theorem keeps_name {post : NodeId → Prop} :
    (name : Program R NodeId).Keeps ok k post ↔ ∀ a, post a := keeps_ofSteady

@[simp] theorem keeps_checkTarget {post : Unit → Prop} :
    (checkTarget target : Program R Unit).Keeps ok k post ↔ post () := keeps_ofSteady_unit

@[simp] theorem keeps_checkTargets {targets : List NodeId} {post : Unit → Prop} :
    (checkTargets targets : Program R Unit).Keeps ok k post ↔ post () := keeps_ofSteady_unit

@[simp] theorem keeps_checkPlace {post : Unit → Prop} :
    (checkPlace target : Program R Unit).Keeps ok k post ↔ post () := keeps_ofSteady_unit

@[simp] theorem keeps_optional {p : Program R Bool} {item : Program R α} {post : Option α → Prop} :
    (optional p item).Keeps ok k post ↔
      p.Keeps ok k fun b => (b = true → item.Keeps ok k fun a => post (some a)) ∧
        (b = false → post none) := by
  simp [optional]

end Keeps

end Program
end LiveCheck
