import LiveCheck.Proofs.Parsing.Run

/-!
# Two runs of a parser in lockstep

Two runs of the grammar are compared token by token. Whoever compares them says by a relation what
the two states have in common, and shows that the relation survives each elementary step; the grammar
then keeps it as a whole. With the states goes the list of those nodes of the first run that are
still waiting for a parent, in the order of the text: every rule puts the nodes it makes at the end
of the list, and every node that is made takes its children from there. A relation of a state to
itself says what holds along a single run.
-/

namespace LiveCheck

/-- A node with other numbers for its children. -/
def NodeData.rename (f : NodeId → NodeId) : NodeData → NodeData
  | root body => .root (body.map f)
  | exprStmt expr => .exprStmt (f expr)
  | assign targets value => .assign (targets.map f) (f value)
  | annAssign target hint value => .annAssign (f target) (f hint) (value.map f)
  | augAssign target op value => .augAssign (f target) op (f value)
  | pass => .pass
  | breakLoop => .breakLoop
  | continueLoop => .continueLoop
  | returnStmt value => .returnStmt (value.map f)
  | raiseStmt exc cause => .raiseStmt (exc.map f) (cause.map f)
  | assertStmt test msg => .assertStmt (f test) (msg.map f)
  | deleteStmt targets => .deleteStmt (targets.map f)
  | globalStmt names => .globalStmt (names.map f)
  | nonlocalStmt names => .nonlocalStmt (names.map f)
  | ifStmt test body orelse => .ifStmt (f test) (body.map f) (orelse.map f)
  | whileLoop test body orelse => .whileLoop (f test) (body.map f) (orelse.map f)
  | forLoop target iter body orelse =>
    .forLoop (f target) (f iter) (body.map f) (orelse.map f)
  | tryStmt body handlers orelse finalbody =>
    .tryStmt (body.map f) (handlers.map f) (orelse.map f) (finalbody.map f)
  | handler type caught body => .handler (type.map f) (caught.map f) (body.map f)
  | withStmt items body => .withStmt (items.map f) (body.map f)
  | withItem context target => .withItem (f context) (target.map f)
  | functionDef decorators defined params returns body =>
    .functionDef (decorators.map f) (f defined) (params.map f) (returns.map f) (body.map f)
  | parameter form declared hint default =>
    .parameter form (declared.map f) (hint.map f) (default.map f)
  | classDef decorators defined bases body =>
    .classDef (decorators.map f) (f defined) (bases.map f) (body.map f)
  | importStmt names => .importStmt (names.map f)
  | importFrom path level names wildcard => .importFrom (path.map f) level (names.map f) wildcard
  | importAlias path asname => .importAlias (path.map f) (asname.map f)
  | name atom => .name atom
  | constant kind value => .constant kind value
  | binary left op right => .binary (f left) op (f right)
  | boolean op values => .boolean op (values.map f)
  | unary op operand => .unary op (f operand)
  | compare left ops comparators => .compare (f left) ops (comparators.map f)
  | call func args => .call (f func) (args.map f)
  | argument form key value => .argument form (key.map f) (f value)
  | member value attr => .member (f value) (f attr)
  | subscript value index => .subscript (f value) (f index)
  | slice lower upper step => .slice (lower.map f) (upper.map f) (step.map f)
  | tuple elts => .tuple (elts.map f)
  | list elts => .list (elts.map f)
  | set elts => .set (elts.map f)
  | dict entries => .dict (entries.map fun (key, value) => (key.map f, f value))
  | conditional test body orelse => .conditional (f test) (f body) (f orelse)
  | lambda params body => .lambda (params.map f) (f body)
  | starred value => .starred (f value)
  | malformed => .malformed

/-- Whether the node is neither a name nor a value nor malformed. -/
def NodeData.isInner : NodeData → Bool
  | name _ | constant .. | malformed => false
  | _ => true

/-- The problems that the grammar finds with a token. -/
def Code.ofGrammar : List Nat :=
  [unexpectedToken, expectedExpression, expectedIndentedBlock, unexpectedIndent, expectedName,
    expectedToken]

open LiveCheck.Parser

/-- What two runs have in common, and that every elementary step keeps it. -/
structure Lockstep where
  /-- Two states that belong together, and the nodes of the first that wait for a parent. -/
  Rel : ParseState → ParseState → List NodeId → Prop
  /-- The number in the second run of a node of the first. -/
  node : NodeId → NodeId
  /-- How much later a token begins in the second run. -/
  shift : Nat
  /-- Where a node of the first run may begin. -/
  Start : Nat → Prop
  /-- The tokens of the first run. -/
  tokens : Array Token
  tokens_eq : ∀ {s t ps}, Rel s t ps → s.tokens = tokens
  cursor_lt : ∀ {s t ps}, Rel s t ps → s.cursor < tokens.size
  remaining_le : ∀ {s t ps}, Rel s t ps → s.remaining ≤ t.remaining
  problems : ∀ {s t ps s' t' ps'}, Rel s t ps → Rel s' t' ps' →
    s'.findings.size + t.findings.size = s.findings.size + t'.findings.size
  kind : ∀ {s t ps}, Rel s t ps → t.token.kind = s.token.kind
  text : ∀ {s t ps}, Rel s t ps → t.token.text = s.token.text
  nextKind : ∀ {s t ps}, Rel s t ps → s.token.kind.endsLine = false → t.nextKind = s.nextKind
  start : ∀ {s t ps}, Rel s t ps →
    t.token.span.start = s.token.span.start + shift ∧ Start s.token.span.start
  stopping : ParseState.Stopping tokens
  ended : ParseState.Ended tokens
  take : ∀ {s t ps}, Rel s t ps → s.token.kind.endsLine = false →
    s.token.kind.isContent = false ∨ s.findings.size ≠ 0 → Rel s.taken t.taken ps
  report : ∀ {s t ps code}, Rel s t ps → code ∈ Code.ofGrammar → ∀ arg,
    Rel (s.reported code s.token.span arg) (t.reported code t.token.span arg) ps
  checkTarget : ∀ {s t ps i}, Rel s t ps → i ∈ ps →
    Rel ((checkTarget i).run s).2 ((checkTarget (node i)).run t).2 ps
  checkPlace : ∀ {s t ps i}, Rel s t ps → i ∈ ps →
    Rel ((checkPlace i).run s).2 ((checkPlace (node i)).run t).2 ps
  name : ∀ {s t ps}, Rel s t ps → s.token.kind = .name ∨ s.lastStop ≠ 0 →
    (name.run t).1 = node (name.run s).1 ∧
      Rel (name.run s).2 (name.run t).2 (ps ++ [(name.run s).1])
  constant : ∀ {s t ps}, Rel s t ps → s.token.kind.endsLine = false → s.token.kind ≠ .name →
    ∀ kind, ((constant kind).run t).1 = node ((constant kind).run s).1 ∧
      Rel ((constant kind).run s).2 ((constant kind).run t).2 (ps ++ [((constant kind).run s).1])
  strings : ∀ {s t ps}, Rel s t ps → s.token.kind = .string ∨ s.token.kind = .bytes →
    (strings.run t).1 = node (strings.run s).1 ∧
      Rel (strings.run s).2 (strings.run t).2 (ps ++ [(strings.run s).1])
  finish : ∀ {s t ps data a}, Rel s t (ps ++ data.children) → Start a →
    data.isInner = true ∨ data = .malformed ∧ s.findings.size ≠ 0 →
    ((finish (data.rename node) (a + shift)).run t).1 = node ((finish data a).run s).1 ∧
      Rel ((finish data a).run s).2 ((finish (data.rename node) (a + shift)).run t).2
        (ps ++ [((finish data a).run s).1])
  /-- Nodes may be left behind, but not without a problem. -/
  forget : ∀ {s t ps qs}, Rel s t (ps ++ qs) → s.findings.size ≠ 0 → Rel s t ps
  /-- The elements of a tuple may take its place. -/
  tuple : ∀ {s t ps i}, Rel s t (ps ++ [i]) →
    (∃ elts, s.arena.data? i = some (.tuple elts) ∧
      t.arena.data? (node i) = some (.tuple (elts.map node)) ∧ Rel s t (ps ++ elts)) ∨
    (∀ elts, s.arena.data? i ≠ some (.tuple elts)) ∧
      ∀ elts, t.arena.data? (node i) ≠ some (.tuple elts)

namespace Lockstep

variable {L : Lockstep} {α β : Type} {d e r code : Nat} {s t : ParseState} {used : List NodeId}
  {V : α → α → List NodeId → Prop} {W : β → β → List NodeId → Prop} {x y : Parser α} {a b : α}
  {f g : α → Parser β} {k : TokenKind} {arg : Option String}

/-- Two parsers stay abreast: from states that belong together they reach states that belong
together, at least `d` tokens later, and their results correspond. The nodes that the result mentions
take the place of the used ones. -/
def Abreast (L : Lockstep) (d : Nat) (s t : ParseState) (used : List NodeId) (x y : Parser α)
    (V : α → α → List NodeId → Prop) : Prop :=
  ∀ ps, L.Rel s t (ps ++ used) → ∃ qs, V (x.run s).1 (y.run t).1 qs ∧
    L.Rel (x.run s).2 (y.run t).2 (ps ++ qs) ∧ s.Before d (x.run s).2

/-! ## Results that correspond -/

/-- Results without nodes that are the same. -/
def Same (a b : α) (qs : List NodeId) : Prop := b = a ∧ qs = []

/-- A node and the node that it is in the second run. -/
def Node (L : Lockstep) (i j : NodeId) (qs : List NodeId) : Prop := j = L.node i ∧ qs = [i]

/-- A list of nodes. -/
def Nodes (L : Lockstep) (is js : List NodeId) (qs : List NodeId) : Prop :=
  js = is.map L.node ∧ qs = is

/-- An optional node. -/
def Maybe (L : Lockstep) (i j : Option NodeId) (qs : List NodeId) : Prop :=
  j = i.map L.node ∧ qs = i.toList

/-! ## Rules -/

/-- What holds of states that belong together may be used. -/
theorem Abreast.of_rel (h : ∀ ps, L.Rel s t ps → L.Abreast d s t used x y V) :
    L.Abreast d s t used x y V :=
  fun ps hps => h _ hps ps hps

/-- Fewer tokens may be asked for. -/
theorem Abreast.mono (h : L.Abreast d s t used x y V) (hd : e ≤ d) :
    L.Abreast e s t used x y V := fun ps hps => by
  obtain ⟨qs, hv, hrel, hbefore⟩ := h ps hps
  exact ⟨qs, hv, hrel, hbefore.mono hd⟩

/-- Two parsers that do nothing keep abreast. -/
theorem Abreast.pure (h : V a b used) : L.Abreast 0 s t used (pure a) (pure b) V :=
  fun _ hps => ⟨used, h, hps, .refl s⟩

private theorem Abreast.bindUsing {kept : List NodeId} (hr : r ≤ e + d)
    (hx : L.Abreast e s t used x y V)
    (hf : ∀ a b qs s' t', V a b qs → s.Before e s' → x.run s = (a, s') →
      L.Abreast d s' t' (kept ++ qs) (f a) (g b) W) :
    L.Abreast r s t (kept ++ used) (x >>= f) (y >>= g) W := by
  intro ps hps
  obtain ⟨qs, hv, hrel, hbefore⟩ := hx (ps ++ kept) (by rwa [List.append_assoc])
  rw [List.append_assoc] at hrel
  obtain ⟨rs, hw, hrel', hbefore'⟩ := hf _ _ qs _ _ hv hbefore rfl ps hrel
  rw [run_bind (x := x) rfl, run_bind (x := y) rfl]
  exact ⟨rs, hw, hrel', (hbefore.trans hbefore').mono hr⟩

/-- Going on behind parsers that use all of the nodes. -/
theorem Abreast.then (hx : L.Abreast e s t used x y V)
    (hf : ∀ a b qs s' t', V a b qs → s.Before e s' → L.Abreast d s' t' qs (f a) (g b) W) :
    L.Abreast d s t used (x >>= f) (y >>= g) W :=
  show L.Abreast d s t ([] ++ used) (x >>= f) (y >>= g) W from
    hx.bindUsing (Nat.le_add_left d e) fun a b qs s' t' hv hbefore _ => hf a b qs s' t' hv hbefore

/-- Going on behind parsers that use none of the nodes. -/
theorem Abreast.bind (hx : L.Abreast e s t [] x y V)
    (hf : ∀ a b qs s' t', V a b qs → s.Before e s' → L.Abreast d s' t' (used ++ qs) (f a) (g b) W) :
    L.Abreast d s t used (x >>= f) (y >>= g) W := by
  rw [← List.append_nil used]
  exact hx.bindUsing (Nat.le_add_left d e) fun a b qs s' t' hv hbefore _ =>
    hf a b qs s' t' hv hbefore

theorem Abreast.thenNode {x y : Parser NodeId} {f g : NodeId → Parser β}
    (hx : L.Abreast e s t used x y L.Node)
    (hf : ∀ i s' t', s.Before e s' → L.Abreast d s' t' [i] (f i) (g (L.node i)) W) :
    L.Abreast d s t used (x >>= f) (y >>= g) W :=
  hx.then fun i _ _ s' t' ⟨hj, hqs⟩ hbefore => hj ▸ hqs ▸ hf i s' t' hbefore

/-- Behind a node that both have read, it waits for its parent. -/
theorem Abreast.bindNode {x y : Parser NodeId} {f g : NodeId → Parser β}
    (hx : L.Abreast e s t [] x y L.Node)
    (hf : ∀ i s' t', s.Before e s' →
      L.Abreast d s' t' (used ++ [i]) (f i) (g (L.node i)) W) :
    L.Abreast d s t used (x >>= f) (y >>= g) W :=
  hx.bind fun i _ _ s' t' ⟨hj, hqs⟩ hbefore => hj ▸ hqs ▸ hf i s' t' hbefore

/-- Behind nodes that both have read, these wait for their parent. -/
theorem Abreast.bindNodes {x y : Parser (List NodeId)} {f g : List NodeId → Parser β}
    (hx : L.Abreast e s t [] x y L.Nodes)
    (hf : ∀ is s' t', s.Before e s' →
      L.Abreast d s' t' (used ++ is) (f is) (g (is.map L.node)) W) :
    L.Abreast d s t used (x >>= f) (y >>= g) W :=
  hx.bind fun is _ _ s' t' ⟨hj, hqs⟩ hbefore => hj ▸ hqs ▸ hf is s' t' hbefore

/-- Behind a node that both may have read, it waits, if there is one. -/
theorem Abreast.bindMaybe {x y : Parser (Option NodeId)} {f g : Option NodeId → Parser β}
    (hx : L.Abreast e s t [] x y L.Maybe)
    (hf : ∀ i s' t', s.Before e s' →
      L.Abreast d s' t' (used ++ i.toList) (f i) (g (i.map L.node)) W) :
    L.Abreast d s t used (x >>= f) (y >>= g) W :=
  hx.bind fun i _ _ s' t' ⟨hj, hqs⟩ hbefore => hj ▸ hqs ▸ hf i s' t' hbefore

/-- Behind a value that is the same in both runs, none waits more. -/
theorem Abreast.bindSame (hx : L.Abreast e s t [] x y Same)
    (hf : ∀ a s' t', s.Before e s' → L.Abreast d s' t' used (f a) (g a) W) :
    L.Abreast d s t used (x >>= f) (y >>= g) W :=
  hx.bind fun a b qs s' t' ⟨hb, hqs⟩ hbefore => by
    subst hb hqs
    rw [List.append_nil]
    exact hf b s' t' hbefore

/-- Going on behind parsers that may have taken the first tokens. -/
theorem Abreast.bindNodesFrom {x y : Parser (List NodeId)} {f g : List NodeId → Parser β}
    (hr : r ≤ e + d) (hx : L.Abreast e s t [] x y L.Nodes)
    (hf : ∀ is s' t', s.Before e s' → x.run s = (is, s') →
      L.Abreast d s' t' (used ++ is) (f is) (g (is.map L.node)) W) :
    L.Abreast r s t used (x >>= f) (y >>= g) W := by
  rw [← List.append_nil used]
  refine hx.bindUsing hr fun is js qs s' t' ⟨hjs, hqs⟩ hbefore hrun => ?_
  rw [hjs, hqs]
  exact hf is s' t' hbefore hrun

theorem Abreast.bindSameFrom (hr : r ≤ e + d) (hx : L.Abreast e s t [] x y Same)
    (hf : ∀ a s' t', s.Before e s' → L.Abreast d s' t' used (f a) (g a) W) :
    L.Abreast r s t used (x >>= f) (y >>= g) W := by
  rw [← List.append_nil used]
  refine hx.bindUsing hr fun a b qs s' t' ⟨hb, hqs⟩ hbefore _ => ?_
  rw [hb, hqs, List.append_nil]
  exact hf a s' t' hbefore

theorem Abreast.map {f g : α → β} (hx : L.Abreast d s t used x y V)
    (h : ∀ a b qs, V a b qs → W (f a) (g b) qs) : L.Abreast d s t used (f <$> x) (g <$> y) W := by
  intro ps hps
  obtain ⟨qs, hv, hrel, hbefore⟩ := hx ps hps
  exact ⟨qs, h _ _ qs hv, hrel, hbefore⟩

/-! ## Looking ahead -/

/-- Going on behind parsers that only look. -/
theorem Abreast.look (hx : x.run s = (a, s)) (hy : y.run t = (b, t))
    (h : L.Abreast d s t used (f a) (g b) W) :
    L.Abreast d s t used (x >>= f) (y >>= g) W := by
  intro ps hps
  rw [run_bind hx, run_bind hy]
  exact h ps hps

/-- Both runs see the same kind of token. -/
theorem Abreast.kind {f g : TokenKind → Parser β}
    (h : L.Abreast d s t used (f s.token.kind) (g s.token.kind) W) :
    L.Abreast d s t used (Parser.kind >>= f) (Parser.kind >>= g) W :=
  .of_rel fun _ hrel => .look rfl (b := s.token.kind) (congrArg (·, t) (L.kind hrel)) h

theorem Abreast.current {f g : Token → Parser β}
    (h : t.token.kind = s.token.kind → t.token.text = s.token.text →
      t.token.span.start = s.token.span.start + L.shift → L.Start s.token.span.start →
      L.Abreast d s t used (f s.token) (g t.token) W) :
    L.Abreast d s t used (Parser.current >>= f) (Parser.current >>= g) W :=
  .of_rel fun _ hrel => .look rfl rfl
    (h (L.kind hrel) (L.text hrel) (L.start hrel).1 (L.start hrel).2)

theorem Abreast.following {f g : TokenKind → Parser β} (hline : s.token.kind.endsLine = false)
    (h : L.Abreast d s t used (f s.nextKind) (g s.nextKind) W) :
    L.Abreast d s t used (Parser.following >>= f) (Parser.following >>= g) W :=
  .of_rel fun _ hrel => .look rfl (b := s.nextKind) (congrArg (·, t) (L.nextKind hrel hline)) h

/-- Both runs note where they begin, one of them shifted. -/
theorem Abreast.start {f g : Nat → Parser β}
    (h : ∀ a, L.Start a → L.Abreast d s t used (f a) (g (a + L.shift)) W) :
    L.Abreast d s t used (Parser.start >>= f) (Parser.start >>= g) W :=
  .of_rel fun _ hrel => by
    obtain ⟨heq, hstart⟩ := L.start hrel
    exact .look rfl (congrArg (·, t) heq) (h _ hstart)

/-- Both runs have fuel for the tokens that are left. -/
theorem Abreast.remaining {f g : Nat → Parser β}
    (h : ∀ m n, L.tokens.size ≤ m + s.cursor → L.tokens.size ≤ n + s.cursor →
      L.Abreast d s t used (f m) (g n) W) :
    L.Abreast d s t used (Parser.remaining >>= f) (Parser.remaining >>= g) W :=
  .of_rel fun _ hrel => by
    have hle := L.remaining_le hrel
    have hs : s.remaining = L.tokens.size - s.cursor := by
      rw [ParseState.remaining, L.tokens_eq hrel]
    exact .look rfl rfl (h s.remaining t.remaining (by omega) (by omega))

/-- The parser looks at the kind of the next token only. -/
def Peeks (x : Parser Bool) (p : TokenKind → Bool) : Prop :=
  ∀ s : ParseState, x.run s = (p s.token.kind, s)

/-- To ask for a kind of token takes none. -/
theorem peeks_isAt (k : TokenKind) : Peeks (isAt k) (· == k) := fun _ => rfl

theorem peeks_not_isAt (k : TokenKind) : Peeks (return !(← isAt k)) (! · == k) := fun _ => rfl

theorem peeks_isAt_or (k k' : TokenKind) :
    Peeks (return (← isAt k) || (← isAt k')) fun kind => kind == k || kind == k' := fun _ => rfl

theorem peeks_isAt_or_atLineEnd (k : TokenKind) :
    Peeks (return (← isAt k) || (← atLineEnd)) fun kind => kind == k || kind.endsLine := fun _ => rfl

theorem peeks_atLineEnd : Peeks atLineEnd TokenKind.endsLine := fun _ => rfl

theorem peeks_atExpression : Peeks atExpression startsExpression := fun _ => rfl

theorem peeks_notAtExpression : Peeks notAtExpression (! startsExpression ·) := fun _ => rfl

/-- Both runs answer alike what is asked of the next token. -/
theorem Abreast.peek {x : Parser Bool} {p : TokenKind → Bool} (hx : Peeks x p)
    {f g : Bool → Parser β}
    (hyes : p s.token.kind = true → L.Abreast d s t used (f true) (g true) W)
    (hno : p s.token.kind = false → L.Abreast d s t used (f false) (g false) W) :
    L.Abreast d s t used (x >>= f) (x >>= g) W :=
  .of_rel fun _ hrel => by
    have hy : x.run t = (p s.token.kind, t) := by rw [hx t, L.kind hrel]
    refine .look (hx s) hy ?_
    cases hp : p s.token.kind with
    | true => exact hyes hp
    | false => exact hno hp

/-- Both runs are at a token of the kind, or neither is. -/
theorem Abreast.isAt {f g : Bool → Parser β}
    (hyes : s.token.kind = k → L.Abreast d s t used (f true) (g true) W)
    (hno : s.token.kind ≠ k → L.Abreast d s t used (f false) (g false) W) :
    L.Abreast d s t used (Parser.isAt k >>= f) (Parser.isAt k >>= g) W :=
  .peek (peeks_isAt k) (fun h => hyes (beq_iff_eq.mp h)) fun h => hno (beq_eq_false_iff_ne.mp h)

/-! ## Taking tokens -/

/-- Going on behind a token of a line. -/
theorem Abreast.bump {f g : Token → Parser β} (hline : s.token.kind.endsLine = false)
    (hcontent : s.token.kind.isContent = false ∨ s.findings.size ≠ 0)
    (h : ∀ s' t', s.Before 1 s' → s'.lastStop ≠ 0 → s.Next s' →
      L.Abreast 0 s' t' used (f s.token) (g t.token) W) :
    L.Abreast 1 s t used (Parser.bump >>= f) (Parser.bump >>= g) W := by
  intro ps hps
  have hline' : t.token.kind.endsLine = false := by rwa [L.kind hps]
  have hstop := ParseState.stop_ne (L.tokens_eq hps ▸ L.stopping) hline
  have hbefore : s.Before 1 s.taken := ⟨Nat.le_refl _, Nat.le_refl _, fun _ => hstop⟩
  obtain ⟨qs, hw, hrel, hafter⟩ :=
    h s.taken t.taken hbefore hstop (.of_eq rfl rfl) ps (L.take hps hline hcontent)
  rw [run_bind (run_bump_of_inLine hline), run_bind (run_bump_of_inLine hline')]
  exact ⟨qs, hw, hrel, hbefore.trans hafter⟩

/-- Going on behind a reserved word or a symbol, one token later. -/
theorem Abreast.advance {f g : Token → Parser β} (hk : s.token.kind = k) (hplain : k.isPlain = true)
    (h : ∀ s' t', s.Before 1 s' → s'.lastStop ≠ 0 → s.Next s' →
      L.Abreast 0 s' t' used (f s.token) (g t.token) W) :
    L.Abreast 1 s t used (Parser.bump >>= f) (Parser.bump >>= g) W :=
  .bump (hk ▸ TokenKind.endsLine_of_isPlain hplain)
    (.inl (hk ▸ TokenKind.isContent_of_isPlain hplain)) h

/-- Going on behind a reserved word or a symbol. -/
theorem Abreast.take {f g : Token → Parser β} (hk : s.token.kind = k) (hplain : k.isPlain = true)
    (h : ∀ s' t', s.Before 1 s' → s'.lastStop ≠ 0 → s.Next s' →
      L.Abreast 0 s' t' used (f s.token) (g t.token) W) :
    L.Abreast 0 s t used (Parser.bump >>= f) (Parser.bump >>= g) W :=
  (Abreast.advance hk hplain h).mono (Nat.zero_le 1)

/-- Going on behind a reserved word or a symbol that is there, one token later. -/
theorem Abreast.eatThere {f g : Bool → Parser β} (hk : s.token.kind = k) (hplain : k.isPlain = true)
    (h : ∀ s' t', s.Before 1 s' → s'.lastStop ≠ 0 → L.Abreast 0 s' t' used (f true) (g true) W) :
    L.Abreast 1 s t used (Parser.eat k >>= f) (Parser.eat k >>= g) W := by
  have htake : L.Abreast 1 s t used (Parser.bump >>= fun _ => f true)
      (Parser.bump >>= fun _ => g true) W :=
    .advance hk hplain fun s' t' hbefore hstop _ => h s' t' hbefore hstop
  intro ps hps
  have hk' : t.token.kind = k := (L.kind hps).trans hk
  have hline := TokenKind.endsLine_of_isPlain hplain
  have hrun := htake ps hps
  rw [run_bind (run_bump_of_inLine (hk ▸ hline)), run_bind (run_bump_of_inLine (hk' ▸ hline))]
    at hrun
  rwa [run_bind (run_eat_inLine hk hline), run_bind (run_eat_inLine hk' hline)]

/-- Both runs take the token, or neither does. -/
theorem Abreast.eat {f g : Bool → Parser β} (hplain : k.isPlain = true)
    (hyes : ∀ s' t', s.token.kind = k → s.Before 1 s' → s'.lastStop ≠ 0 →
      L.Abreast 0 s' t' used (f true) (g true) W)
    (hno : s.token.kind ≠ k → L.Abreast 0 s t used (f false) (g false) W) :
    L.Abreast 0 s t used (Parser.eat k >>= f) (Parser.eat k >>= g) W := by
  by_cases hk : s.token.kind = k
  · exact (Abreast.eatThere hk hplain fun s' t' => hyes s' t' hk).mono (Nat.zero_le 1)
  · refine .of_rel fun ps hps => .look (run_eat_of_not k hk) (run_eat_of_not k ?_) (hno hk)
    rwa [L.kind hps]

/-! ## Problems -/

/-- Going on behind a problem with the next token. -/
theorem Abreast.report {f g : Unit → Parser β} (hcode : code ∈ Code.ofGrammar)
    (h : ∀ s' t', s'.findings.size ≠ 0 → s.Before 0 s' → s'.cursor = s.cursor →
      s'.lastStop = s.lastStop → s'.token = s.token →
      L.Abreast d s' t' used (f ()) (g ()) W) :
    L.Abreast d s t used (Parser.report code s.token.span arg >>= f)
      (Parser.report code t.token.span arg >>= g) W := by
  intro ps hps
  have hbefore := s.before_reported code s.token.span arg
  obtain ⟨findings, heq, -, hsize⟩ := s.exists_reported code s.token.span arg
  obtain ⟨qs, hw, hrel, hafter⟩ := h (s.reported code s.token.span arg)
    (t.reported code t.token.span arg) (s.size_findings_reported code s.token.span arg) hbefore
    (by rw [heq]) (by rw [heq]) (by rw [heq]; rfl) ps (L.report hps hcode arg)
  have hrun (r : ParseState) : (Parser.report code r.token.span arg).run r =
      ((), r.reported code r.token.span arg) := rfl
  rw [run_bind (hrun s), run_bind (hrun t)]
  exact ⟨qs, hw, hrel, (hbefore.trans hafter).mono (Nat.le_of_eq (Nat.zero_add d).symm)⟩

/-- Both runs report the problem. -/
theorem Abreast.reportHere {f g : Unit → Parser β} (hcode : code ∈ Code.ofGrammar)
    (h : ∀ s' t', s'.findings.size ≠ 0 → s.Before 0 s' → s'.cursor = s.cursor →
      s'.lastStop = s.lastStop → s'.token = s.token →
      L.Abreast d s' t' used (f ()) (g ()) W) :
    L.Abreast d s t used (Parser.reportHere code arg >>= f) (Parser.reportHere code arg >>= g) W :=
  Abreast.report hcode h

/-- Going on behind a token that has to be there: if it is not, there is a problem. -/
theorem Abreast.expect {f g : Bool → Parser β} (hplain : k.isPlain = true)
    (h : ∀ b s' t', s.Before 0 s' → (b = false → s'.findings.size ≠ 0) →
      L.Abreast 0 s' t' used (f b) (g b) W) :
    L.Abreast 0 s t used (Parser.expect k >>= f) (Parser.expect k >>= g) W := by
  rw [Parser.expect, bind_assoc, bind_assoc]
  refine .eat hplain (fun s' t' _ hbefore _ => ?_) fun _ => ?_
  · rw [if_pos rfl, pure_bind, pure_bind]
    exact h true s' t' (hbefore.mono (Nat.zero_le 1)) nofun
  · rw [if_neg Bool.false_ne_true, bind_assoc, bind_assoc]
    refine .reportHere (by decide) fun s' t' hsize hbefore _ _ _ => ?_
    rw [pure_bind, pure_bind]
    exact h false s' t' hbefore fun _ => hsize

/-! ## Making nodes -/

/-- Both runs make the node of the nodes that wait. -/
theorem abreast_finish (data : NodeData) {a : Nat} (hdata : data.isInner = true) (ha : L.Start a)
    (hused : used = data.children) :
    L.Abreast 0 s t used (Parser.finish data a) (Parser.finish (data.rename L.node) (a + L.shift))
      L.Node := by
  intro ps hps
  obtain ⟨heq, hrel⟩ := L.finish (hused ▸ hps) ha (.inl hdata)
  exact ⟨_, ⟨heq, rfl⟩, hrel, before_finish data a s⟩

theorem abreast_malformed {a : Nat} (ha : L.Start a) (hsize : s.findings.size ≠ 0) :
    L.Abreast 0 s t [] (Parser.finish .malformed a) (Parser.finish .malformed (a + L.shift))
      L.Node := by
  intro ps hps
  obtain ⟨heq, hrel⟩ := L.finish hps ha (.inr ⟨rfl, hsize⟩)
  exact ⟨_, ⟨heq, rfl⟩, hrel, before_finish .malformed a s⟩

/-- Both runs read a name. -/
theorem abreast_name (h : s.token.kind = .name ∨ s.lastStop ≠ 0) :
    L.Abreast 0 s t [] Parser.name Parser.name L.Node := by
  intro ps hps
  rw [List.append_nil] at hps
  obtain ⟨heq, hrel⟩ := L.name hps h
  exact ⟨_, ⟨heq, rfl⟩, hrel, before_name (L.tokens_eq hps ▸ L.stopping)⟩

theorem abreast_constant (hline : s.token.kind.endsLine = false) (hname : s.token.kind ≠ .name)
    (kind : ConstantKind) :
    L.Abreast 0 s t [] (Parser.constant kind) (Parser.constant kind) L.Node := by
  intro ps hps
  rw [List.append_nil] at hps
  obtain ⟨heq, hrel⟩ := L.constant hps hline hname kind
  exact ⟨_, ⟨heq, rfl⟩, hrel, before_constant (L.tokens_eq hps ▸ L.stopping) hline kind⟩

theorem abreast_strings (h : s.token.kind = .string ∨ s.token.kind = .bytes) :
    L.Abreast 0 s t [] Parser.strings Parser.strings L.Node := by
  intro ps hps
  rw [List.append_nil] at hps
  obtain ⟨heq, hrel⟩ := L.strings hps h
  have htokens := L.tokens_eq hps
  exact ⟨_, ⟨heq, rfl⟩, hrel, before_strings (htokens ▸ L.stopping) (htokens ▸ L.ended)
    (htokens ▸ L.cursor_lt hps)⟩

/-- Going on behind a name that is there. -/
theorem Abreast.takeName {f g : NodeId → Parser β} (hk : s.token.kind = .name)
    (h : ∀ i s' t', s.Before 1 s' → s'.lastStop ≠ 0 → s.Next s' →
      L.Abreast d s' t' (used ++ [i]) (f i) (g (L.node i)) W) :
    L.Abreast d s t used (Parser.name >>= f) (Parser.name >>= g) W := by
  intro ps hps
  have hline : s.token.kind.endsLine = false := by rw [hk]; rfl
  have hstop := ParseState.stop_ne (L.tokens_eq hps ▸ L.stopping) hline
  obtain ⟨heq, hrel⟩ := L.name hps (.inl hk)
  rw [run_name hk] at heq hrel
  have hbefore : s.Before 1 { s.taken with arena := (named s.arena s.token).2 } :=
    ⟨Nat.le_refl _, Nat.le_refl _, fun _ => hstop⟩
  obtain ⟨qs, hw, hrel', hafter⟩ := h _ _ _ hbefore hstop (.of_eq rfl rfl) ps
    (by rwa [List.append_assoc] at hrel)
  rw [run_bind (run_name hk), run_bind (x := Parser.name) (Prod.ext heq rfl)]
  exact ⟨qs, hw, hrel', (hbefore.trans hafter).mono (Nat.le_add_left d 1)⟩

/-- Nodes may be left behind once there is a problem. -/
theorem Abreast.forget (hsize : s.findings.size ≠ 0) (h : L.Abreast d s t [] x y V) :
    L.Abreast d s t used x y V := by
  intro ps hps
  refine h ps ?_
  rw [List.append_nil]
  exact L.forget hps hsize

/-! ## Nested expressions -/

/-- Two parsers stay abreast from the `c`-th token on and read a node. -/
def From (L : Lockstep) (c : Nat) (x y : Parser NodeId) : Prop :=
  ∀ s t, c ≤ s.cursor → L.Abreast 0 s t [] x y L.Node

/-- Two parsers for nested expressions stay abreast from the `c`-th token on. -/
structure Nests (L : Lockstep) (c : Nat) (n n' : Nested) : Prop where
  expression : L.From c n.expression n'.expression
  bitOr : L.From c n.bitOr n'.bitOr

variable {c c' : Nat} {n n' : Nested}

private theorem From.mono {x y : Parser NodeId} (h : L.From c x y) (hc : c ≤ c') : L.From c' x y :=
  fun s t hs => h s t (Nat.le_trans hc hs)

theorem From.here {x y : Parser NodeId} (h : L.From s.cursor x y) : L.Abreast 0 s t [] x y L.Node :=
  h s t (Nat.le_refl _)

theorem Nests.mono (h : L.Nests c n n') (hc : c ≤ c') : L.Nests c' n n' :=
  ⟨h.expression.mono hc, h.bitOr.mono hc⟩

end Lockstep
end LiveCheck
