import LiveCheck.Proofs.Parsing.Lines

/-!
# Blocks in lockstep

Where the two runs may also pass from line to line, compound statements and whole modules keep them
abreast.
-/

namespace LiveCheck

namespace Lockstep

/-- The tokens between lines may be passed. -/
def CrossesLines (L : Lockstep) : Prop :=
  ∀ {s t : ParseState} {ps : List NodeId}, L.Rel s t ps → s.token.kind.isLayout = true →
    L.Rel s.passed t.passed ps

private def Blocks (L : Lockstep) (c : Nat) (x y : Parser (List NodeId)) : Prop :=
  ∀ s t, c ≤ s.cursor → L.Abreast 0 s t [] x y L.Nodes

variable {L : Lockstep} {β : Type} {W : β → β → List NodeId → Prop} {s t : ParseState}
  {used : List NodeId}

private theorem Abreast.passLayout (hL : L.CrossesLines) {f g : Token → Parser β}
    (hk : s.token.kind.isLayout = true)
    (h : ∀ s' t', s.Before 1 s' → L.Abreast 0 s' t' used (f s.token) (g t.token) W) :
    L.Abreast 1 s t used (Parser.bump >>= f) (Parser.bump >>= g) W := by
  intro ps hps
  have hk' : t.token.kind.isLayout = true := by rwa [L.kind hps]
  have hbefore : s.Before 1 s.passed := ⟨Nat.le_refl _, Nat.le_refl _, id⟩
  obtain ⟨qs, hw, hrel, hafter⟩ := h s.passed t.passed hbefore ps (hL hps hk)
  rw [Parser.run_bind (Parser.run_bump_of_isLayout hk),
    Parser.run_bind (Parser.run_bump_of_isLayout hk')]
  exact ⟨qs, hw, hrel, hbefore.trans hafter⟩

private theorem Abreast.eatLayout (hL : L.CrossesLines) {k : TokenKind} {f g : Bool → Parser β}
    (hlayout : k.isLayout = true)
    (hyes : ∀ s' t', s.Before 1 s' → L.Abreast 0 s' t' used (f true) (g true) W)
    (hno : s.token.kind ≠ k → L.Abreast 0 s t used (f false) (g false) W) :
    L.Abreast 0 s t used (Parser.eat k >>= f) (Parser.eat k >>= g) W := by
  by_cases hk : s.token.kind = k
  · have hpass : L.Abreast 1 s t used (Parser.bump >>= fun _ => f true)
        (Parser.bump >>= fun _ => g true) W := .passLayout hL (hk ▸ hlayout) hyes
    intro ps hps
    have hk' : t.token.kind = k := (L.kind hps).trans hk
    have hrun := (hpass.mono (Nat.zero_le 1)) ps hps
    rw [Parser.run_bind (Parser.run_bump_of_isLayout (hk ▸ hlayout)),
      Parser.run_bind (Parser.run_bump_of_isLayout (hk' ▸ hlayout))] at hrun
    rwa [Parser.run_bind (Parser.run_eat_isLayout hk hlayout),
      Parser.run_bind (Parser.run_eat_isLayout hk' hlayout)]
  · refine .of_rel fun ps hps =>
      .look (Parser.run_eat_of_not k hk) (Parser.run_eat_of_not k ?_) (hno hk)
    rwa [L.kind hps]

end Lockstep

namespace Parser

open Lockstep (Blocks)

variable {L : Lockstep} {c m m' a : Nat} {x y : Parser (List NodeId)} {s t : ParseState}

private theorem abreast_simpleLine (hL : L.CrossesLines) (hline : s.token.kind.endsLine = false) :
    L.Abreast 1 s t [] simpleLine simpleLine L.Nodes := by
  rw [simpleLine_eq]
  refine .bindNodesFrom (d := 0) (Nat.le_refl 1) (abreast_lineStatements hline)
    fun body s₁ t₁ _ _ => ?_
  exact .eatLayout hL rfl (fun _ _ _ => .pure ⟨rfl, rfl⟩) fun _ => .pure ⟨rfl, rfl⟩

private theorem abreast_block (hL : L.CrossesLines) (h : L.Blocks c x y) (hc : c ≤ s.cursor) :
    L.Abreast 0 s t [] (block x) (block y) L.Nodes := by
  have hnone (s t : ParseState) : L.Abreast 0 s t []
      (reportHere Code.expectedIndentedBlock none >>= fun _ => pure [])
      (reportHere Code.expectedIndentedBlock none >>= fun _ => pure []) L.Nodes :=
    .reportHere (by decide) fun _ _ _ _ _ _ _ => .pure ⟨rfl, rfl⟩
  refine .eatLayout hL rfl (fun s₁ t₁ hb₁ => ?_) fun _ => ?_
  · refine .eatLayout hL rfl (fun s₂ t₂ ⟨hc₂, _, _⟩ => ?_) fun _ => hnone s₁ t₁
    have hc₁ := hb₁.cursor
    refine .bindNodes (h s₂ t₂ (by omega)) fun body s₃ t₃ _ => ?_
    exact .eatLayout hL rfl (fun _ _ _ => .pure ⟨rfl, rfl⟩) fun _ => .pure ⟨rfl, rfl⟩
  · refine .peek Lockstep.peeks_atLineEnd (fun _ => hnone s t) fun hline => ?_
    exact (abreast_simpleLine hL hline).mono (Nat.zero_le 1)

private theorem abreast_colonBlock (hL : L.CrossesLines) (h : L.Blocks c x y) (hc : c ≤ s.cursor) :
    L.Abreast 0 s t [] (colonBlock x) (colonBlock y) L.Nodes := by
  refine .expect rfl fun b s₁ t₁ ⟨hc₁, _, _⟩ hsize => ?_
  cases b with
  | true => exact abreast_block hL h (by omega)
  | false =>
    refine .bindSame (abreast_skipLine (hsize rfl)) fun _ s₂ t₂ ⟨hc₂, _, _⟩ => ?_
    exact abreast_block hL h (by omega)

private theorem abreast_elseBlock (hL : L.CrossesLines) (h : L.Blocks c x y) (hc : c ≤ s.cursor) :
    L.Abreast 0 s t [] (elseBlock x) (elseBlock y) L.Nodes := by
  refine .eat rfl (fun s₁ t₁ _ ⟨hc₁, _, _⟩ _ => ?_) fun _ => .pure ⟨rfl, rfl⟩
  exact abreast_colonBlock hL h (by omega)

/-! ## Compound statements -/

private theorem abreast_singleton {x y : Parser NodeId} {d : Nat}
    (h : L.Abreast d s t [] x y L.Node) :
    L.Abreast d s t [] (List.singleton <$> x) (List.singleton <$> y) L.Nodes :=
  .map h fun _ _ _ ⟨hj, hqs⟩ => ⟨congrArg List.singleton hj, hqs⟩

private theorem abreast_ifStatementUpTo (hL : L.CrossesLines) (h : L.Blocks (c + 1) x y)
    (hplain : s.token.kind.isPlain = true) (hc : c ≤ s.cursor) (hm : L.tokens.size ≤ m + s.cursor)
    (hm' : L.tokens.size ≤ m' + s.cursor) :
    L.Abreast 1 s t [] (ifStatementUpTo x m) (ifStatementUpTo y m') L.Node := by
  induction m generalizing s t m' with
  | zero => exact abreast_of_fuel 0 hm nofun
  | succ m ih =>
    refine abreast_of_fuel m' hm' fun k hk => ?_
    subst hk
    refine .start fun a ha => .advance rfl hplain fun s₁ t₁ ⟨hc₁, _, _⟩ _ _ => ?_
    refine .bindNode abreast_expression fun test s₂ t₂ ⟨hc₂, _, _⟩ => ?_
    refine .bindNodes (abreast_colonBlock hL h (by omega)) fun body s₃ t₃ ⟨hc₃, _, _⟩ => ?_
    refine .isAt (fun hk => ?_) fun _ => ?_
    · refine .bindNodes (abreast_singleton ((ih ?_ ?_ ?_ ?_).mono (Nat.zero_le 1)))
        fun orelse _ _ _ => Lockstep.abreast_finish (.ifStmt test body orelse) rfl ha rfl
      · rw [hk]; rfl
      all_goals omega
    · refine .bindNodes (abreast_elseBlock hL h (by omega)) fun orelse _ _ _ => ?_
      exact Lockstep.abreast_finish (.ifStmt test body orelse) rfl ha rfl

private theorem abreast_whileStatement (hL : L.CrossesLines) (h : L.Blocks (c + 1) x y)
    (hplain : s.token.kind.isPlain = true) (hc : c ≤ s.cursor) :
    L.Abreast 1 s t [] (whileStatement x) (whileStatement y) L.Node := by
  refine .start fun a ha => .advance rfl hplain fun s₁ t₁ ⟨hc₁, _, _⟩ _ _ => ?_
  refine .bindNode abreast_expression fun test s₂ t₂ ⟨hc₂, _, _⟩ => ?_
  refine .bindNodes (abreast_colonBlock hL h (by omega)) fun body s₃ t₃ ⟨hc₃, _, _⟩ => ?_
  refine .bindNodes (abreast_elseBlock hL h (by omega)) fun orelse _ _ _ => ?_
  exact Lockstep.abreast_finish (.whileLoop test body orelse) rfl ha rfl

private theorem abreast_forStatement (hL : L.CrossesLines) (h : L.Blocks (c + 1) x y)
    (hplain : s.token.kind.isPlain = true) (hc : c ≤ s.cursor) :
    L.Abreast 1 s t [] (forStatement x) (forStatement y) L.Node := by
  refine .start fun a ha => .advance rfl hplain fun s₁ t₁ ⟨hc₁, _, _⟩ _ _ => ?_
  refine .bindNode (abreast_inStatement fun _ _ h => (from_targetList h).here)
    fun target s₂ t₂ ⟨hc₂, _, _⟩ => ?_
  refine abreast_checkTarget List.mem_cons_self fun s₃ t₃ ⟨hc₃, _, _⟩ => ?_
  refine .expect rfl fun _ s₄ t₄ ⟨hc₄, _, _⟩ _ => ?_
  refine .bindNode abreast_starExpressions fun iter s₅ t₅ ⟨hc₅, _, _⟩ => ?_
  refine .bindNodes (abreast_colonBlock hL h (by omega)) fun body s₆ t₆ ⟨hc₆, _, _⟩ => ?_
  refine .bindNodes (abreast_elseBlock hL h (by omega)) fun orelse _ _ _ => ?_
  exact Lockstep.abreast_finish (.forLoop target iter body orelse) rfl ha rfl

private theorem abreast_handlersUpTo (hL : L.CrossesLines) (h : L.Blocks c x y) (hc : c ≤ s.cursor)
    (hm : L.tokens.size ≤ m + s.cursor) (hm' : L.tokens.size ≤ m' + s.cursor) :
    L.Abreast 0 s t [] (handlersUpTo x m) (handlersUpTo y m') L.Nodes := by
  induction m generalizing s t m' with
  | zero => exact abreast_of_fuel 0 hm nofun
  | succ m ih =>
    refine abreast_of_fuel m' hm' fun k hk => ?_
    subst hk
    refine .start fun a ha => .eat rfl (fun s₁ t₁ _ ⟨hc₁, _, _⟩ _ => ?_) fun _ => .pure ⟨rfl, rfl⟩
    refine .bindMaybe (abreast_optional (Lockstep.peeks_not_isAt _) fun _ => abreast_expression)
      fun type s₂ t₂ ⟨hc₂, _, _⟩ => ?_
    refine .bindMaybe (abreast_optional_eat rfl fun _ _ _ hstop =>
      Lockstep.abreast_name (.inr hstop)) fun caught s₃ t₃ ⟨hc₃, _, _⟩ => ?_
    refine .bindNodes (abreast_colonBlock hL h (by omega)) fun body s₄ t₄ ⟨hc₄, _, _⟩ => ?_
    refine .thenNode (Lockstep.abreast_finish (.handler type caught body) rfl ha rfl)
      fun first s₅ t₅ ⟨hc₅, _, _⟩ => ?_
    exact .bindNodes (ih (by omega) (by omega) (by omega)) fun others _ _ _ => .pure ⟨rfl, rfl⟩

private theorem abreast_tryStatement (hL : L.CrossesLines) (h : L.Blocks (c + 1) x y)
    (hplain : s.token.kind.isPlain = true) (hc : c ≤ s.cursor) :
    L.Abreast 1 s t [] (tryStatement x) (tryStatement y) L.Node := by
  refine .start fun a ha => .advance rfl hplain fun s₁ t₁ ⟨hc₁, _, _⟩ _ _ => ?_
  refine .bindNodes (abreast_colonBlock hL h (by omega)) fun body s₂ t₂ ⟨hc₂, _, _⟩ => ?_
  refine .remaining fun m m' hm hm' => ?_
  refine .bindNodes (abreast_handlersUpTo hL h (by omega) hm hm')
    fun handlers s₃ t₃ ⟨hc₃, _, _⟩ => ?_
  refine .bindNodes (abreast_elseBlock hL h (by omega)) fun orelse s₄ t₄ ⟨hc₄, _, _⟩ => ?_
  -- What follows the final block.
  have hrest (finalbody : List NodeId) (s t : ParseState) :
      L.Abreast 0 s t (body ++ handlers ++ orelse ++ finalbody)
      (do
        if handlers.isEmpty && finalbody.isEmpty then
          reportHere Code.expectedToken (some Keyword.exceptKw.text)
        finish (.tryStmt body handlers orelse finalbody) a)
      (do
        if (handlers.map L.node).isEmpty && (finalbody.map L.node).isEmpty then
          reportHere Code.expectedToken (some Keyword.exceptKw.text)
        finish (.tryStmt (body.map L.node) (handlers.map L.node) (orelse.map L.node)
          (finalbody.map L.node)) (a + L.shift)) L.Node := by
    rw [List.isEmpty_map, List.isEmpty_map]
    split
    · refine .reportHere (by decide) fun _ _ _ _ _ _ _ => ?_
      exact Lockstep.abreast_finish (.tryStmt body handlers orelse finalbody) rfl ha rfl
    · exact Lockstep.abreast_finish (.tryStmt body handlers orelse finalbody) rfl ha rfl
  refine .eat rfl (fun s₅ t₅ _ hb₅ _ => ?_) fun _ => ?_
  · have hc₅ := hb₅.cursor
    exact .bindNodes (abreast_colonBlock hL h (by omega)) fun finalbody s t _ => hrest finalbody s t
  · exact .bindNodes (.pure ⟨rfl, rfl⟩) fun finalbody s t _ => hrest finalbody s t

private theorem abreast_withItem : L.Abreast 0 s t [] withItem withItem L.Node := by
  refine .start fun a ha => .bindNode abreast_expression fun context s₁ t₁ _ => ?_
  refine .bindMaybe (abreast_optional_eat rfl fun s' t' hb _ =>
    abreast_inStatement fun n n' h => (from_bitOr (h.mono (Nat.le_succ _))).here) fun target s₂ t₂ _ => ?_
  cases target with
  | none => exact Lockstep.abreast_finish (.withItem context none) rfl ha rfl
  | some target =>
    refine abreast_checkTarget (List.mem_cons_of_mem _ List.mem_cons_self) fun _ _ _ => ?_
    exact Lockstep.abreast_finish (.withItem context (some target)) rfl ha rfl

variable (hL : L.CrossesLines)
include hL

private theorem abreast_withStatement (h : L.Blocks (c + 1) x y)
    (hplain : s.token.kind.isPlain = true)
    (hc : c ≤ s.cursor) :
    L.Abreast 1 s t [] (withStatement x) (withStatement y) L.Node := by
  refine .start fun a ha => .advance rfl hplain fun s₁ t₁ ⟨hc₁, _, _⟩ _ _ => ?_
  refine .bindNode abreast_withItem fun first s₂ t₂ ⟨hc₂, _, _⟩ => ?_
  refine .bindNodes (abreast_afterEach (c := 0) rfl (fun _ _ _ _ => abreast_withItem)
    (Nat.zero_le _)) fun others s₃ t₃ ⟨hc₃, _, _⟩ => ?_
  refine .bindNodes (abreast_colonBlock hL h (by omega)) fun body _ _ _ => ?_
  exact Lockstep.abreast_finish (.withStmt (first :: others) body) rfl ha rfl

private theorem abreast_functionStatement (h : L.Blocks (c + 1) x y) (decorators : List NodeId)
    (ha : L.Start a) (hplain : s.token.kind.isPlain = true) (hc : c ≤ s.cursor) :
    L.Abreast 1 s t decorators (functionStatement x decorators a)
      (functionStatement y (decorators.map L.node) (a + L.shift)) L.Node := by
  refine .advance rfl hplain fun s₁ t₁ ⟨hc₁, _, _⟩ hstop _ => ?_
  refine .bindNode (Lockstep.abreast_name (.inr hstop)) fun defined s₂ t₂ ⟨hc₂, _, _⟩ => ?_
  -- What follows the parameters.
  have hrest (params : List NodeId) (s t : ParseState) (hc : c < s.cursor) :
      L.Abreast 0 s t (decorators ++ [defined] ++ params)
      (do
        let returns ← optional (eat Symbol.arrow) expression
        let body ← colonBlock x
        finish (.functionDef decorators defined params returns body) a)
      (do
        let returns ← optional (eat Symbol.arrow) expression
        let body ← colonBlock y
        finish (.functionDef (decorators.map L.node) (L.node defined) (params.map L.node) returns
          body) (a + L.shift)) L.Node := by
    refine .bindMaybe (abreast_optional_eat rfl fun _ _ _ _ => abreast_expression)
      fun returns s₃ t₃ ⟨hc₃, _, _⟩ => ?_
    refine .bindNodes (abreast_colonBlock hL h (by omega)) fun body _ _ _ => ?_
    exact Lockstep.abreast_finish (.functionDef decorators defined params returns body) rfl ha
      (by simp [NodeData.children])
  refine .expect rfl fun opened s₃ t₃ ⟨hc₃, _, _⟩ _ => ?_
  cases opened with
  | true =>
    refine .bindNodes (abreast_inStatement fun _ _ hn =>
      abreast_parameters hn _ _ (Nat.le_refl _)) fun params s₄ t₄ ⟨hc₄, _, _⟩ => ?_
    refine .expect rfl fun _ s₅ t₅ ⟨hc₅, _, _⟩ _ => ?_
    exact hrest params s₅ t₅ (by omega)
  | false =>
    refine .bindNodes (.pure ⟨rfl, rfl⟩) fun params s₄ t₄ ⟨hc₄, _, _⟩ => ?_
    exact hrest params s₄ t₄ (by omega)

private theorem abreast_classStatement (h : L.Blocks (c + 1) x y) (decorators : List NodeId)
    (ha : L.Start a) (hplain : s.token.kind.isPlain = true) (hc : c ≤ s.cursor) :
    L.Abreast 1 s t decorators (classStatement x decorators a)
      (classStatement y (decorators.map L.node) (a + L.shift)) L.Node := by
  refine .advance rfl hplain fun s₁ t₁ ⟨hc₁, _, _⟩ hstop _ => ?_
  refine .bindNode (Lockstep.abreast_name (.inr hstop)) fun defined s₂ t₂ ⟨hc₂, _, _⟩ => ?_
  -- What follows the bases.
  have hrest (bases : List NodeId) (s t : ParseState) (hc : c < s.cursor) :
      L.Abreast 0 s t (decorators ++ [defined] ++ bases)
      (do
        let body ← colonBlock x
        finish (.classDef decorators defined bases body) a)
      (do
        let body ← colonBlock y
        finish (.classDef (decorators.map L.node) (L.node defined) (bases.map L.node) body)
          (a + L.shift)) L.Node := by
    refine .bindNodes (abreast_colonBlock hL h hc) fun body _ _ _ => ?_
    exact Lockstep.abreast_finish (.classDef decorators defined bases body) rfl ha
      (by simp [NodeData.children])
  refine .eat rfl (fun s₃ t₃ _ hb₃ _ => ?_) fun _ => ?_
  · have hc₃ := hb₃.cursor
    refine .bindNodes (abreast_inStatement fun _ _ hn =>
      abreast_arguments hn (Nat.le_refl _)) fun bases s₄ t₄ ⟨hc₄, _, _⟩ => ?_
    refine .expect rfl fun _ s₅ t₅ ⟨hc₅, _, _⟩ _ => ?_
    exact hrest bases s₅ t₅ (by omega)
  · refine .bindNodes (.pure ⟨rfl, rfl⟩) fun bases s₃ t₃ ⟨hc₃, _, _⟩ => ?_
    exact hrest bases s₃ t₃ (by omega)

private theorem abreast_decorator :
    L.Abreast 0 s t [] decorator decorator L.Node := by
  refine .bindNode abreast_expression fun value s₁ t₁ _ => ?_
  refine .eatLayout hL rfl (fun _ _ _ => .pure ⟨rfl, rfl⟩) fun _ => ?_
  refine .reportHere (by decide) fun s₂ t₂ hsize _ _ _ _ => ?_
  refine .bindSame (abreast_skipLine hsize) fun _ s₃ t₃ _ => ?_
  exact .eatLayout hL rfl (fun _ _ _ => .pure ⟨rfl, rfl⟩) fun _ => .pure ⟨rfl, rfl⟩

private theorem abreast_decoratedStatement (h : L.Blocks (c + 1) x y)
    (hk : s.token.kind = .symbol .atSign)
    (hc : c ≤ s.cursor) :
    L.Abreast 1 s t [] (decoratedStatement x) (decoratedStatement y) L.Node := by
  refine .start fun a ha => .bindNodesFrom (d := 0) (Nat.le_refl 1)
    (abreast_afterEach_there (c := 0) rfl hk (fun _ _ _ _ => abreast_decorator hL) (Nat.zero_le _))
    fun decorators s₁ t₁ ⟨hc₁, _, _⟩ _ => ?_
  refine .kind ?_
  split
  case h_1 hk₁ =>
    exact (abreast_functionStatement hL h decorators ha (by rw [hk₁]; rfl) (by omega)).mono
      (Nat.zero_le 1)
  case h_2 hk₁ =>
    exact (abreast_classStatement hL h decorators ha (by rw [hk₁]; rfl) (by omega)).mono
      (Nat.zero_le 1)
  case h_3 =>
    -- The decorators have nothing to decorate and are left behind.
    refine .reportHere (by decide) fun s₂ t₂ hsize _ _ _ _ => ?_
    exact .forget hsize (Lockstep.abreast_malformed ha hsize)

/-! ## Statements -/

private theorem abreast_statement (h : L.Blocks (c + 1) x y) (hline : s.token.kind.endsLine = false)
    (hc : c ≤ s.cursor) :
    L.Abreast 1 s t [] (statement x) (statement y) L.Nodes := by
  refine .kind ?_
  split
  case h_1 hk =>
    exact .remaining fun m m' hm hm' =>
      abreast_singleton (abreast_ifStatementUpTo hL h (by rw [hk]; rfl) hc hm hm')
  case h_2 hk => exact abreast_singleton (abreast_whileStatement hL h (by rw [hk]; rfl) hc)
  case h_3 hk => exact abreast_singleton (abreast_forStatement hL h (by rw [hk]; rfl) hc)
  case h_4 hk => exact abreast_singleton (abreast_tryStatement hL h (by rw [hk]; rfl) hc)
  case h_5 hk => exact abreast_singleton (abreast_withStatement hL h (by rw [hk]; rfl) hc)
  case h_6 hk =>
    exact .start fun a ha =>
      abreast_singleton (abreast_functionStatement hL h [] ha (by rw [hk]; rfl) hc)
  case h_7 hk =>
    exact .start fun a ha =>
      abreast_singleton (abreast_classStatement hL h [] ha (by rw [hk]; rfl) hc)
  case h_8 hk => exact abreast_singleton (abreast_decoratedStatement hL h hk hc)
  case h_9 => exact abreast_simpleLine hL hline

private theorem abreast_unexpectedBlock (h : L.Blocks (c + 1) x y) (hk : s.token.kind = .indent)
    (hc : c ≤ s.cursor) :
    L.Abreast 1 s t [] (unexpectedBlock x) (unexpectedBlock y) L.Nodes := by
  refine .reportHere (by decide) fun s₁ t₁ _ ⟨hc₁, _, _⟩ _ _ htoken => ?_
  refine .passLayout hL (by rw [htoken, hk]; rfl) fun s₂ t₂ ⟨hc₂, _, _⟩ => ?_
  refine .bindNodes (h s₂ t₂ (by omega)) fun body s₃ t₃ _ => ?_
  exact .eatLayout hL rfl (fun _ _ _ => .pure ⟨rfl, rfl⟩) fun _ => .pure ⟨rfl, rfl⟩

private theorem blocks_statementsUpTo (hm : L.tokens.size ≤ m + c) (hm' : L.tokens.size ≤ m' + c) :
    L.Blocks c (statementsUpTo m) (statementsUpTo m') := by
  induction m generalizing m' c with
  | zero => exact fun s t hc => abreast_of_fuel 0 (by omega) nofun
  | succ m ih =>
    intro s t hc
    refine abreast_of_fuel m' (by omega) fun k hk => ?_
    subst hk
    have hblocks : L.Blocks (c + 1) (statementsUpTo m) (statementsUpTo k) := ih (by omega) (by omega)
    refine .kind ?_
    split
    case h_1 | h_2 => exact .pure ⟨rfl, rfl⟩
    case h_3 hk =>
      refine Lockstep.Abreast.mono (.passLayout hL (by rw [hk]; rfl) fun s₁ t₁ hb₁ => ?_)
        (Nat.zero_le 1)
      have hc₁ := hb₁.cursor
      exact hblocks s₁ t₁ (by omega)
    case h_4 hk =>
      refine .bindNodes (abreast_unexpectedBlock hL hblocks hk hc) fun first s₁ t₁ ⟨hc₁, _, _⟩ => ?_
      exact .bindNodes (hblocks s₁ t₁ (by omega)) fun others _ _ _ =>
        .pure ⟨List.map_append.symm, rfl⟩
    case h_5 hend hdedent hnewline hindent =>
      have hline := TokenKind.endsLine_eq_false hend hnewline hindent hdedent
      refine .bindNodes (abreast_statement hL hblocks hline hc) fun first s₁ t₁ ⟨hc₁, _, _⟩ => ?_
      exact .bindNodes (hblocks s₁ t₁ (by omega)) fun others _ _ _ =>
        .pure ⟨List.map_append.symm, rfl⟩

/-- The statements of a module. -/
theorem abreast_moduleUpTo (hm : L.tokens.size ≤ m + s.cursor) (hm' : L.tokens.size ≤ m' + s.cursor) :
    L.Abreast 0 s t [] (moduleUpTo m) (moduleUpTo m') L.Nodes := by
  induction m generalizing s t m' with
  | zero => exact abreast_of_fuel 0 hm nofun
  | succ m ih =>
    refine abreast_of_fuel m' hm' fun k hk => ?_
    subst hk
    refine .kind ?_
    split
    case h_1 => exact .pure ⟨rfl, rfl⟩
    case h_2 hk | h_3 hk =>
      refine Lockstep.Abreast.mono (.passLayout hL (by rw [hk]; rfl) fun s₁ t₁ hb₁ => ?_)
        (Nat.zero_le 1)
      have hc₁ := hb₁.cursor
      exact ih (by omega) (by omega)
    case h_4 hk =>
      refine .remaining fun l l' hl hl' => ?_
      refine .bindNodes (abreast_unexpectedBlock hL
        (blocks_statementsUpTo hL (c := s.cursor + 1) (by omega) (by omega)) hk (Nat.le_refl _))
        fun first s₁ t₁ ⟨hc₁, _, _⟩ => ?_
      exact .bindNodes (ih (by omega) (by omega)) fun others _ _ _ =>
        .pure ⟨List.map_append.symm, rfl⟩
    case h_5 hend hnewline hdedent hindent =>
      have hline := TokenKind.endsLine_eq_false hend hnewline hindent hdedent
      refine .remaining fun l l' hl hl' => ?_
      refine .bindNodes (abreast_statement hL
        (blocks_statementsUpTo hL (c := s.cursor + 1) (by omega) (by omega)) hline (Nat.le_refl _))
        fun first s₁ t₁ ⟨hc₁, _, _⟩ => ?_
      exact .bindNodes (ih (by omega) (by omega)) fun others _ _ _ =>
        .pure ⟨List.map_append.symm, rfl⟩

/-- The statements of a module are read up to the end of the text. -/
theorem kind_moduleUpTo {ps : List NodeId} (h : L.Rel s t ps) (hm : L.tokens.size ≤ m + s.cursor) :
    ((moduleUpTo m).run s).2.token.kind = .endOfFile := by
  induction m generalizing s t ps with
  | zero =>
    have hlt := L.cursor_lt h
    omega
  | succ m ih =>
    have hkind : kind.run s = (s.token.kind, s) := rfl
    have hremaining : remaining.run s = (s.remaining, s) := rfl
    have hremains : L.tokens.size ≤ s.remaining + (s.cursor + 1) := by
      rw [ParseState.remaining, L.tokens_eq h]
      omega
    have hblocks := blocks_statementsUpTo hL hremains hremains
    rw [← List.append_nil ps] at h
    rw [moduleUpTo, run_bind hkind]
    split
    case h_1 hend => exact hend
    case h_2 hk | h_3 hk =>
      have hlayout : s.token.kind.isLayout = true := by rw [hk]; rfl
      rw [run_bind (run_bump_of_isLayout hlayout)]
      refine ih (hL h hlayout) ?_
      show L.tokens.size ≤ m + (s.cursor + 1)
      omega
    case h_4 hk =>
      obtain ⟨_, -, hrel, hbefore⟩ := abreast_unexpectedBlock hL hblocks hk (Nat.le_refl _) ps h
      generalize hrun : (unexpectedBlock (statementsUpTo s.remaining)).run s = result at hrel hbefore
      have hcursor := hbefore.cursor
      rw [run_bind hremaining, run_bind hrun, run_bind (x := moduleUpTo m) rfl]
      exact ih hrel (by omega)
    case h_5 hend hnewline hdedent hindent =>
      have hline := TokenKind.endsLine_eq_false hend hnewline hindent hdedent
      obtain ⟨_, -, hrel, hbefore⟩ := abreast_statement hL hblocks hline (Nat.le_refl _) ps h
      generalize hrun : (statement (statementsUpTo s.remaining)).run s = result at hrel hbefore
      have hcursor := hbefore.cursor
      rw [run_bind hremaining, run_bind hrun, run_bind (x := moduleUpTo m) rfl]
      exact ih hrel (by omega)

end Parser
end LiveCheck
