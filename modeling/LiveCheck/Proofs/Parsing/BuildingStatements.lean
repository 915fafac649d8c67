import LiveCheck.Proofs.Parsing.BuildingExpressions

/-!
# How statements are built

Statements read nodes for their places as expressions do. Behind a statement that ends its line
nothing follows that touches it, so what a block reads does not touch either.
-/

namespace LiveCheck.Source

open LiveCheck.Parser

variable {T : Source} {α β : Type} {s : ParseState} {g : Gap} {m : Option Nat} {a : Nat}
  {used : List (ChildSlot × NodeId)} {slot : ChildSlot} {r : β → Stage} {p : Stage}

/-! ## Simple statements -/

private theorem reads_starExpressionsHere : T.Reads .expression (inStatement starExpressions) :=
  reads_inStatement fun _ => reads_starExpressions

private theorem builds_keywordStatement (data : NodeData) (hsuits : data.suits .statement = true)
    (hslots : data.slots = []) (hline : s.token.kind.endsLine = false) :
    T.Builds s ⟨.ready, none, []⟩ (keywordStatement data) fun i =>
      ⟨.closed, some s.token.span.start, [(.statement, i)]⟩ :=
  .start (.open hline fun _ => builds_finish .statement data hsuits hslots)

private theorem builds_returnStatement (hline : s.token.kind.endsLine = false) :
    T.Builds s ⟨.ready, none, []⟩ returnStatement fun i =>
      ⟨.closed, some s.token.span.start, [(.statement, i)]⟩ := by
  refine .start (.open hline fun s₁ => ?_)
  refine .bind (readsMaybe_optional Lockstep.peeks_atExpression reads_starExpressionsHere _ _ _)
    fun value s₂ => ?_
  exact builds_finish .statement (.returnStmt value) rfl rfl

private theorem builds_raiseStatement (hline : s.token.kind.endsLine = false) :
    T.Builds s ⟨.ready, none, []⟩ raiseStatement fun i =>
      ⟨.closed, some s.token.span.start, [(.statement, i)]⟩ := by
  refine .start (.open hline fun s₁ => ?_)
  refine .bind (readsMaybe_optional Lockstep.peeks_atExpression reads_expression _ _ _)
    fun exc s₂ => .optionalIf rfl reads_expression fun cause s₃ => ?_
  exact builds_finish .statement (.raiseStmt exc cause) rfl
    (by simp [NodeData.slots, NodeData.children])

private theorem builds_assertStatement (hline : s.token.kind.endsLine = false) :
    T.Builds s ⟨.ready, none, []⟩ assertStatement fun i =>
      ⟨.closed, some s.token.span.start, [(.statement, i)]⟩ := by
  refine .start (.open hline fun s₁ => .bind reads_expression.beside fun test s₂ => ?_)
  refine .bind (builds_optional_eat rfl reads_expression) fun msg s₃ => ?_
  exact builds_finish .statement (.assertStmt test msg) rfl rfl

private theorem Builds.tuple {k : Option NodeData → Parser β}
    (hyes : ∀ elts, T.Builds s ⟨.closed, some a, ChildSlot.expression.all elts⟩
      (k (some (.tuple elts))) r)
    (hno : ∀ found, (∀ elts, found ≠ some (.tuple elts)) →
      T.Builds s ⟨.closed, some a, [(.expression, i)]⟩ (k found) r) :
    T.Builds s ⟨.closed, some a, [(.expression, i)]⟩ (dataOf i >>= k) r := by
  have hrun : (dataOf i).run s = (s.arena.data? i, s) := rfl
  refine .look hrun ?_
  by_cases htuple : ∃ elts, s.arena.data? i = some (.tuple elts)
  · obtain ⟨elts, hi⟩ := htuple
    rw [hi]
    exact fun ps hp => hyes elts ps (hp.elements hi)
  · exact hno _ fun elts hi => htuple ⟨elts, hi⟩

private theorem builds_deleteStatement (hline : s.token.kind.endsLine = false) :
    T.Builds s ⟨.ready, none, []⟩ deleteStatement fun i =>
      ⟨.closed, some s.token.span.start, [(.statement, i)]⟩ := by
  refine .start (.open hline fun s₁ => ?_)
  refine .bind (reads_inStatement fun _ => reads_targetList).beside fun target s₂ => ?_
  refine .checks (exists_checkTarget target s₂) fun s₃ _ => .tuple (fun elts => ?_) fun found hfound => ?_
  · exact builds_finish .statement (.deleteStmt elts) rfl rfl
  · split
    case h_1 elts => exact absurd rfl (hfound elts)
    case h_2 => exact builds_finish .statement (.deleteStmt [target]) rfl rfl

private theorem reads_nameHere : T.Reads .name name := reads_name (.inl rfl)

private theorem builds_nameList :
    T.Builds s ⟨.ready, m, used⟩ nameList fun is => ⟨.closed, m, used ++ ChildSlot.name.all is⟩ :=
  .bind reads_nameHere.beside fun _ _ => .bind (builds_afterEach rfl reads_nameHere)
    fun _ _ => .pure (by simp)

private theorem builds_globalStatement (hline : s.token.kind.endsLine = false) :
    T.Builds s ⟨.ready, none, []⟩ globalStatement fun i =>
      ⟨.closed, some s.token.span.start, [(.statement, i)]⟩ :=
  .start (.open hline fun _ => .bind builds_nameList fun names _ =>
    builds_finish .statement (.globalStmt names) rfl rfl)

private theorem builds_nonlocalStatement (hline : s.token.kind.endsLine = false) :
    T.Builds s ⟨.ready, none, []⟩ nonlocalStatement fun i =>
      ⟨.closed, some s.token.span.start, [(.statement, i)]⟩ :=
  .start (.open hline fun _ => .bind builds_nameList fun names _ =>
    builds_finish .statement (.nonlocalStmt names) rfl rfl)

/-! ## Imports -/

private def ReadsPath (T : Source) (x : Parser (List NodeId)) : Prop :=
  ∀ s, T.Builds s ⟨.ready, none, []⟩ x fun is =>
    ⟨.closed, some s.token.span.start, ChildSlot.name.all is⟩

private theorem readsPath_dottedName : T.ReadsPath dottedName := fun s =>
  .bind (reads_nameHere s) fun _ _ => .bind (builds_afterEach rfl reads_nameHere) fun _ _ => .pure rfl

private theorem reads_importAlias {x : Parser (List NodeId)} (h : T.ReadsPath x) :
    T.Reads .alias (importAlias x) := fun s =>
  .start (.bind (h s) fun path _ => .bind (builds_optional_eat rfl reads_nameHere) fun asname _ =>
    builds_finish .alias (.importAlias path asname) rfl (by simp [NodeData.slots]))

private theorem builds_importStatement (hline : s.token.kind.endsLine = false) :
    T.Builds s ⟨.ready, none, []⟩ importStatement fun i =>
      ⟨.closed, some s.token.span.start, [(.statement, i)]⟩ := by
  have halias : T.Reads .alias (importAlias dottedName) := reads_importAlias readsPath_dottedName
  refine .start (.open hline fun s₁ => .bind halias.beside fun first s₂ => ?_)
  refine .bind (builds_afterEach rfl halias) fun others s₃ => ?_
  exact builds_finish .statement (.importStmt (first :: others)) rfl rfl

private theorem builds_importLevelUpTo (fuel : Nat) :
    T.Builds s ⟨.ready, m, used⟩ (importLevelUpTo fuel) fun _ => ⟨.ready, m, used⟩ := by
  induction fuel generalizing s with
  | zero => exact .pure rfl
  | succ fuel ih =>
    refine .kind ?_
    split
    case h_1 hk | h_2 hk =>
      exact .take (by rw [hk]; rfl) fun s₁ => .bind ih fun _ _ => .pure rfl
    case h_3 => exact .pure rfl

private theorem builds_importedNames :
    T.Builds s ⟨.ready, m, used⟩ importedNames fun is =>
      ⟨.closed, m, used ++ ChildSlot.alias.all is⟩ := by
  have hmember : T.ReadsPath (return [← name]) := fun s =>
    .bind (reads_nameHere s) fun _ _ => .pure rfl
  have hrest (opened : Bool) (s : ParseState) : T.Builds s ⟨.ready, m, used⟩
      (do
        let names ← list (return !(← isAt .name)) (some <$> importAlias (return [← name]))
        if names.isEmpty then reportHere Code.expectedName none
        if opened then
          let _ ← expect Symbol.closeParen
        return names)
      fun is => ⟨.closed, m, used ++ ChildSlot.alias.all is⟩ := by
    refine .bind (readsMany_list (Lockstep.peeks_not_isAt .name) (reads_importAlias hmember).maybe
      _ _ _) fun names s₁ => ?_
    have hclose (s : ParseState) : T.Builds s ⟨.closed, m, used ++ ChildSlot.alias.all names⟩
        (do
          if opened then
            let _ ← expect Symbol.closeParen
          return names)
        fun is => ⟨.closed, m, used ++ ChildSlot.alias.all is⟩ := by
      cases opened with
      | false => exact .pure rfl
      | true => exact .expect rfl fun _ _ _ => .done rfl
    cases names with
    | nil => exact .reportHere fun s₂ _ _ => hclose s₂
    | cons first others => exact hclose s₁
  exact .eat rfl (fun s₁ => hrest true s₁) fun _ => hrest false s

private theorem builds_fromStatement (hline : s.token.kind.endsLine = false) :
    T.Builds s ⟨.ready, none, []⟩ fromStatement fun i =>
      ⟨.closed, some s.token.span.start, [(.statement, i)]⟩ := by
  refine .start (.open hline fun s₁ => .remaining fun fuel => ?_)
  refine .bind (builds_importLevelUpTo (fuel + 1)) fun level s₂ => ?_
  -- What follows the path.
  have hrest (path : List NodeId) (g : Gap) (s' : ParseState) : T.Builds s'
      ⟨g, some s.token.span.start, ChildSlot.name.all path⟩
      (do
        let _ ← expect Keyword.importKw
        if ← eat Symbol.star then
          finish (.importFrom path level [] true) s.token.span.start
        else
          let names ← importedNames
          finish (.importFrom path level names false) s.token.span.start)
      fun i => ⟨.closed, some s.token.span.start, [(.statement, i)]⟩ := by
    refine .expect rfl fun _ s₃ _ => .eat rfl (fun s₄ => ?_) fun _ => ?_
    · exact builds_finish .statement (.importFrom path level [] true) rfl (by simp [NodeData.slots])
    · refine .bind builds_importedNames fun names s₄ => ?_
      exact builds_finish .statement (.importFrom path level names false) rfl rfl
  refine .peek (Lockstep.peeks_isAt .name) (fun _ => ?_) fun _ => ?_
  all_goals
    split
    · exact .bind (Builds.beside (readsPath_dottedName s₂)) fun path s₃ => hrest path .closed s₃
    · exact hrest [] .ready s₂

/-! ## Expressions and assignments -/

private theorem builds_annotatedAssignment (target : NodeId) :
    T.Builds s ⟨.ready, some a, [(.expression, target)]⟩ (annotatedAssignment a target) fun i =>
      ⟨.closed, some a, [(.statement, i)]⟩ := by
  refine .checks (exists_checkPlace target s) fun s₁ _ => .bind reads_expression.beside fun hint s₂ => ?_
  refine .bind (builds_optional_eat rfl reads_starExpressionsHere) fun value s₃ => ?_
  exact builds_finish .statement (.annAssign target hint value) rfl rfl

private theorem builds_augmentedAssignment (target : NodeId) (op : BinaryOp)
    (hline : s.token.kind.endsLine = false) :
    T.Builds s ⟨.closed, some a, [(.expression, target)]⟩ (augmentedAssignment a target op) fun i =>
      ⟨.closed, some a, [(.statement, i)]⟩ := by
  refine .take hline fun s₁ => .checks (exists_checkPlace target s₁) fun s₂ _ => ?_
  refine .bind reads_starExpressionsHere.beside fun value s₃ => ?_
  exact builds_finish .statement (.augAssign target op value) rfl rfl

private theorem Builds.checkTargets {is : List NodeId} {k : Unit → Parser β}
    (h : ∀ s', T.Builds s' p (k ()) r) : T.Builds s p (is.forM checkTarget >>= k) r := by
  induction is generalizing s with
  | nil => exact h s
  | cons i is ih =>
    show T.Builds s p ((checkTarget i >>= fun _ => is.forM checkTarget) >>= k) r
    rw [bind_assoc]
    exact .checks (exists_checkTarget i s) fun s₁ _ => ih

private theorem builds_assignment (first : NodeId) (others : List NodeId) :
    T.Builds s ⟨.closed, some a, ChildSlot.expression.all (first :: others)⟩ (assignment a first others)
      fun i => ⟨.closed, some a, [(.statement, i)]⟩ := by
  have hchildren : (first :: others).dropLast ++ [others.getLastD first] = first :: others := by
    rw [← List.getLast_eq_getLastD]
    exact List.dropLast_concat_getLast (List.cons_ne_nil first others)
  refine .checkTargets fun s₁ => ?_
  refine builds_finish .statement (.assign (first :: others).dropLast (others.getLastD first)) rfl ?_
  show ChildSlot.expression.all ((first :: others).dropLast ++ [others.getLastD first]) = _
  rw [hchildren]

private theorem reads_expressionStatement : T.Reads .statement expressionStatement := by
  intro s
  refine .start (.bind (reads_starExpressionsHere s) fun first s₁ => ?_)
  refine .eat rfl (fun s₂ => builds_annotatedAssignment first) fun _ => .kind ?_
  split
  case h_1 op hop =>
    refine builds_augmentedAssignment first op ?_
    cases hkind : s₁.token.kind <;> rw [hkind] at hop <;> first | rfl | cases hop
  case h_2 =>
    refine .isAt (fun _ => ?_) fun _ => builds_finish .statement (.exprStmt first) rfl rfl
    exact .bind (builds_afterEach rfl reads_starExpressionsHere) fun others s₂ =>
      builds_assignment first others

/-! ## Lines -/

private theorem reads_simpleStatement : T.Reads .statement simpleStatement := by
  intro s
  refine .kind ?_
  split
  case h_1 hk => exact builds_keywordStatement .pass rfl rfl (by rw [hk]; rfl)
  case h_2 hk => exact builds_keywordStatement .breakLoop rfl rfl (by rw [hk]; rfl)
  case h_3 hk => exact builds_keywordStatement .continueLoop rfl rfl (by rw [hk]; rfl)
  case h_4 hk => exact builds_returnStatement (by rw [hk]; rfl)
  case h_5 hk => exact builds_raiseStatement (by rw [hk]; rfl)
  case h_6 hk => exact builds_assertStatement (by rw [hk]; rfl)
  case h_7 hk => exact builds_deleteStatement (by rw [hk]; rfl)
  case h_8 hk => exact builds_globalStatement (by rw [hk]; rfl)
  case h_9 hk => exact builds_nonlocalStatement (by rw [hk]; rfl)
  case h_10 hk => exact builds_importStatement (by rw [hk]; rfl)
  case h_11 hk => exact builds_fromStatement (by rw [hk]; rfl)
  case h_12 => exact reads_expressionStatement s

private theorem builds_simpleStatementsUpTo (fuel : Nat) :
    T.Builds s ⟨.ready, m, used⟩ (simpleStatementsUpTo fuel) fun is =>
      ⟨.closed, m, used ++ ChildSlot.statement.all is⟩ := by
  induction fuel generalizing s used with
  | zero => exact .done (by simp)
  | succ fuel ih =>
    refine .bind reads_simpleStatement.beside fun first s₁ => .eat rfl (fun s₂ => ?_) fun _ => ?_
    · refine .peek Lockstep.peeks_atLineEnd (fun _ => .done rfl) fun _ => ?_
      exact .bind ih fun others s₃ => .pure (by simp)
    · exact .peek Lockstep.peeks_atLineEnd (fun _ => .pure rfl) fun _ => .pure rfl

private theorem Builds.atEndOfLine {p : α → Stage} {x : Parser α}
    (hk : s.token.kind.endsLine = true)
    (hnewline : s.token.kind ≠ .newline) (h : T.Builds s ⟨.fresh, m, used⟩ x p) :
    T.Builds s ⟨g, m, used⟩ x p := fun ps hp => h ps (hp.fresh hk hnewline)

private theorem builds_simpleLine :
    T.Builds s ⟨.ready, m, used⟩ simpleLine fun is =>
      ⟨.fresh, m, used ++ ChildSlot.statement.all is⟩ := by
  refine .look (a := s.findings.size) rfl (.remaining fun fuel => ?_)
  refine .bindOnward (builds_simpleStatementsUpTo (fuel + 1)) fun is s₁ hon => ?_
  have hend (s' : ParseState) (g : Gap) (hline : s'.token.kind.endsLine = true ∨ g = .fresh) :
      T.Builds s' ⟨g, m, used ++ ChildSlot.statement.all is⟩
      (do
        let _ ← eat .newline
        return is)
      fun is => ⟨.fresh, m, used ++ ChildSlot.statement.all is⟩ := by
    refine .eatLayout rfl (fun _ => .pure rfl) fun hnewline => ?_
    rcases hline with hline | rfl
    · exact .atEndOfLine hline hnewline (.pure rfl)
    · exact .pure rfl
  refine .peek Lockstep.peeks_atLineEnd (fun hline => hend s₁ .closed (.inl hline)) fun _ => ?_
  refine .look (a := s₁.findings.size) rfl ?_
  -- Something is left of the line, and there is a problem with it.
  have hskip (s' : ParseState) (hsize : s'.findings.size ≠ 0) :
      T.Builds s' ⟨.closed, m, used ++ ChildSlot.statement.all is⟩
      (do
        skipLine
        let _ ← eat .newline
        return is)
      fun is => ⟨.fresh, m, used ++ ChildSlot.statement.all is⟩ :=
    .bind (builds_skipLine hsize .fresh) fun _ s'' => hend s'' .fresh (.inr rfl)
  have hle := hon.findings
  dsimp only
  split
  · exact .current (.report fun s₂ hsize _ => hskip s₂ hsize)
  · rename_i hne
    have hne : s₁.findings.size ≠ s.findings.size := fun heq => hne (beq_iff_eq.mpr heq)
    exact hskip s₁ (by omega)

/-! ## Blocks -/

private def ReadsBlock (T : Source) (x : Parser (List NodeId)) : Prop :=
  ∀ s m used, T.Builds s ⟨.fresh, m, used⟩ x fun is => ⟨.fresh, m, used ++ ChildSlot.statement.all is⟩

variable {x : Parser (List NodeId)} {y : Parser NodeId}

private theorem builds_block (h : T.ReadsBlock x) :
    T.Builds s ⟨.ready, m, used⟩ (block x) fun is => ⟨.fresh, m, used ++ ChildSlot.statement.all is⟩ := by
  have hnone (s : ParseState) (g : Gap) : T.Builds s ⟨g, m, used⟩
      (reportHere Code.expectedIndentedBlock none >>= fun _ => pure [])
      fun is => ⟨.fresh, m, used ++ ChildSlot.statement.all is⟩ :=
    .reportHere fun s₁ hsize _ => .of_findings ⟨.fresh, m, used⟩ hsize (.pure (by simp))
      (fun _ => id) fun _ => .inl
  refine .eatLayout rfl (fun s₁ => ?_) fun _ => ?_
  · refine .eatLayout rfl (fun s₂ => .bind (h s₂ m used) fun body s₃ => ?_) fun _ => hnone s₁ .fresh
    exact .eatLayout rfl (fun _ => .pure rfl) fun _ => .pure rfl
  · exact .peek Lockstep.peeks_atLineEnd (fun _ => hnone s .ready) fun _ => builds_simpleLine

private theorem builds_colonBlock (h : T.ReadsBlock x) :
    T.Builds s ⟨g, m, used⟩ (colonBlock x) fun is => ⟨.fresh, m, used ++ ChildSlot.statement.all is⟩ := by
  refine .expect rfl fun b s₁ hsize => ?_
  cases b with
  | true => exact builds_block h
  | false => exact .bind (builds_skipLine (hsize rfl) .ready) fun _ _ => builds_block h

private theorem builds_elseBlock (h : T.ReadsBlock x) :
    T.Builds s ⟨.fresh, m, used⟩ (elseBlock x) fun is =>
      ⟨.fresh, m, used ++ ChildSlot.statement.all is⟩ :=
  .eat rfl (fun _ => builds_colonBlock h) fun _ => .pure (by simp)

/-! ## Compound statements -/

private theorem Builds.singleton
    (h : T.Builds s ⟨.ready, none, []⟩ y fun i =>
      ⟨.fresh, some s.token.span.start, [(.statement, i)]⟩) :
    T.Builds s ⟨.ready, m, used⟩ (List.singleton <$> y) fun is =>
      ⟨.fresh, m, used ++ ChildSlot.statement.all is⟩ :=
  h.beside.map fun _ => rfl

private theorem builds_ifStatementUpTo (h : T.ReadsBlock x) (hline : s.token.kind.endsLine = false)
    (fuel : Nat) :
    T.Builds s ⟨.ready, none, []⟩ (ifStatementUpTo x fuel) fun i =>
      ⟨.fresh, some s.token.span.start, [(.statement, i)]⟩ := by
  induction fuel generalizing s with
  | zero => exact builds_missing .statement .fresh
  | succ fuel ih =>
    refine .start (.open hline fun s₁ => .bind reads_expression.beside fun test s₂ => ?_)
    refine .bind (builds_colonBlock h) fun body s₃ => .isAt (fun hk => ?_) fun _ => ?_
    · refine .bind (Builds.singleton (ih (by rw [hk]; rfl))).ready fun orelse s₄ => ?_
      exact builds_finish_fresh .statement (.ifStmt test body orelse) rfl (by simp [NodeData.slots])
    · refine .bind (builds_elseBlock h) fun orelse s₄ => ?_
      exact builds_finish_fresh .statement (.ifStmt test body orelse) rfl (by simp [NodeData.slots])

private theorem builds_whileStatement (h : T.ReadsBlock x) (hline : s.token.kind.endsLine = false) :
    T.Builds s ⟨.ready, none, []⟩ (whileStatement x) fun i =>
      ⟨.fresh, some s.token.span.start, [(.statement, i)]⟩ := by
  refine .start (.open hline fun s₁ => .bind reads_expression.beside fun test s₂ => ?_)
  refine .bind (builds_colonBlock h) fun body s₃ => .bind (builds_elseBlock h) fun orelse s₄ => ?_
  exact builds_finish_fresh .statement (.whileLoop test body orelse) rfl (by simp [NodeData.slots])

private theorem builds_forStatement (h : T.ReadsBlock x) (hline : s.token.kind.endsLine = false) :
    T.Builds s ⟨.ready, none, []⟩ (forStatement x) fun i =>
      ⟨.fresh, some s.token.span.start, [(.statement, i)]⟩ := by
  refine .start (.open hline fun s₁ => ?_)
  refine .bind (reads_inStatement fun _ => reads_targetList).beside fun target s₂ => ?_
  refine .checks (exists_checkTarget target s₂) fun s₃ _ => .expect rfl fun _ s₄ _ => ?_
  refine .bind reads_starExpressionsHere.beside fun iter s₅ => ?_
  refine .bind (builds_colonBlock h) fun body s₆ => .bind (builds_elseBlock h) fun orelse s₇ => ?_
  exact builds_finish_fresh .statement (.forLoop target iter body orelse) rfl
    (by simp [NodeData.slots])

private def handlerClause (x : Parser (List NodeId)) : Parser NodeId := do
  let start ← start
  let _ ← bump
  let type ← optional (return !(← isAt Symbol.colon)) expression
  let caught ← optional (eat Keyword.asKw) name
  let body ← colonBlock x
  finish (.handler type caught body) start

private theorem builds_handlerClause (h : T.ReadsBlock x) (hline : s.token.kind.endsLine = false) :
    T.Builds s ⟨.ready, none, []⟩ (handlerClause x) fun i =>
      ⟨.fresh, some s.token.span.start, [(.handler, i)]⟩ := by
  refine .start (.open hline fun s₁ => ?_)
  refine .bind (readsMaybe_optional (Lockstep.peeks_not_isAt _) reads_expression _ _ _)
    fun type s₂ => .bind (builds_optional_eat rfl reads_nameHere) fun caught s₃ => ?_
  refine .bind (builds_colonBlock h) fun body s₄ => ?_
  exact builds_finish_fresh .handler (.handler type caught body) rfl (by simp [NodeData.slots])

private theorem run_handlersUpTo (hk : s.token.kind = .keyword .exceptKw) (fuel : Nat) :
    (handlersUpTo x (fuel + 1)).run s = (do
      let first ← handlerClause x
      let others ← handlersUpTo x fuel
      return first :: others : Parser (List NodeId)).run s := by
  have hline : s.token.kind.endsLine = false := by rw [hk]; rfl
  have hstart : start.run s = (s.token.span.start, s) := rfl
  rw [handlersUpTo, run_bind hstart, run_bind (run_eat_inLine hk rfl), handlerClause]
  simp only [bind_assoc, if_true]
  rw [run_bind hstart, run_bind (run_bump_of_inLine hline)]

private theorem builds_handlersUpTo (h : T.ReadsBlock x) (fuel : Nat) :
    T.Builds s ⟨.fresh, m, used⟩ (handlersUpTo x fuel) fun is =>
      ⟨.fresh, m, used ++ ChildSlot.handler.all is⟩ := by
  induction fuel generalizing s used with
  | zero => exact .pure (by simp)
  | succ fuel ih =>
    by_cases hk : s.token.kind = .keyword .exceptKw
    · have hfirst : T.Builds s ⟨.fresh, m, used⟩ (handlerClause x) fun i =>
          ⟨.fresh, m, used ++ [(.handler, i)]⟩ :=
        (Builds.beside (builds_handlerClause h (by rw [hk]; rfl))).ready
      have hboth : T.Builds s ⟨.fresh, m, used⟩
          (do
            let first ← handlerClause x
            let others ← handlersUpTo x fuel
            return first :: others)
          fun is => ⟨.fresh, m, used ++ ChildSlot.handler.all is⟩ :=
        .bind hfirst fun first s₁ => .bind ih fun others s₂ => .pure (by simp)
      intro ps hp
      rw [run_handlersUpTo hk]
      exact hboth ps hp
    · exact .start (.look (run_eat_of_not _ hk) (.pure (by simp)))

private theorem builds_tryStatement (h : T.ReadsBlock x) (hline : s.token.kind.endsLine = false) :
    T.Builds s ⟨.ready, none, []⟩ (tryStatement x) fun i =>
      ⟨.fresh, some s.token.span.start, [(.statement, i)]⟩ := by
  refine .start (.open hline fun s₁ => .bind (builds_colonBlock h) fun body s₂ => .remaining fun fuel => ?_)
  refine .bind (builds_handlersUpTo h (fuel + 1)) fun handlers s₃ => ?_
  refine .bind (builds_elseBlock h) fun orelse s₄ => ?_
  -- What follows the final block.
  have hrest (finalbody : List NodeId) (s' : ParseState) : T.Builds s'
      ⟨.fresh, some s.token.span.start,
        [] ++ ChildSlot.statement.all body ++ ChildSlot.handler.all handlers ++ ChildSlot.statement.all orelse ++
          ChildSlot.statement.all finalbody⟩
      (do
        if handlers.isEmpty && finalbody.isEmpty then
          reportHere Code.expectedToken (some Keyword.exceptKw.text)
        finish (.tryStmt body handlers orelse finalbody) s.token.span.start)
      fun i => ⟨.fresh, some s.token.span.start, [(.statement, i)]⟩ := by
    have hslots : (NodeData.tryStmt body handlers orelse finalbody).slots =
        [] ++ ChildSlot.statement.all body ++ ChildSlot.handler.all handlers ++
          ChildSlot.statement.all orelse ++ ChildSlot.statement.all finalbody := by
      simp [NodeData.slots]
    have hfinish (s' : ParseState) := builds_finish_fresh (T := T) (s := s')
      (a := s.token.span.start) .statement (.tryStmt body handlers orelse finalbody) rfl hslots
    split
    · exact .reportHere fun s₅ _ _ => hfinish s₅
    · exact hfinish s'
  refine .eat rfl (fun s₅ => .bind (builds_colonBlock h) fun finalbody s₆ => hrest finalbody s₆)
    fun _ => ?_
  have hnone := hrest [] s₄
  rw [ChildSlot.all_nil, List.append_nil] at hnone
  exact hnone

private theorem reads_withItem : T.Reads .item withItem := by
  intro s
  refine .start (.bind (reads_expression s) fun context s₁ => ?_)
  refine .bind (builds_optional_eat rfl (reads_inStatement fun _ => reads_bitOr)) fun target s₂ => ?_
  cases target with
  | none => exact builds_finish .item (.withItem context none) rfl rfl
  | some target =>
    refine .checks (exists_checkTarget target s₂) fun s₃ _ => ?_
    exact builds_finish .item (.withItem context (some target)) rfl rfl

private theorem builds_withStatement (h : T.ReadsBlock x) (hline : s.token.kind.endsLine = false) :
    T.Builds s ⟨.ready, none, []⟩ (withStatement x) fun i =>
      ⟨.fresh, some s.token.span.start, [(.statement, i)]⟩ := by
  refine .start (.open hline fun s₁ => .bind reads_withItem.beside fun first s₂ => ?_)
  refine .bind (builds_afterEach rfl reads_withItem) fun others s₃ => ?_
  refine .bind (builds_colonBlock h) fun body s₄ => ?_
  exact builds_finish_fresh .statement (.withStmt (first :: others) body) rfl rfl

private def Opens (T : Source) (s : ParseState) (p : Stage) (a : Nat)
    (used : List (ChildSlot × NodeId)) : Prop :=
  ∀ ps, T.At s ps p → T.At s.taken ps ⟨.ready, some a, used⟩

private theorem Builds.opens {k : Token → Parser β} (hopens : T.Opens s p a used)
    (hline : s.token.kind.endsLine = false)
    (h : ∀ s', T.Builds s' ⟨.ready, some a, used⟩ (k s.token) r) :
    T.Builds s p (bump >>= k) r := by
  intro ps hp
  obtain ⟨hat, hon⟩ := h s.taken ps (hopens ps hp)
  rw [run_bind (run_bump_of_inLine hline)]
  exact ⟨hat, { hon with }⟩

private theorem builds_functionStatement (h : T.ReadsBlock x) (decorators : List NodeId)
    (hline : s.token.kind.endsLine = false)
    (hopens : T.Opens s p a (ChildSlot.expression.all decorators)) :
    T.Builds s p (functionStatement x decorators a) fun i =>
      ⟨.fresh, some a, [(.statement, i)]⟩ := by
  refine .opens hopens hline fun s₁ => .bind reads_nameHere.beside fun defined s₂ => ?_
  -- What follows the parameters.
  have hrest (params : List NodeId) (s' : ParseState) : T.Builds s'
      ⟨.ready, some a, ChildSlot.expression.all decorators ++ [(.name, defined)] ++
        ChildSlot.parameter.all params⟩
      (do
        let returns ← optional (eat Symbol.arrow) expression
        let body ← colonBlock x
        finish (.functionDef decorators defined params returns body) a)
      fun i => ⟨.fresh, some a, [(.statement, i)]⟩ := by
    refine .bind (builds_optional_eat rfl reads_expression) fun returns s₃ => ?_
    refine .bind (builds_colonBlock h) fun body s₄ => ?_
    exact builds_finish_fresh .statement (.functionDef decorators defined params returns body) rfl rfl
  refine .expect rfl fun opened s₃ hsize => ?_
  cases opened with
  | true =>
    refine .bind (.inStatement fun n hn => readsMany_parameters hn _ _ _ _ _) fun params s₄ => ?_
    exact .expect rfl fun _ s₅ _ => hrest params s₅
  | false =>
    have hnone := hrest [] s₃
    rw [ChildSlot.all_nil, List.append_nil] at hnone
    exact hnone

private theorem builds_classStatement (h : T.ReadsBlock x) (decorators : List NodeId)
    (hline : s.token.kind.endsLine = false)
    (hopens : T.Opens s p a (ChildSlot.expression.all decorators)) :
    T.Builds s p (classStatement x decorators a) fun i => ⟨.fresh, some a, [(.statement, i)]⟩ := by
  refine .opens hopens hline fun s₁ => .bind reads_nameHere.beside fun defined s₂ => ?_
  -- What follows the bases.
  have hrest (bases : List NodeId) (g : Gap) (s' : ParseState) : T.Builds s'
      ⟨g, some a, ChildSlot.expression.all decorators ++ [(.name, defined)] ++ ChildSlot.argument.all bases⟩
      (do
        let body ← colonBlock x
        finish (.classDef decorators defined bases body) a)
      fun i => ⟨.fresh, some a, [(.statement, i)]⟩ := by
    refine .bind (builds_colonBlock h) fun body s₃ => ?_
    exact builds_finish_fresh .statement (.classDef decorators defined bases body) rfl rfl
  refine .eat rfl (fun s₃ => ?_) fun _ => ?_
  · refine .bind (.inStatement fun n hn => readsMany_arguments hn _ _ _) fun bases s₄ => ?_
    exact .expect rfl fun _ s₅ _ => hrest bases .ready s₅
  · have hnone := hrest [] .closed s₂
    rw [ChildSlot.all_nil, List.append_nil] at hnone
    exact hnone

private theorem reads_decorator : T.Reads .expression decorator := by
  intro s
  refine .bind (reads_expression s) fun value s₁ => .eatLayout rfl (fun _ => .done rfl) fun _ => ?_
  refine .reportHere fun s₂ hsize _ => .bind (builds_skipLine hsize .closed) fun _ s₃ => ?_
  exact .eatLayout rfl (fun _ => .done rfl) fun _ => .pure rfl

private theorem builds_afterEach_there {mark : TokenKind} (hk : s.token.kind = mark)
    (hline : mark.endsLine = false) (h : T.Reads slot y) :
    T.Builds s ⟨.ready, none, []⟩ (afterEach mark y) fun is =>
      ⟨.closed, some s.token.span.start, slot.all is⟩ := by
  refine .remaining fun fuel => .eatThere hk hline (.open (hk ▸ hline) fun s₁ => ?_)
  exact .bind h.beside fun first s₂ => .bind (builds_afterEachUpTo hline h fuel) fun others s₃ => .pure rfl

private theorem builds_decoratedStatement (h : T.ReadsBlock x)
    (hk : s.token.kind = .symbol .atSign) :
    T.Builds s ⟨.ready, none, []⟩ (decoratedStatement x) fun i =>
      ⟨.fresh, some s.token.span.start, [(.statement, i)]⟩ := by
  refine .start (.bind (builds_afterEach_there hk rfl reads_decorator) fun decorators s₁ => ?_)
  have hopens (hline : s₁.token.kind.endsLine = false) :
      T.Opens s₁ ⟨.closed, some s.token.span.start, ChildSlot.expression.all decorators⟩
        s.token.span.start (ChildSlot.expression.all decorators) := fun _ hp => hp.taken hline
  refine .kind ?_
  split
  case h_1 hk₁ =>
    have hline : s₁.token.kind.endsLine = false := by rw [hk₁]; rfl
    exact builds_functionStatement h decorators hline (hopens hline)
  case h_2 hk₁ =>
    have hline : s₁.token.kind.endsLine = false := by rw [hk₁]; rfl
    exact builds_classStatement h decorators hline (hopens hline)
  case h_3 =>
    -- The decorators have nothing to decorate and are left behind.
    exact .of_at fun ps hp => .reportHere fun s₂ hsize _ =>
      builds_malformed .statement hsize (hp.bound _ rfl) .fresh

/-! ## Statements -/

private theorem builds_statement (h : T.ReadsBlock x) :
    T.Builds s ⟨.ready, m, used⟩ (statement x) fun is =>
      ⟨.fresh, m, used ++ ChildSlot.statement.all is⟩ := by
  have hopens (hline : s.token.kind.endsLine = false) :
      T.Opens s ⟨.ready, none, []⟩ s.token.span.start (ChildSlot.expression.all []) :=
    fun _ hp => hp.opened hline
  refine .kind ?_
  split
  case h_1 hk =>
    exact .remaining fun fuel => .singleton (builds_ifStatementUpTo h (by rw [hk]; rfl) (fuel + 1))
  case h_2 hk => exact .singleton (builds_whileStatement h (by rw [hk]; rfl))
  case h_3 hk => exact .singleton (builds_forStatement h (by rw [hk]; rfl))
  case h_4 hk => exact .singleton (builds_tryStatement h (by rw [hk]; rfl))
  case h_5 hk => exact .singleton (builds_withStatement h (by rw [hk]; rfl))
  case h_6 hk =>
    have hline : s.token.kind.endsLine = false := by rw [hk]; rfl
    exact .start (.singleton (builds_functionStatement h [] hline (hopens hline)))
  case h_7 hk =>
    have hline : s.token.kind.endsLine = false := by rw [hk]; rfl
    exact .start (.singleton (builds_classStatement h [] hline (hopens hline)))
  case h_8 hk => exact .singleton (builds_decoratedStatement h hk)
  case h_9 => exact builds_simpleLine

private theorem builds_unexpectedBlock (h : T.ReadsBlock x) (hk : s.token.kind = .indent) :
    T.Builds s ⟨.fresh, m, used⟩ (unexpectedBlock x) fun is =>
      ⟨.fresh, m, used ++ ChildSlot.statement.all is⟩ := by
  refine .reportHere fun s₁ _ htoken => .pass (by rw [htoken, hk]; rfl) fun s₂ => ?_
  refine .bind (h s₂ m used) fun body s₃ => ?_
  exact .eatLayout rfl (fun _ => .pure rfl) fun _ => .pure rfl

private theorem readsBlock_statementsUpTo (fuel : Nat) : T.ReadsBlock (statementsUpTo fuel) := by
  induction fuel with
  | zero => exact fun _ _ _ => .pure (by simp)
  | succ fuel ih =>
    intro s m used
    refine .kind ?_
    split
    case h_1 | h_2 => exact .pure (by simp)
    case h_3 hk => exact .pass (by rw [hk]; rfl) fun s₁ => ih s₁ m used
    case h_4 hk =>
      exact .bind (builds_unexpectedBlock ih hk) fun first s₁ => .bind (ih s₁ m _)
        fun others s₂ => .pure (by simp)
    case h_5 =>
      exact .bind (builds_statement ih).ready fun first s₁ => .bind (ih s₁ m _)
        fun others s₂ => .pure (by simp)

private theorem readsBlock_moduleUpTo (fuel : Nat) : T.ReadsBlock (moduleUpTo fuel) := by
  induction fuel with
  | zero => exact fun _ _ _ => .pure (by simp)
  | succ fuel ih =>
    intro s m used
    refine .kind ?_
    split
    case h_1 => exact .pure (by simp)
    case h_2 hk | h_3 hk => exact .pass (by rw [hk]; rfl) fun s₁ => ih s₁ m used
    case h_4 hk =>
      exact .remaining fun fuel => .bind (builds_unexpectedBlock (readsBlock_statementsUpTo _) hk)
        fun first s₁ => .bind (ih s₁ m _) fun others s₂ => .pure (by simp)
    case h_5 =>
      exact .remaining fun fuel => .bind (builds_statement (readsBlock_statementsUpTo _)).ready
        fun first s₁ => .bind (ih s₁ m _) fun others s₂ => .pure (by simp)

end LiveCheck.Source

/-!
## What a parse builds

The rules of the grammar, from the first token of a text to its last: every node that a parse builds
stands in the text and has children that suit their places, and without problems the nodes lie
inside each other.
-/

namespace LiveCheck

open Text

/-- The nodes of an arena make the tree of a text. -/
structure Arena.Built (a : Arena) (root : NodeId) (text : List Char) : Prop where
  /-- The root is a module. -/
  module : ∃ body, a.data? root = some (.root body)
  /-- It is all of the text. -/
  whole : a.span root = ⟨0, byteLength text⟩
  fits : ∀ i data, a.data? i = some data → a.Fits data
  lies : ∀ i < a.size, (a.span i).Lies text

/-- Children have characters and lie inside their parents without touching each other. -/
structure Arena.Nested (a : Arena) : Prop where
  size : ∀ i, ∀ c ∈ a.children i, (a.span c).start < (a.span c).stop
  inside : ∀ i, ∀ c ∈ a.children i, (a.span c).Inside (a.span i)
  apart : ∀ i, a.Apart (a.children i)

theorem Arena.Built.lt_size {a : Arena} {root : NodeId} {text : List Char} (h : a.Built root text)
    (hi : a.Reachable root i) : i < a.size := by
  cases hi with
  | root =>
    obtain ⟨body, hdata⟩ := h.module
    exact lt_size_of_data? hdata
  | child _ hchild =>
    obtain ⟨data, hdata, hc⟩ := exists_of_mem_children hchild
    exact (h.fits _ data hdata).lt_size hc

namespace Source

variable {T : Source} {s : ParseState} {body : List NodeId}

private def ofText (text : String) : Source := ⟨text.toList, (scan text).tokens, spaced_scan text⟩

private theorem at_start (text : String) :
    (ofText text).At (.start text) [] ⟨.fresh, none, []⟩ where
  sound := by
    refine ⟨rfl, ?_, ⟨[], text.toList, rfl, rfl⟩, fun i data hi => ?_, fun i hi => ?_⟩
    · obtain ⟨before, stop, hlast, -⟩ := (ordered_scan text).last
      show 0 < (scan text).tokens.size
      rw [← Array.length_toList, hlast, List.length_append]
      exact Nat.succ_pos _
    · exact absurd (Arena.lt_size_of_data? hi) (Nat.not_lt_zero i)
    · exact absurd hi (Nat.not_lt_zero i)
  suits := nofun
  bound := nofun
  tidy _ := by
    refine ⟨.nil, nofun, Nat.zero_le _, fun _ => .inl rfl, fun i data hi => ?_⟩
    exact absurd (Arena.lt_size_of_data? hi) (Nat.not_lt_zero i)
  gap _ := .inl rfl
  marked := nofun

private theorem At.built (h : T.At s [] ⟨.fresh, none, ChildSlot.statement.all body⟩) :
    let r := s.arena.add (.root body) ⟨0, byteLength T.text⟩
    r.2.Built r.1 T.text ∧ (s.findings.size = 0 → r.2.Nested) := by
  intro r
  have hfits : s.arena.Fits (.root body) := h.suits
  have hextends := (s.arena.extends_add (.root body) ⟨0, byteLength T.text⟩).data?
  have hsize : r.2.size = s.arena.size + 1 := s.arena.size_add _ _
  have hdata : r.2.data? r.1 = some (.root body) := s.arena.data?_add _ _
  have hspan : r.2.span r.1 = ⟨0, byteLength T.text⟩ := s.arena.span_add _ _
  have hold {i : NodeId} (hi : i < s.arena.size) : r.2.span i = s.arena.span i :=
    Arena.span_add_of_lt hi _ _
  have hnew {i : NodeId} (hi : i < r.2.size) : i < s.arena.size ∨ i = r.1 :=
    Nat.lt_succ_iff_lt_or_eq.mp (Nat.lt_of_lt_of_eq hi hsize)
  have hcases {i : NodeId} {data : NodeData} (hi : r.2.data? i = some data) :
      s.arena.data? i = some data ∨ i = r.1 ∧ data = .root body := by
    rcases hnew (Arena.lt_size_of_data? hi) with hlt | rfl
    · exact .inl ((Arena.data?_add_of_lt hlt _ _).symm.trans hi)
    · exact .inr ⟨rfl, Option.some.inj (hi.symm.trans hdata)⟩
  refine ⟨⟨⟨body, hdata⟩, hspan, fun i data hi => ?_, fun i hi => ?_⟩, fun hclean => ?_⟩
  · rcases hcases hi with hi | ⟨-, rfl⟩
    · exact (h.sound.fits i data hi).mono hextends
    · exact hfits.mono hextends
  · rcases hnew hi with hlt | rfl
    · rw [hold hlt]
      exact h.sound.lies i hlt
    · rw [hspan]
      exact Span.lies_iff.mpr ⟨Nat.zero_le _, ⟨[], T.text, rfl, rfl⟩, T.text, [], by simp, rfl⟩
  have htidy := h.tidy hclean
  rw [List.nil_append, ChildSlot.map_snd_all] at htidy
  have hchild {i : NodeId} {data : NodeData} (hi : s.arena.data? i = some data) {c : NodeId}
      (hc : c ∈ data.children) : r.2.span c = s.arena.span c :=
    hold ((h.sound.fits i data hi).lt_size hc)
  have hbody {c : NodeId} (hc : c ∈ body) : r.2.span c = s.arena.span c := hold (htidy.lt_size hc)
  refine ⟨fun i c hc => ?_, fun i c hc => ?_, fun i => ?_⟩
  · obtain ⟨data, hi, hc⟩ := Arena.exists_of_mem_children hc
    rcases hcases hi with hi | ⟨rfl, rfl⟩
    · obtain ⟨child, hdata⟩ := Arena.exists_data? ((h.sound.fits i data hi).lt_size hc)
      rw [hchild hi hc]
      exact (htidy.encloses c child hdata).size
    · rw [hbody hc]
      exact (htidy.placed c hc).1
  · obtain ⟨data, hi, hc⟩ := Arena.exists_of_mem_children hc
    rcases hcases hi with hi | ⟨rfl, rfl⟩
    · rw [hold (Arena.lt_size_of_data? hi), hchild hi hc]
      exact (htidy.encloses i data hi).inside c hc
    · have hstop := (htidy.placed c hc).2
      have hpassed := htidy.passed
      have hle := h.sound.token_le
      rw [hspan, hbody hc]
      exact ⟨Nat.zero_le _, show (s.arena.span c).stop ≤ byteLength T.text by omega⟩
  · rcases hdata' : r.2.data? i with - | data
    · rw [Arena.children, hdata']
      exact .nil
    rw [Arena.children_of_data? hdata']
    rcases hcases hdata' with hi | ⟨rfl, rfl⟩
    · exact (htidy.encloses i data hi).apart.imp_of_mem fun hc hc' hlt => by
        rwa [hchild hi hc, hchild hi hc']
    · exact htidy.apart.imp_of_mem fun hc hc' hlt => by rwa [hbody hc, hbody hc']

end Source

theorem built_parse (text : String) :
    (parse text).tree.arena.Built (parse text).tree.root text.toList ∧
      ((parse text).findings = [] → (parse text).tree.arena.Nested) := by
  have hread := Source.readsBlock_moduleUpTo (T := .ofText text) (ParseState.start text).remaining
    (.start text) none [] [] (Source.at_start text)
  generalize hmodule : (Parser.moduleUpTo (ParseState.start text).remaining).run (.start text) =
    result at hread
  obtain ⟨body, s⟩ := result
  have hbytes : byteLength text.toList = text.utf8ByteSize := by
    rw [← utf8ByteSize_ofList, String.ofList_toList]
  obtain ⟨hbuilt, hnested⟩ := hread.1.built
  rw [parse_of_module hmodule, ← hbytes]
  refine ⟨hbuilt, fun hnone => hnested ?_⟩
  have hlength : (s.findings.toList.mergeSort Finding.notAfter).length = s.findings.toList.length :=
    List.length_mergeSort _
  rw [show s.findings.toList.mergeSort Finding.notAfter = [] from hnone] at hlength
  exact hlength.symm.trans (Array.length_toList ..)

end LiveCheck
