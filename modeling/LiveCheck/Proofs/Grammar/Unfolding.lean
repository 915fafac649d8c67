import LiveCheck.Proofs.Grammar.Rules

/-!
# The grammar with fuel

The parser for a rule, with its fuel and its rounds, does what the body of the rule does when less
fuel or fewer rounds are given to the rules that are called. Nothing is cut off as long as the fuel
and the rounds outlast the tokens.
-/

namespace LiveCheck

open LiveCheck.Parser

/-- The parsers for what is nested in `d` expressions, with so much fuel. -/
def nested (fuel d : Nat) : Nested := ⟨expressionAt fuel d, bitOrAt fuel d⟩

/-- The parser for an element of a list. -/
def Item.parser (fuel : Nat) : Item → Parser NodeId
  | starOrExpression d => Parser.starOrExpression (nested fuel d)
  | targetItem d => starOr (nested fuel d) (nested fuel d).bitOr
  | sliceItem d => Parser.sliceItem (nested fuel d)
  | negation d => Parser.negation (nested fuel d)
  | andTest d => connective .andKw .and (Parser.negation (nested fuel d))
  | name => Parser.name
  | importAlias => Parser.importAlias dottedName
  | starExpressions => Parser.inStatement Parser.starExpressions
  | withItem => Parser.withItem
  | decorator => Parser.decorator

/-- The parser for an entry of a list. -/
def ListEntry.parser (fuel : Nat) : ListEntry → Parser (Option NodeId)
  | argument d => Parser.argument (nested fuel d)
  | parameter d annotated => Parser.parameter (nested fuel d) annotated
  | element d => some <$> Parser.starOrExpression (nested fuel d)
  | importedName => some <$> Parser.importAlias (return [← Parser.name])

namespace Production

/-- The parser for a rule. What is nested has the given fuel; a loop goes on for the given number of
rounds. -/
@[simp] def parser : {α : Type} → Production α → (fuel rounds : Nat) → Parser α
  | _, skipLine, _, k => skipLineUpTo k
  | _, stringValues, _, k => stringValuesUpTo k
  | _, strings, _, _ => Parser.strings
  | _, afterCommas stop i, f, k => afterCommasUpTo (peek stop) (i.parser f) k
  | _, afterEach mark i, f, k => afterEachUpTo mark.kind (i.parser f) k
  | _, entries stop e, f, k => listUpTo (peek stop) (e.parser f) k
  | _, list stop e, f, _ => Parser.list (peek stop) (e.parser f)
  | _, item i, f, _ => i.parser f
  | _, entry e, f, _ => e.parser f
  | _, tooDeep, _, _ => Parser.tooDeep
  | _, atom d, f, _ => Parser.atom (nested f d)
  | _, dictEntry d key, f, _ => Parser.dictEntry (nested f d) key
  | _, dictEntries d, f, k => dictEntriesUpTo (nested f d) k
  | _, dictDisplay d start key, f, _ => Parser.dictDisplay (nested f d) start key
  | _, starExpressions d, f, _ => Parser.starExpressions (nested f d)
  | _, targetList d, f, _ => Parser.targetList (nested f d)
  | _, subscriptIndex d, f, _ => Parser.subscriptIndex (nested f d)
  | _, trailers d start expr, f, k => trailersUpTo (nested f d) start k expr
  | _, primary d, f, _ => Parser.primary (nested f d)
  | _, factors d, f, k => factorUpTo (nested f d) k
  | _, factor d, f, _ => Parser.factor (nested f d)
  | _, operationsRest ls level d start left, f, k =>
    operationsUpTo level (ls.foldr Parser.operations (Parser.factor (nested f d))) start k left
  | _, operations ls d, f, _ => ls.foldr Parser.operations (Parser.factor (nested f d))
  | _, comparisons d, f, k => comparisonsUpTo (nested f d) k
  | _, comparison d, f, _ => Parser.comparison (nested f d)
  | _, negations d, f, k => negationUpTo (nested f d) k
  | _, orTest d, f, _ => Parser.orTest (nested f d)
  | _, conditional d, f, _ => Parser.conditional (nested f d)
  | _, expression d, f, _ => expressionAt f d
  | _, operand d, f, _ => bitOrAt f d
  | _, topExpression, _, _ => Parser.expression
  | _, topStarExpressions, _, _ => inStatement Parser.starExpressions
  | _, topTargetList, _, _ => inStatement Parser.targetList
  | _, topBitOr, _, _ => inStatement Parser.bitOr
  | _, topParameters, _, _ => inStatement fun n => parameters n Symbol.closeParen true
  | _, topArguments, _, _ => inStatement arguments
  | _, importLevel, _, k => importLevelUpTo k
  | _, simpleStatement, _, _ => Parser.simpleStatement
  | _, simpleStatements, _, k => simpleStatementsUpTo k
  | _, simpleLine, _, _ => Parser.simpleLine
  | _, block, f, _ => Parser.block (statementsUpTo f)
  | _, colonBlock, f, _ => Parser.colonBlock (statementsUpTo f)
  | _, elseBlock, f, _ => Parser.elseBlock (statementsUpTo f)
  | _, ifStatement, f, k => ifStatementUpTo (statementsUpTo f) k
  | _, whileStatement, f, _ => Parser.whileStatement (statementsUpTo f)
  | _, forStatement, f, _ => Parser.forStatement (statementsUpTo f)
  | _, handlers, f, k => handlersUpTo (statementsUpTo f) k
  | _, tryStatement, f, _ => Parser.tryStatement (statementsUpTo f)
  | _, withStatement, f, _ => Parser.withStatement (statementsUpTo f)
  | _, functionStatement decorators start, f, _ =>
    Parser.functionStatement (statementsUpTo f) decorators start
  | _, classStatement decorators start, f, _ =>
    Parser.classStatement (statementsUpTo f) decorators start
  | _, decoratedStatement, f, _ => Parser.decoratedStatement (statementsUpTo f)
  | _, statement, f, _ => Parser.statement (statementsUpTo f)
  | _, statements, f, _ => statementsUpTo f
  | _, module, _, k => moduleUpTo k

/-- The parsers for the rules with the given fuel for what is nested, where every loop goes on as
long as there are tokens. -/
@[simp] def solve (fuel : Nat) (α : Type) (r : Production α) : Parser α := do
  r.parser fuel (← remaining)

/-- The parsers for the rules with the given fuel for what is nested and the given number of rounds
for every loop. -/
@[simp] def round (fuel rounds : Nat) (α : Type) (r : Production α) : Parser α :=
  r.parser fuel rounds

end Production

namespace Program

open Production (solve round)

variable {callee : ∀ β, Production β → Parser β} {f d k : Nat}

@[simp] theorem bind_remaining {α : Type} (x : Parser α) :
    (Parser.remaining >>= fun _ => x) = x := rfl

@[simp] theorem nested_expression : (nested f d).expression = expressionAt f d := rfl

@[simp] theorem nested_bitOr : (nested f d).bitOr = bitOrAt f d := rfl

@[simp] theorem peek_beq (k : TokenKind) : Parser.peek (· == k) = Parser.isAt k := rfl

@[simp] theorem peek_not_beq (k : TokenKind) :
    Parser.peek (fun x => !x == k) = not <$> Parser.isAt k := rfl

@[simp] theorem peek_endsElements : Parser.peek endsElements = Parser.notAtExpression := rfl

@[simp] theorem list_endsParameters (n : Nested) (close : TokenKind) (annotated : Bool) :
    Parser.list (Parser.peek (endsParameters close)) (Parser.parameter n annotated) =
      Parser.parameters n close annotated := rfl

/-! ### Steps alone -/

@[simp] theorem run_argumentForm : argumentForm.run callee = Parser.argumentForm := by
  rw [argumentForm, Parser.argumentForm, run_bind]
  refine bind_congr fun κ => ?_
  split
  case h_3 => simp
  case h_4 => first | (split <;> first | contradiction | rfl) | rfl
  all_goals rfl

@[simp] theorem run_parameterForm : parameterForm.run callee = Parser.parameterForm := by
  rw [parameterForm, Parser.parameterForm, run_bind]
  refine bind_congr fun κ => ?_
  split
  case h_5 => first | (split <;> first | contradiction | rfl) | rfl
  all_goals rfl

@[simp] theorem run_comparisonOp : comparisonOp.run callee = Parser.comparisonOp := by
  rw [comparisonOp, Parser.comparisonOp, run_bind]
  refine bind_congr fun κ => ?_
  split
  case h_10 => first | (split <;> first | contradiction | rfl) | rfl
  all_goals rfl

@[simp] theorem run_missing : missing.run callee = Parser.missing := by
  rw [missing, Parser.missing]
  simp only [run_bind, run_ite]
  rfl

@[simp] theorem run_importAlias (path : Program Production (List NodeId)) :
    (importAlias path).run callee = Parser.importAlias (path.run callee) := by
  simp [importAlias, Parser.importAlias]

@[simp] theorem run_assignment (start : Nat) (first : NodeId) (others : List NodeId) :
    (assignment start first others).run callee = Parser.assignment start first others := by
  simp [assignment, Parser.assignment]

/-! ### Loops -/

private theorem run_skipLine : skipLine.run (round f k) = Parser.skipLineUpTo (k + 1) := by
  simp [skipLine, Parser.skipLineUpTo]

private theorem run_stringValues :
    stringValues.run (round f k) = Parser.stringValuesUpTo (k + 1) := by
  rw [stringValues, Parser.stringValuesUpTo, run_bind]
  refine bind_congr fun κ => ?_
  split
  case h_3 => first | (split <;> first | contradiction | rfl) | rfl
  all_goals rfl

private theorem run_afterCommas (stop : TokenKind → Bool) (i : Item) :
    (afterCommas stop i).run (round f k) =
      Parser.afterCommasUpTo (Parser.peek stop) (i.parser f) (k + 1) := by
  simp [afterCommas, Parser.afterCommasUpTo]

private theorem run_afterEach (mark : Mark) (i : Item) :
    (afterEach mark i).run (round f k) = Parser.afterEachUpTo mark.kind (i.parser f) (k + 1) := by
  simp [afterEach, Parser.afterEachUpTo]

private theorem run_entries (stop : TokenKind → Bool) (e : ListEntry) :
    (entries stop e).run (round f k) =
      Parser.listUpTo (Parser.peek stop) (e.parser f) (k + 1) := by
  rw [entries, Parser.listUpTo]
  simp only [run_bind, run_ite]
  refine bind_congr fun b => ?_
  split
  · rfl
  · refine bind_congr fun first => ?_
    cases first with
    | none => rfl
    | some first => simp

private theorem run_dictEntries :
    (dictEntries d).run (round f k) = Parser.dictEntriesUpTo (nested f d) (k + 1) := by
  simp [dictEntries, Parser.dictEntriesUpTo]

private theorem run_trailers (start : Nat) (expr : NodeId) :
    (trailers d start expr).run (round f k) =
      Parser.trailersUpTo (nested f d) start (k + 1) expr := by
  rw [trailers, Parser.trailersUpTo, run_bind]
  refine bind_congr fun κ => ?_
  split
  case h_4 => first | (split <;> first | contradiction | rfl) | rfl
  all_goals
    simp
    try rfl

private theorem run_factors :
    (factors d).run (round f k) = Parser.factorUpTo (nested f d) (k + 1) := by
  rw [factors, Parser.factorUpTo]
  simp only [run_bind]
  refine bind_congr fun start => bind_congr fun κ => ?_
  cases Parser.signOf? κ with
  | some op => rfl
  | none => simp

private theorem run_operationsRest (ls : List Level) (level : Level) (start : Nat) (left : NodeId) :
    (operationsRest ls level d start left).run (round f k) =
      Parser.operationsUpTo level (ls.foldr Parser.operations (Parser.factor (nested f d))) start
        (k + 1) left := by
  rw [operationsRest, Parser.operationsUpTo, run_bind]
  refine bind_congr fun κ => ?_
  cases level.operator? κ <;> rfl

private theorem run_comparisons :
    (comparisons d).run (round f k) = Parser.comparisonsUpTo (nested f d) (k + 1) := by
  rw [comparisons, Parser.comparisonsUpTo, run_bind, run_comparisonOp]
  refine bind_congr fun found => ?_
  cases found with
  | none => rfl
  | some found => simp [Parser.bitOr]

private theorem run_negations :
    (negations d).run (round f k) = Parser.negationUpTo (nested f d) (k + 1) := by
  simp [negations, Parser.negationUpTo]

private theorem run_importLevel : importLevel.run (round f k) = Parser.importLevelUpTo (k + 1) := by
  rw [importLevel, Parser.importLevelUpTo, run_bind]
  refine bind_congr fun κ => ?_
  split
  case h_3 => first | (split <;> first | contradiction | rfl) | rfl
  all_goals rfl

private theorem run_simpleStatements :
    simpleStatements.run (round f k) = Parser.simpleStatementsUpTo (k + 1) := by
  simp [simpleStatements, Parser.simpleStatementsUpTo]

private theorem run_ifStatement :
    ifStatement.run (round f k) =
      Parser.ifStatementUpTo (Parser.statementsUpTo f) (k + 1) := by
  simp [ifStatement, Parser.ifStatementUpTo]

private theorem run_handlers :
    handlers.run (round f k) = Parser.handlersUpTo (Parser.statementsUpTo f) (k + 1) := by
  simp [handlers, Parser.handlersUpTo]

/-! ### Expressions -/

private theorem run_tooDeep : tooDeep.run (solve f) = Parser.tooDeep := by
  simp [tooDeep, Parser.tooDeep, Parser.skipLine]

private theorem run_starOr (item : Program Production NodeId) :
    (starOr d item).run (solve f) = Parser.starOr (nested f d) (item.run (solve f)) := by
  simp [starOr, Parser.starOr]

private theorem run_tupleOf (stop : TokenKind → Bool) (i : Item) :
    (tupleOf stop i).run (solve f) = Parser.tupleOf (Parser.peek stop) (i.parser f) := by
  simp [tupleOf, Parser.tupleOf, Parser.afterCommas]

private theorem run_argument : (argument d).run (solve f) = Parser.argument (nested f d) := by
  simp [argument, Parser.argument]

private theorem run_parameter (annotated : Bool) :
    (parameter d annotated).run (solve f) = Parser.parameter (nested f d) annotated := by
  rw [parameter, Parser.parameter]
  simp only [run_bind, run_parameterForm]
  refine bind_congr fun start => bind_congr fun form => ?_
  cases form with
  | none => rfl
  | some form => cases form <;> simp

private theorem run_strings : strings.run (solve f) = Parser.strings := by
  simp [strings, Parser.strings]

private theorem run_parenthesized :
    (parenthesized d).run (solve f) = Parser.parenthesized (nested f d) := by
  simp [parenthesized, Parser.parenthesized, Item.parser, Parser.afterCommas]

private theorem run_listDisplay :
    (listDisplay d).run (solve f) = Parser.listDisplay (nested f d) := by
  simp [listDisplay, Parser.listDisplay, ListEntry.parser]

private theorem run_dictEntry (key : Option NodeId) :
    (dictEntry d key).run (solve f) = Parser.dictEntry (nested f d) key := by
  cases key <;> rfl

private theorem run_dictDisplay (start : Nat) (key : Option NodeId) :
    (dictDisplay d start key).run (solve f) = Parser.dictDisplay (nested f d) start key := by
  simp [dictDisplay, Parser.dictDisplay]

private theorem run_braced : (braced d).run (solve f) = Parser.braced (nested f d) := by
  simp [braced, Parser.braced, Item.parser, Parser.afterCommas]

private theorem run_atom : (atom d).run (solve f) = Parser.atom (nested f d) := by
  rw [atom, Parser.atom, run_bind]
  refine bind_congr fun κ => ?_
  split
  case h_11 => exact run_parenthesized
  case h_12 => exact run_listDisplay
  case h_13 => exact run_braced
  case h_14 => first | (split <;> first | contradiction | exact run_missing) | exact run_missing
  all_goals rfl

private theorem run_sliceItem : (sliceItem d).run (solve f) = Parser.sliceItem (nested f d) := by
  simp only [sliceItem, Parser.sliceItem, run_bind, run_start, run_optional, run_follow, run_isAt,
    run_pure, run_eat, solve, Production.parser, Item.parser, bind_remaining]
  refine bind_congr fun start => bind_congr fun lower => bind_congr fun isSlice => ?_
  cases lower with
  | none => simp [sliceBound, Parser.sliceBound]
  | some index =>
    cases isSlice with
    | false => rfl
    | true => simp [sliceBound, Parser.sliceBound]

private theorem run_primary : (primary d).run (solve f) = Parser.primary (nested f d) := by
  simp [primary, Parser.primary]

private theorem run_operations (ls : List Level) :
    (operations d ls).run (solve f) =
      ls.foldr Parser.operations (Parser.factor (nested f d)) := by
  cases ls <;> rfl

private theorem run_comparison :
    (comparison d).run (solve f) = Parser.comparison (nested f d) := by
  simp [comparison, Parser.comparison, Parser.bitOr]

private theorem run_connective (word : Keyword) (op : BoolOp) (i : Item) :
    (connective word op i).run (solve f) = Parser.connective word op (i.parser f) := by
  simp [connective, Parser.connective, Parser.afterEach]

private theorem run_lambdaExpression :
    (lambdaExpression d).run (solve f) = Parser.lambdaExpression (nested f d) := by
  simp [lambdaExpression, Parser.lambdaExpression, ListEntry.parser]

private theorem run_conditional :
    (conditional d).run (solve f) = Parser.conditional (nested f d) := by
  simp [conditional, Parser.conditional, run_lambdaExpression]

private theorem run_expression : (expression d).run (solve f) = Parser.expressionAt (f + 1) d := by
  rw [expression, run_ite]
  funext s
  rw [Parser.expressionAt]
  split <;> rfl

/-! ### Simple statements -/

private theorem run_returnStatement : returnStatement.run (solve f) = Parser.returnStatement := by
  simp [returnStatement, Parser.returnStatement]

private theorem run_raiseStatement : raiseStatement.run (solve f) = Parser.raiseStatement := by
  simp [raiseStatement, Parser.raiseStatement]

private theorem run_assertStatement : assertStatement.run (solve f) = Parser.assertStatement := by
  simp [assertStatement, Parser.assertStatement]

private theorem run_deleteStatement : deleteStatement.run (solve f) = Parser.deleteStatement := by
  simp only [deleteStatement, Parser.deleteStatement, run_bind, run_start, run_bump, run_follow,
    solve, Production.parser, bind_remaining, run_checkTarget, run_dataOf]
  refine bind_congr fun start => bind_congr fun _ => bind_congr fun target =>
    bind_congr fun _ => bind_congr fun data => ?_
  split
  case h_1 => rfl
  case h_2 hdata => first | (split <;> first | exact absurd rfl (hdata _) | rfl) | rfl

private theorem run_importedNames : importedNames.run (solve f) = Parser.importedNames := by
  simp [importedNames, Parser.importedNames, ListEntry.parser]

theorem run_namesAfter_dot : (namesAfter (.sign .dot)).run (solve f) = Parser.dottedName := rfl

private theorem run_fromStatement : fromStatement.run (solve f) = Parser.fromStatement := by
  simp [fromStatement, Parser.fromStatement, run_importedNames, run_namesAfter_dot]

private theorem run_annotatedAssignment (start : Nat) (target : NodeId) :
    (annotatedAssignment start target).run (solve f) =
      Parser.annotatedAssignment start target := by
  simp [annotatedAssignment, Parser.annotatedAssignment]

private theorem run_augmentedAssignment (start : Nat) (target : NodeId) (op : BinaryOp) :
    (augmentedAssignment start target op).run (solve f) =
      Parser.augmentedAssignment start target op := by
  simp [augmentedAssignment, Parser.augmentedAssignment]

private theorem run_expressionStatement :
    expressionStatement.run (solve f) = Parser.expressionStatement := by
  simp only [expressionStatement, Parser.expressionStatement, run_bind, run_ite, run_start, run_eat,
    run_kind, run_follow, solve, Production.parser, bind_remaining, run_annotatedAssignment]
  refine bind_congr fun start => bind_congr fun first => bind_congr fun annotated => ?_
  split
  · rfl
  · refine bind_congr fun κ => ?_
    cases Parser.augmentedOperator? κ with
    | some op => exact run_augmentedAssignment start first op
    | none => simp [Parser.afterEach, Item.parser]

private theorem run_simpleStatement : simpleStatement.run (solve f) = Parser.simpleStatement := by
  rw [simpleStatement, Parser.simpleStatement, run_bind]
  refine bind_congr fun κ => ?_
  split
  case h_4 => exact run_returnStatement
  case h_5 => exact run_raiseStatement
  case h_6 => exact run_assertStatement
  case h_7 => exact run_deleteStatement
  case h_11 => exact run_fromStatement
  case h_12 =>
    first
    | (split <;> first | contradiction | exact run_expressionStatement)
    | exact run_expressionStatement
  all_goals rfl

private theorem run_simpleLine : simpleLine.run (solve f) = Parser.simpleLine := by
  simp [simpleLine, Parser.simpleLine, Parser.skipLine]

/-! ### Compound statements -/

private theorem run_block :
    block.run (solve f) = Parser.block (Parser.statementsUpTo f) := by
  simp [block, Parser.block]

private theorem run_colonBlock :
    colonBlock.run (solve f) = Parser.colonBlock (Parser.statementsUpTo f) := by
  simp [colonBlock, Parser.colonBlock, Parser.skipLine]

private theorem run_elseBlock :
    elseBlock.run (solve f) = Parser.elseBlock (Parser.statementsUpTo f) := by
  simp [elseBlock, Parser.elseBlock]

private theorem run_whileStatement :
    whileStatement.run (solve f) = Parser.whileStatement (Parser.statementsUpTo f) := by
  simp [whileStatement, Parser.whileStatement]

private theorem run_forStatement :
    forStatement.run (solve f) = Parser.forStatement (Parser.statementsUpTo f) := by
  simp [forStatement, Parser.forStatement]

private theorem run_tryStatement :
    tryStatement.run (solve f) = Parser.tryStatement (Parser.statementsUpTo f) := by
  simp [tryStatement, Parser.tryStatement]

private theorem run_withItem : withItem.run (solve f) = Parser.withItem := by
  simp only [withItem, Parser.withItem, run_bind, run_optional, run_start, run_eat, run_follow,
    run_checkTargets, run_finish, solve, Production.parser, bind_remaining]
  refine bind_congr fun start => bind_congr fun context => bind_congr fun target => ?_
  cases target <;> rfl

private theorem run_withStatement :
    withStatement.run (solve f) = Parser.withStatement (Parser.statementsUpTo f) := by
  simp [withStatement, Parser.withStatement, Parser.afterEach, Item.parser]

private theorem run_functionStatement (decorators : List NodeId) (start : Nat) :
    (functionStatement decorators start).run (solve f) =
      Parser.functionStatement (Parser.statementsUpTo f) decorators start := by
  simp [functionStatement, Parser.functionStatement, Parser.inStatement]

private theorem run_classStatement (decorators : List NodeId) (start : Nat) :
    (classStatement decorators start).run (solve f) =
      Parser.classStatement (Parser.statementsUpTo f) decorators start := by
  simp [classStatement, Parser.classStatement, Parser.inStatement]

private theorem run_decorator : decorator.run (solve f) = Parser.decorator := by
  simp [decorator, Parser.decorator, Parser.skipLine]

private theorem run_decoratedStatement :
    decoratedStatement.run (solve f) =
      Parser.decoratedStatement (Parser.statementsUpTo f) := by
  simp only [decoratedStatement, Parser.decoratedStatement, Parser.afterEach, run_bind, run_start,
    run_kind, run_follow, solve, Production.parser, Item.parser, bind_assoc]
  refine bind_congr fun start => bind_congr fun _ => bind_congr fun decorators =>
    bind_congr fun κ => ?_
  split
  case h_3 => first | (split <;> first | contradiction | simp) | simp
  all_goals simp

private theorem run_statement :
    statement.run (solve f) = Parser.statement (Parser.statementsUpTo f) := by
  rw [statement, Parser.statement, run_bind]
  refine bind_congr fun κ => ?_
  split
  case h_9 => first | (split <;> first | contradiction | rfl) | rfl
  all_goals simp

private theorem run_unexpectedBlock :
    unexpectedBlock.run callee = Parser.unexpectedBlock (callee _ .statements) := by
  simp [unexpectedBlock, Parser.unexpectedBlock]

private theorem run_statements : statements.run (solve f) = Parser.statementsUpTo (f + 1) := by
  funext s
  rw [statements, Parser.statementsUpTo, run_bind]
  refine congrFun (bind_congr fun κ => ?_) s
  split
  case h_4 => simp [run_unexpectedBlock]
  case h_5 => first | (split <;> first | contradiction | simp) | simp
  all_goals simp

private theorem run_operand :
    (follow (.operations Parser.levels d)).run (solve f) = bitOrAt (f + 1) d := by
  have hbitOr : (follow (.operations Parser.levels d)).run (solve f) =
      Parser.bitOr (nested f d) := by
    simp [Parser.bitOr]
  rw [hbitOr]
  funext s
  rw [Parser.bitOrAt, nested]

private theorem run_module {s : ParseState} :
    (module.run (round s.remaining k)).run s = (Parser.moduleUpTo (k + 1)).run s := by
  have hkind : Parser.kind.run s = (s.token.kind, s) := rfl
  have hremaining : Parser.remaining.run s = (s.remaining, s) := rfl
  rw [module, Parser.moduleUpTo, run_bind, run_kind, Parser.run_bind hkind, Parser.run_bind hkind]
  generalize s.token.kind = k'
  split
  case h_4 =>
    rw [Parser.run_bind hremaining, run_bind, run_unexpectedBlock]
    simp
  case h_5 =>
    first
    | (split <;> first | contradiction | rw [Parser.run_bind hremaining]; simp)
    | (rw [Parser.run_bind hremaining]; simp)
  all_goals simp

/-! ### Items and entries -/

private theorem run_item (i : Item) : i.body.run (solve f) = i.parser f := by
  cases i with
  | starOrExpression d | targetItem d => exact run_starOr _
  | sliceItem d => exact run_sliceItem
  | andTest d => exact run_connective _ _ _
  | importAlias => exact run_importAlias _
  | withItem => exact run_withItem
  | decorator => exact run_decorator
  | negation d | name | starExpressions => rfl

private theorem run_entry (e : ListEntry) : e.body.run (solve f) = e.parser f := by
  cases e with
  | argument d => exact run_argument
  | parameter d annotated => exact run_parameter annotated
  | element d => rfl
  | importedName => simp [ListEntry.body, ListEntry.parser]

end Program

/-! ## Rules with enough fuel -/

namespace Production

open Program

variable {α : Type} {s : ParseState} {f k : Nat} {r : Production α}

/-- The fuel and the rounds outlast the tokens. -/
structure Enough (r : Production α) (f k : Nat) (s : ParseState) : Prop where
  fuel : s.remaining + r.need ≤ f + 1
  rounds : r.isLoop = true → s.remaining ≤ k

/-- The parser for a rule does what its body does, if the called rules are given so much fuel and so
many rounds; and these are enough for all of them. -/
inductive Unfolds (r : Production α) (f k : Nat) (s : ParseState) : Prop
  | solve (fuel : Nat) (hfuel : s.remaining + r.leeway ≤ fuel + 1)
      (hrun : (r.body.run (solve fuel)).run s = (r.parser f k).run s)
  | round (fuel rounds : Nat) (hfuel : s.remaining + r.leeway ≤ fuel + 1)
      (hloop : r.isLoop = true) (hrounds : s.remaining ≤ rounds + 1)
      (hrun : (r.body.run (round fuel rounds)).run s = (r.parser f k).run s)

private theorem Unfolds.plain (hleeway : r.leeway = r.need) (h : r.Enough f k s)
    (hrun : r.body.run (Production.solve f) = r.parser f k) : r.Unfolds f k s :=
  .solve f (hleeway ▸ h.fuel) (congrFun hrun s)

private theorem Unfolds.loop (hloop : r.isLoop = true) (hleeway : r.leeway = r.need)
    (h : r.Enough f k s)
    (hs : s.Inside) (hrun : ∀ {k}, r.body.run (Production.round f k) = r.parser f (k + 1)) :
    r.Unfolds f k s := by
  obtain ⟨n, rfl⟩ := Nat.exists_eq_add_of_le' (Nat.le_trans hs.remaining_pos (h.rounds hloop))
  exact .round f n (hleeway ▸ h.fuel) hloop (h.rounds hloop) (congrFun hrun s)

private theorem Unfolds.knot (hneed : r.need = 1) (hleeway : r.leeway = 0) (h : r.Enough f k s)
    (hs : s.Inside) (hrun : ∀ {f}, r.body.run (Production.solve f) = r.parser (f + 1) k) :
    r.Unfolds f k s := by
  have hfuel := h.fuel
  rw [hneed] at hfuel
  obtain ⟨n, rfl⟩ := Nat.exists_eq_add_of_le'
    (Nat.le_trans hs.remaining_pos (Nat.le_of_succ_le_succ hfuel))
  exact .solve n (hleeway ▸ Nat.le_of_succ_le_succ hfuel) (congrFun hrun s)

private theorem Unfolds.top {r' : Production α} {rule : Nested → Parser α} (hleeway : r.leeway = 1)
    (hbody : r.body = follow r') (hparser : r.parser f k = Parser.inStatement rule)
    (hrule : ∀ fuel rounds, r'.parser fuel rounds = rule (nested fuel 0)) : r.Unfolds f k s := by
  have hremaining : Parser.remaining.run s = (s.remaining, s) := rfl
  refine .solve (s.remaining + 1) (by rw [hleeway]; exact Nat.le_succ _) ?_
  rw [hbody, hparser, run_follow, Production.solve, Parser.run_bind hremaining, hrule,
    Parser.inStatement, Parser.run_bind hremaining]
  rfl

/-- With enough fuel every rule does what its body does. -/
theorem unfolds (r : Production α) (hs : s.Inside) (h : r.Enough f k s) : r.Unfolds f k s := by
  cases r with
  | skipLine => exact .loop rfl rfl h hs run_skipLine
  | stringValues => exact .loop rfl rfl h hs run_stringValues
  | strings => exact .plain rfl h run_strings
  | afterCommas stop i => exact .loop rfl rfl h hs (run_afterCommas _ _)
  | afterEach mark i => exact .loop rfl rfl h hs (run_afterEach _ _)
  | entries stop e => exact .loop rfl rfl h hs (run_entries _ _)
  | list stop e => exact .plain rfl h rfl
  | item i => exact .plain rfl h (run_item _)
  | entry e => exact .plain rfl h (run_entry _)
  | tooDeep => exact .plain rfl h run_tooDeep
  | atom d => exact .plain rfl h run_atom
  | dictEntry d key => exact .plain rfl h (run_dictEntry _)
  | dictEntries d => exact .loop rfl rfl h hs run_dictEntries
  | dictDisplay d start key => exact .plain rfl h (run_dictDisplay _ _)
  | starExpressions d => exact .plain rfl h (run_tupleOf _ _)
  | targetList d => exact .plain rfl h (run_tupleOf _ _)
  | subscriptIndex d => exact .plain rfl h (run_tupleOf _ _)
  | trailers d start expr => exact .loop rfl rfl h hs (run_trailers _ _)
  | primary d => exact .plain rfl h run_primary
  | factors d => exact .loop rfl rfl h hs run_factors
  | factor d => exact .plain rfl h rfl
  | operationsRest ls level d start left => exact .loop rfl rfl h hs (run_operationsRest _ _ _ _)
  | operations ls d => exact .plain rfl h (run_operations _)
  | comparisons d => exact .loop rfl rfl h hs run_comparisons
  | comparison d => exact .plain rfl h run_comparison
  | negations d => exact .loop rfl rfl h hs run_negations
  | orTest d => exact .plain rfl h (run_connective _ _ _)
  | conditional d => exact .plain rfl h run_conditional
  | expression d => exact .knot rfl rfl h hs run_expression
  | operand d => exact .knot rfl rfl h hs run_operand
  | topExpression => exact .top rfl rfl rfl fun _ _ => rfl
  | topStarExpressions => exact .top rfl rfl rfl fun _ _ => rfl
  | topTargetList => exact .top rfl rfl rfl fun _ _ => rfl
  | topBitOr => exact .top rfl rfl rfl fun _ _ => rfl
  | topParameters =>
    have hparser : topParameters.parser f k =
        Parser.inStatement fun n => Parser.parameters n Symbol.closeParen true := rfl
    exact .top rfl rfl hparser fun _ _ => rfl
  | topArguments => exact .top rfl rfl rfl fun _ _ => rfl
  | importLevel => exact .loop rfl rfl h hs run_importLevel
  | simpleStatement => exact .plain rfl h run_simpleStatement
  | simpleStatements => exact .loop rfl rfl h hs run_simpleStatements
  | simpleLine => exact .plain rfl h run_simpleLine
  | block => exact .plain rfl h run_block
  | colonBlock => exact .plain rfl h run_colonBlock
  | elseBlock => exact .plain rfl h run_elseBlock
  | ifStatement => exact .loop rfl rfl h hs run_ifStatement
  | whileStatement => exact .plain rfl h run_whileStatement
  | forStatement => exact .plain rfl h run_forStatement
  | handlers => exact .loop rfl rfl h hs run_handlers
  | tryStatement => exact .plain rfl h run_tryStatement
  | withStatement => exact .plain rfl h run_withStatement
  | functionStatement decorators start => exact .plain rfl h (run_functionStatement _ _)
  | classStatement decorators start => exact .plain rfl h (run_classStatement _ _)
  | decoratedStatement => exact .plain rfl h run_decoratedStatement
  | statement => exact .plain rfl h run_statement
  | statements => exact .knot rfl rfl h hs run_statements
  | module =>
    obtain ⟨n, rfl⟩ := Nat.exists_eq_add_of_le' (Nat.le_trans hs.remaining_pos (h.rounds rfl))
    exact .round s.remaining n (Nat.le_succ _) rfl (h.rounds rfl) run_module

end Production
end LiveCheck
