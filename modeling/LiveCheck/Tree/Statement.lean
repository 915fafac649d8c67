import LiveCheck.Tree.Expression

/-!
# Statements

The grammar of statements. A problem stays within its logical line: the rest of the line is skipped
and the next one is read afresh. The rules for compound statements take the parser for the
statements of a block as an argument; `statementsUpTo` ties the knot.
-/

namespace LiveCheck.Parser

/-! ## Simple statements -/

/-- Records the targets that nothing can be assigned to, looking into tuples and lists at most
`fuel` levels deep. -/
def checkTargetUpTo : Nat → NodeId → Parser Unit
  | 0, _ => return
  | fuel + 1, target => do
    match ← dataOf target with
    | none => return
    | some (.name _) | some (.member _ _) | some (.subscript _ _) | some .malformed => return
    | some (.tuple elts) | some (.list elts) => elts.forM (checkTargetUpTo fuel)
    | some (.starred value) => checkTargetUpTo fuel value
    | some _ => report Code.invalidAssignmentTarget ((← get).arena.span target) none

def checkTarget (target : NodeId) : Parser Unit := do
  checkTargetUpTo (← get).arena.size target

/-- Records a target that is not a single place. -/
def checkPlace (target : NodeId) : Parser Unit := do
  let isPlace := ((← dataOf target).map NodeData.isPlace).getD false
  if !isPlace then report Code.invalidAssignmentTarget ((← get).arena.span target) none

def keywordStatement (data : NodeData) : Parser NodeId := do
  let start ← start
  let _ ← bump
  finish data start

/-- `return` with an optional value. -/
def returnStatement : Parser NodeId := do
  let start ← start
  let _ ← bump
  let value ← optional atExpression (inStatement starExpressions)
  finish (.returnStmt value) start

/-- `raise` with an optional exception, which may have a cause. -/
def raiseStatement : Parser NodeId := do
  let start ← start
  let _ ← bump
  let exc ← optional atExpression expression
  let cause ← if exc.isSome then optional (eat Keyword.fromKw) expression else pure none
  finish (.raiseStmt exc cause) start

/-- `assert` with an optional message. -/
def assertStatement : Parser NodeId := do
  let start ← start
  let _ ← bump
  let test ← expression
  let msg ← optional (eat Symbol.comma) expression
  finish (.assertStmt test msg) start

/-- `del`: the elements of a tuple are deleted one by one. -/
def deleteStatement : Parser NodeId := do
  let start ← start
  let _ ← bump
  let target ← inStatement targetList
  checkTarget target
  match ← dataOf target with
  | some (.tuple elts) => finish (.deleteStmt elts) start
  | _ => finish (.deleteStmt [target]) start

def nameList : Parser (List NodeId) := do
  let first ← name
  let others ← afterEach Symbol.comma name
  return first :: others

def globalStatement : Parser NodeId := do
  let start ← start
  let _ ← bump
  finish (.globalStmt (← nameList)) start

def nonlocalStatement : Parser NodeId := do
  let start ← start
  let _ ← bump
  finish (.nonlocalStmt (← nameList)) start

def dottedName : Parser (List NodeId) := do
  let first ← name
  let others ← afterEach Symbol.dot name
  return first :: others

/-- An imported path with an optional new name. -/
def importAlias (path : Parser (List NodeId)) : Parser NodeId := do
  let start ← start
  let path ← path
  let asname ← optional (eat Keyword.asKw) name
  finish (.importAlias path asname) start

def importStatement : Parser NodeId := do
  let start ← start
  let _ ← bump
  let first ← importAlias dottedName
  let others ← afterEach Symbol.comma (importAlias dottedName)
  finish (.importStmt (first :: others)) start

/-- The number of dots before the module of an import; at most `fuel` tokens are read. -/
def importLevelUpTo : Nat → Parser Nat
  | 0 => return 0
  | fuel + 1 => do
    match ← kind with
    | .symbol .dot =>
      let _ ← bump
      return 1 + (← importLevelUpTo fuel)
    | .symbol .ellipsis =>
      let _ ← bump
      return 3 + (← importLevelUpTo fuel)
    | _ => return 0

def importedNames : Parser (List NodeId) := do
  let open' ← eat Symbol.openParen
  let names ← list (return !(← isAt .name)) (some <$> importAlias (return [← name]))
  if names.isEmpty then reportHere Code.expectedName none
  if open' then
    let _ ← expect Symbol.closeParen
  return names

def fromStatement : Parser NodeId := do
  let start ← start
  let _ ← bump
  let level ← importLevelUpTo (← remaining)
  let path ← if level == 0 || (← isAt .name) then dottedName else pure []
  let _ ← expect Keyword.importKw
  if ← eat Symbol.star then finish (.importFrom path level [] true) start
  else
    let names ← importedNames
    finish (.importFrom path level names false) start

def operatorOf? : Symbol → Option BinaryOp
  | .plus => some .add
  | .minus => some .sub
  | .star => some .mul
  | .doubleStar => some .pow
  | .slash => some .div
  | .doubleSlash => some .floorDiv
  | .percent => some .mod
  | .pipe => some .bitOr
  | .ampersand => some .bitAnd
  | .caret => some .bitXor
  | .leftShift => some .shiftLeft
  | .rightShift => some .shiftRight
  | .atSign => some .matMul
  | _ => none

/-- The operator of an augmented assignment at a token of this kind. -/
def augmentedOperator? : TokenKind → Option BinaryOp
  | .symbol mark => mark.augmented?.bind operatorOf?
  | _ => none

/-- An assignment with an annotation, behind its colon. -/
def annotatedAssignment (start : Nat) (target : NodeId) : Parser NodeId := do
  checkPlace target
  let annotation ← expression
  let value ← optional (eat Symbol.equals) (inStatement starExpressions)
  finish (.annAssign target annotation value) start

def augmentedAssignment (start : Nat) (target : NodeId) (op : BinaryOp) : Parser NodeId := do
  let _ ← bump
  checkPlace target
  let value ← inStatement starExpressions
  finish (.augAssign target op value) start

/-- An assignment whose sides, the value last, have been read. -/
def assignment (start : Nat) (first : NodeId) (others : List NodeId) : Parser NodeId := do
  let targets := (first :: others).dropLast
  targets.forM checkTarget
  finish (.assign targets (others.getLastD first)) start

/-- An expression, or an assignment in one of its three forms. -/
def expressionStatement : Parser NodeId := do
  let start ← start
  let first ← inStatement starExpressions
  if ← eat Symbol.colon then annotatedAssignment start first
  else
    match augmentedOperator? (← kind) with
    | some op => augmentedAssignment start first op
    | none =>
      if ← isAt Symbol.equals then
        let others ← afterEach Symbol.equals (inStatement starExpressions)
        assignment start first others
      else finish (.exprStmt first) start

/-- A statement that fits into a line. -/
def simpleStatement : Parser NodeId := do
  match ← kind with
  | .keyword .passKw => keywordStatement .pass
  | .keyword .breakKw => keywordStatement .breakLoop
  | .keyword .continueKw => keywordStatement .continueLoop
  | .keyword .returnKw => returnStatement
  | .keyword .raiseKw => raiseStatement
  | .keyword .assertKw => assertStatement
  | .keyword .delKw => deleteStatement
  | .keyword .globalKw => globalStatement
  | .keyword .nonlocalKw => nonlocalStatement
  | .keyword .importKw => importStatement
  | .keyword .fromKw => fromStatement
  | _ => expressionStatement

/-- Statements with semicolons between them, at most `fuel` of them. -/
def simpleStatementsUpTo : Nat → Parser (List NodeId)
  | 0 => return []
  | fuel + 1 => do
    let first ← simpleStatement
    if (← eat Symbol.semicolon) && !(← atLineEnd) then
      let others ← simpleStatementsUpTo fuel
      return first :: others
    else return [first]

/-- The statements of a logical line. What is left of the line is skipped; it is a problem of its
own if there was none before. -/
def simpleLine : Parser (List NodeId) := do
  let before ← problems
  let body ← simpleStatementsUpTo (← remaining)
  if !(← atLineEnd) then
    if (← problems) == before then
      let token ← current
      report Code.unexpectedToken token.span (some token.text)
    skipLine
  let _ ← eat .newline
  return body

/-! ## Compound statements -/

/-- The body of a compound statement behind its colon: a line, or a block. -/
def block (statements : Parser (List NodeId)) : Parser (List NodeId) := do
  if ← eat .newline then
    if ← eat .indent then
      let body ← statements
      let _ ← eat .dedent
      return body
    else
      reportHere Code.expectedIndentedBlock none
      return []
  else if ← atLineEnd then
    reportHere Code.expectedIndentedBlock none
    return []
  else simpleLine

/-- The colon and the body of a compound statement. -/
def colonBlock (statements : Parser (List NodeId)) : Parser (List NodeId) := do
  if !(← expect Symbol.colon) then skipLine
  block statements

def elseBlock (statements : Parser (List NodeId)) : Parser (List NodeId) := do
  if ← eat Keyword.elseKw then colonBlock statements else return []

def ifStatementUpTo (statements : Parser (List NodeId)) : Nat → Parser NodeId
  | 0 => missing
  | fuel + 1 => do
    let start ← start
    let _ ← bump
    let test ← expression
    let body ← colonBlock statements
    let orelse ←
      if ← isAt Keyword.elifKw then List.singleton <$> ifStatementUpTo statements fuel
      else elseBlock statements
    finish (.ifStmt test body orelse) start

def whileStatement (statements : Parser (List NodeId)) : Parser NodeId := do
  let start ← start
  let _ ← bump
  let test ← expression
  let body ← colonBlock statements
  let orelse ← elseBlock statements
  finish (.whileLoop test body orelse) start

def forStatement (statements : Parser (List NodeId)) : Parser NodeId := do
  let start ← start
  let _ ← bump
  let target ← inStatement targetList
  checkTarget target
  let _ ← expect Keyword.inKw
  let iter ← inStatement starExpressions
  let body ← colonBlock statements
  let orelse ← elseBlock statements
  finish (.forLoop target iter body orelse) start

def handlersUpTo (statements : Parser (List NodeId)) : Nat → Parser (List NodeId)
  | 0 => return []
  | fuel + 1 => do
    let start ← start
    if ← eat Keyword.exceptKw then
      let type ← optional (return !(← isAt Symbol.colon)) expression
      let caught ← optional (eat Keyword.asKw) name
      let body ← colonBlock statements
      let first ← finish (.handler type caught body) start
      let others ← handlersUpTo statements fuel
      return first :: others
    else return []

/-- `try`, which needs a handler or a final block. -/
def tryStatement (statements : Parser (List NodeId)) : Parser NodeId := do
  let start ← start
  let _ ← bump
  let body ← colonBlock statements
  let handlers ← handlersUpTo statements (← remaining)
  let orelse ← elseBlock statements
  let finalbody ← if ← eat Keyword.finallyKw then colonBlock statements else pure []
  if handlers.isEmpty && finalbody.isEmpty then
    reportHere Code.expectedToken (some Keyword.exceptKw.text)
  finish (.tryStmt body handlers orelse finalbody) start

def withItem : Parser NodeId := do
  let start ← start
  let context ← expression
  let target ← optional (eat Keyword.asKw) (inStatement bitOr)
  target.forM checkTarget
  finish (.withItem context target) start

def withStatement (statements : Parser (List NodeId)) : Parser NodeId := do
  let start ← start
  let _ ← bump
  let first ← withItem
  let others ← afterEach Symbol.comma withItem
  let body ← colonBlock statements
  finish (.withStmt (first :: others) body) start

/-- `def`, behind its decorators. -/
def functionStatement (statements : Parser (List NodeId)) (decorators : List NodeId)
    (start : Nat) : Parser NodeId := do
  let _ ← bump
  let defined ← name
  let params ←
    if ← expect Symbol.openParen then
      let params ← inStatement fun n => parameters n Symbol.closeParen true
      let _ ← expect Symbol.closeParen
      pure params
    else pure []
  let returns ← optional (eat Symbol.arrow) expression
  let body ← colonBlock statements
  finish (.functionDef decorators defined params returns body) start

/-- `class`, behind its decorators. -/
def classStatement (statements : Parser (List NodeId)) (decorators : List NodeId)
    (start : Nat) : Parser NodeId := do
  let _ ← bump
  let defined ← name
  let bases ←
    if ← eat Symbol.openParen then
      let bases ← inStatement arguments
      let _ ← expect Symbol.closeParen
      pure bases
    else pure []
  let body ← colonBlock statements
  finish (.classDef decorators defined bases body) start

/-- A decorator behind its `@`, with the end of its line. -/
def decorator : Parser NodeId := do
  let value ← expression
  if !(← eat .newline) then
    reportHere Code.expectedToken (some TokenKind.newline.text)
    skipLine
    let _ ← eat .newline
  return value

def decoratedStatement (statements : Parser (List NodeId)) : Parser NodeId := do
  let start ← start
  let decorators ← afterEach Symbol.atSign decorator
  match ← kind with
  | .keyword .defKw => functionStatement statements decorators start
  | .keyword .classKw => classStatement statements decorators start
  | _ =>
    reportHere Code.expectedToken (some Keyword.defKw.text)
    finish .malformed start

def statement (statements : Parser (List NodeId)) : Parser (List NodeId) := do
  match ← kind with
  | .keyword .ifKw => List.singleton <$> ifStatementUpTo statements (← remaining)
  | .keyword .whileKw => List.singleton <$> whileStatement statements
  | .keyword .forKw => List.singleton <$> forStatement statements
  | .keyword .tryKw => List.singleton <$> tryStatement statements
  | .keyword .withKw => List.singleton <$> withStatement statements
  | .keyword .defKw => List.singleton <$> functionStatement statements [] (← start)
  | .keyword .classKw => List.singleton <$> classStatement statements [] (← start)
  | .symbol .atSign => List.singleton <$> decoratedStatement statements
  | _ => simpleLine

/-- A block that nothing announced; its statements are read all the same. -/
def unexpectedBlock (statements : Parser (List NodeId)) : Parser (List NodeId) := do
  reportHere Code.unexpectedIndent none
  let _ ← bump
  let body ← statements
  let _ ← eat .dedent
  return body

/-- The statements up to the end of a block. The fuel bounds their number and their nesting; the
number of tokens left is always enough, since every statement takes a token. -/
def statementsUpTo (fuel : Nat) (s : ParseState) : List NodeId × ParseState :=
  match fuel with
  | 0 => ([], s)
  | fuel + 1 =>
    let rule : Parser (List NodeId) := do
      match ← kind with
      | .endOfFile | .dedent => return []
      | .newline =>
        let _ ← bump
        statementsUpTo fuel
      | .indent =>
        let first ← unexpectedBlock (statementsUpTo fuel)
        let others ← statementsUpTo fuel
        return first ++ others
      | _ =>
        let first ← statement (statementsUpTo fuel)
        let others ← statementsUpTo fuel
        return first ++ others
    rule s

/-- The statements of a module. A dedent that closes nothing is skipped. -/
def moduleUpTo : Nat → Parser (List NodeId)
  | 0 => return []
  | fuel + 1 => do
    match ← kind with
    | .endOfFile => return []
    | .newline | .dedent =>
      let _ ← bump
      moduleUpTo fuel
    | .indent =>
      let first ← unexpectedBlock (statementsUpTo (← remaining))
      let others ← moduleUpTo fuel
      return first ++ others
    | _ =>
      let first ← statement (statementsUpTo (← remaining))
      let others ← moduleUpTo fuel
      return first ++ others

end LiveCheck.Parser
