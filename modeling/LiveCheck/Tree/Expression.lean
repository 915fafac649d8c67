import LiveCheck.Limits
import LiveCheck.Tree.Parser

/-!
# Expressions

The grammar of expressions, loosest operators first: conditional, `or`, `and`, `not`, comparisons,
`|`, `^`, `&`, shifts, sums, products, signs, powers, then calls, subscripts and attributes, then
atoms. The rules below take the parsers for the expressions nested in them as an argument;
`expressionAt` and `bitOrAt` tie the knot. At most `Limits.parseDepth` expressions nest; a deeper
one is a problem and swallows the rest of its line.
-/

namespace LiveCheck.Parser

/-- The parsers for what is nested in an expression. -/
structure Nested where
  expression : Parser NodeId
  /-- An expression without comparisons and connectives. -/
  bitOr : Parser NodeId

/-- Whether an expression can begin with a token of this kind. -/
def startsExpression : TokenKind → Bool
  | .name | .int | .float | .complex | .string | .bytes => true
  | .keyword .trueKw | .keyword .falseKw | .keyword .noneKw | .keyword .notKw
  | .keyword .lambdaKw => true
  | .symbol .ellipsis | .symbol .openParen | .symbol .openBracket | .symbol .openBrace
  | .symbol .minus | .symbol .plus | .symbol .tilde | .symbol .star => true
  | _ => false

/-- Whether an expression begins here. -/
def atExpression : Parser Bool := return startsExpression (← kind)

/-- Whether no expression begins here. -/
def notAtExpression : Parser Bool := return !(← atExpression)

/-- An expression with an optional star before it. -/
def starOr (n : Nested) (item : Parser NodeId) : Parser NodeId := do
  if ← isAt Symbol.star then
    let start ← start
    let _ ← bump
    let value ← n.bitOr
    finish (.starred value) start
  else item

/-- An expression, or a star and an expression without comparisons. -/
def starOrExpression (n : Nested) : Parser NodeId := starOr n n.expression

/-- Items with commas between them: one alone stands for itself, more than one or a comma at the
end make a tuple. -/
def tupleOf (stop : Parser Bool) (item : Parser NodeId) : Parser NodeId := do
  let start ← start
  let first ← item
  if ← isAt Symbol.comma then
    let others ← afterCommas stop item
    finish (.tuple (first :: others)) start
  else return first

def starExpressions (n : Nested) : Parser NodeId := tupleOf notAtExpression (starOrExpression n)

def targetList (n : Nested) : Parser NodeId := tupleOf notAtExpression (starOr n n.bitOr)

/-! ## Arguments and parameters -/

/-- How the next argument is passed, and its keyword. -/
def argumentForm : Parser (ArgumentForm × Option NodeId) := do
  match ← kind with
  | .symbol .star =>
    let _ ← bump
    return (.unpack, none)
  | .symbol .doubleStar =>
    let _ ← bump
    return (.unpackDict, none)
  | .name =>
    if (← following) == .symbol .equals then
      let key ← name
      let _ ← bump
      return (.keyword, some key)
    else return (.positional, none)
  | _ => return (.positional, none)

def argument (n : Nested) : Parser (Option NodeId) := do
  let start ← start
  let (form, key) ← argumentForm
  if ← atExpression then
    let value ← n.expression
    return some (← finish (.argument form key value) start)
  else
    reportHere Code.expectedExpression none
    return none

def arguments (n : Nested) : Parser (List NodeId) :=
  list (return (← isAt Symbol.closeParen) || (← isAt .endOfFile)) (argument n)

/-- How the next parameter takes its arguments; `none` where there is no parameter. -/
def parameterForm : Parser (Option ParameterForm) := do
  match ← kind with
  | .symbol .star =>
    let _ ← bump
    return some (if ← isAt .name then .varArgs else .keywordMarker)
  | .symbol .doubleStar =>
    let _ ← bump
    return some .kwArgs
  | .symbol .slash =>
    let _ ← bump
    return some .positionalMarker
  | .name => return some .normal
  | _ =>
    reportHere Code.expectedName none
    return none

/-- One parameter; only those of a named function have annotations. -/
def parameter (n : Nested) (annotated : Bool) : Parser (Option NodeId) := do
  let start ← start
  match ← parameterForm with
  | none => return none
  | some form =>
    let declared ←
      match form with
      | .keywordMarker | .positionalMarker => pure none
      | _ => some <$> name
    let annotation ←
      if annotated && declared.isSome then optional (eat Symbol.colon) n.expression
      else pure none
    let default ←
      if form == .normal then optional (eat Symbol.equals) n.expression else pure none
    return some (← finish (.parameter form declared annotation default) start)

/-- The parameters of a function, up to the closing token. -/
def parameters (n : Nested) (close : TokenKind) (annotated : Bool) : Parser (List NodeId) :=
  list (return (← isAt close) || (← atLineEnd)) (parameter n annotated)

/-! ## Atoms -/

/-- A literal of one token. -/
def constant (kind : ConstantKind) : Parser NodeId := do
  let start ← start
  let _ ← bump
  finish (.constant kind none) start

def stringValuesUpTo : Nat → Parser String
  | 0 => return ""
  | fuel + 1 => do
    match ← kind with
    | .string | .bytes =>
      let token ← bump
      let others ← stringValuesUpTo fuel
      return StringLiteral.decode token.text ++ others
    | _ => return ""

/-- String literals in a row, which make one constant. -/
def strings : Parser NodeId := do
  let start ← start
  let kind := if ← isAt .bytes then ConstantKind.bytes else .string
  let value ← stringValuesUpTo (← remaining)
  finish (.constant kind (some value)) start

/-- A tuple in parentheses, or an expression in parentheses, which stands for itself. -/
def parenthesized (n : Nested) : Parser NodeId := do
  let start ← start
  let _ ← bump
  if ← eat Symbol.closeParen then finish (.tuple []) start
  else
    let first ← starOrExpression n
    if ← eat Symbol.closeParen then return first
    else if ← isAt Symbol.comma then
      let others ← afterCommas (isAt Symbol.closeParen) (starOrExpression n)
      let _ ← expect Symbol.closeParen
      finish (.tuple (first :: others)) start
    else
      let _ ← expect Symbol.closeParen
      return first

def listDisplay (n : Nested) : Parser NodeId := do
  let start ← start
  let _ ← bump
  let elts ← list notAtExpression (some <$> starOrExpression n)
  let _ ← expect Symbol.closeBracket
  finish (.list elts) start

/-- The rest of an entry of a dictionary whose key has been read; an entry without a key unpacks a
mapping. -/
def dictEntry (n : Nested) : Option NodeId → Parser (Option NodeId × NodeId)
  | none => do
    let _ ← expect Symbol.doubleStar
    return (none, ← n.bitOr)
  | some key => do
    let _ ← expect Symbol.colon
    return (some key, ← n.expression)

def dictEntriesUpTo (n : Nested) : Nat → Parser (List (Option NodeId × NodeId))
  | 0 => return []
  | fuel + 1 => do
    if ← eat Symbol.comma then
      if ← isAt Symbol.doubleStar then
        let entry ← dictEntry n none
        let others ← dictEntriesUpTo n fuel
        return entry :: others
      else if ← atExpression then
        let key ← n.expression
        let entry ← dictEntry n (some key)
        let others ← dictEntriesUpTo n fuel
        return entry :: others
      else return []
    else return []

/-- A dictionary whose first key has been read. -/
def dictDisplay (n : Nested) (start : Nat) (key : Option NodeId) : Parser NodeId := do
  let first ← dictEntry n key
  let others ← dictEntriesUpTo n (← remaining)
  let _ ← expect Symbol.closeBrace
  finish (.dict (first :: others)) start

/-- A dictionary or a set in braces: what follows the first expression decides. -/
def braced (n : Nested) : Parser NodeId := do
  let start ← start
  let _ ← bump
  if ← eat Symbol.closeBrace then finish (.dict []) start
  else if ← isAt Symbol.doubleStar then dictDisplay n start none
  else
    let first ← starOrExpression n
    if ← isAt Symbol.colon then dictDisplay n start (some first)
    else
      let others ← afterCommas notAtExpression (starOrExpression n)
      let _ ← expect Symbol.closeBrace
      finish (.set (first :: others)) start

/-- Stands in for an expression that is missing. A token that cannot belong to what follows is
taken. -/
def missing : Parser NodeId := do
  let token ← current
  report Code.expectedExpression token.span none
  let closes :=
    match token.kind with
    | .symbol mark => mark.closes
    | _ => false
  if !token.kind.endsLine && !closes then
    let _ ← bump
  finish .malformed token.span.start

/-- Names, literals and displays. -/
def atom (n : Nested) : Parser NodeId := do
  match ← kind with
  | .name => name
  | .int => constant .int
  | .float => constant .float
  | .complex => constant .complex
  | .string | .bytes => strings
  | .keyword .trueKw => constant .true
  | .keyword .falseKw => constant .false
  | .keyword .noneKw => constant .none
  | .symbol .ellipsis => constant .ellipsis
  | .symbol .openParen => parenthesized n
  | .symbol .openBracket => listDisplay n
  | .symbol .openBrace => braced n
  | _ => missing

/-! ## Calls, subscripts and attributes -/

def sliceBound (n : Nested) : Parser (Option NodeId) := optional atExpression n.expression

/-- One index, or a slice. -/
def sliceItem (n : Nested) : Parser NodeId := do
  let start ← start
  let lower ← optional (return !(← isAt Symbol.colon)) (starOrExpression n)
  let isSlice ← eat Symbol.colon
  match lower, isSlice with
  | some index, false => return index
  | _, _ =>
    let upper ← sliceBound n
    let step ← if ← eat Symbol.colon then sliceBound n else pure none
    finish (.slice lower upper step) start

/-- What stands in the brackets of a subscript. -/
def subscriptIndex (n : Nested) : Parser NodeId :=
  tupleOf (isAt Symbol.closeBracket) (sliceItem n)

/-- Calls, subscripts and attributes behind `expr`, at most `fuel` of them. -/
def trailersUpTo (n : Nested) (start : Nat) : Nat → NodeId → Parser NodeId
  | 0, expr => return expr
  | fuel + 1, expr => do
    match ← kind with
    | .symbol .openParen =>
      let _ ← bump
      let args ← arguments n
      let _ ← expect Symbol.closeParen
      trailersUpTo n start fuel (← finish (.call expr args) start)
    | .symbol .openBracket =>
      let _ ← bump
      let index ← subscriptIndex n
      let _ ← expect Symbol.closeBracket
      trailersUpTo n start fuel (← finish (.subscript expr index) start)
    | .symbol .dot =>
      let _ ← bump
      let attr ← name
      trailersUpTo n start fuel (← finish (.member expr attr) start)
    | _ => return expr

/-- An atom with its calls, subscripts and attributes. -/
def primary (n : Nested) : Parser NodeId := do
  let start ← start
  let expr ← atom n
  trailersUpTo n start (← remaining) expr

/-! ## Operators -/

/-- The sign that a token stands for before an operand. -/
def signOf? : TokenKind → Option UnaryOp
  | .symbol .minus => some .neg
  | .symbol .plus => some .pos
  | .symbol .tilde => some .invert
  | _ => none

/-- Signs and powers, at most `fuel` of them: a power binds tighter than the sign before it and
looser than the sign behind it. -/
def factorUpTo (n : Nested) : Nat → Parser NodeId
  | 0 => primary n
  | fuel + 1 => do
    let start ← start
    match signOf? (← kind) with
    | some op =>
      let _ ← bump
      let operand ← factorUpTo n fuel
      finish (.unary op operand) start
    | none =>
      let left ← primary n
      if ← eat Symbol.doubleStar then
        let right ← factorUpTo n fuel
        finish (.binary left .pow right) start
      else return left

def factor (n : Nested) : Parser NodeId := do factorUpTo n (← remaining)

/-- The operators of one level of precedence. -/
abbrev Level := Symbol → Option BinaryOp

/-- The levels of the operators that group to the left, the loosest first. -/
def levels : List Level :=
  [fun | .pipe => some .bitOr | _ => none,
    fun | .caret => some .bitXor | _ => none,
    fun | .ampersand => some .bitAnd | _ => none,
    fun | .leftShift => some .shiftLeft | .rightShift => some .shiftRight | _ => none,
    fun | .plus => some .add | .minus => some .sub | _ => none,
    fun
      | .star => some .mul | .slash => some .div | .doubleSlash => some .floorDiv
      | .percent => some .mod | .atSign => some .matMul | _ => none]

/-- The operator of a level that a token stands for. -/
def Level.operator? (level : Level) : TokenKind → Option BinaryOp
  | .symbol mark => level mark
  | _ => none

/-- Operators of one level with their right operands behind `left`, at most `fuel` of them. -/
def operationsUpTo (level : Level) (operand : Parser NodeId) (start : Nat) :
    Nat → NodeId → Parser NodeId
  | 0, left => return left
  | fuel + 1, left => do
    match level.operator? (← kind) with
    | some op =>
      let _ ← bump
      let right ← operand
      operationsUpTo level operand start fuel (← finish (.binary left op right) start)
    | none => return left

/-- Operands with operators of one level between them. -/
def operations (level : Level) (operand : Parser NodeId) : Parser NodeId := do
  let start ← start
  let left ← operand
  operationsUpTo level operand start (← remaining) left

/-- An expression without comparisons and connectives. -/
def bitOr (n : Nested) : Parser NodeId := levels.foldr operations (factor n)

/-- The comparison at the cursor and the number of its tokens. -/
def comparisonOp : Parser (Option (CompareOp × Nat)) := do
  match ← kind with
  | .symbol .less => return some (.lt, 1)
  | .symbol .greater => return some (.gt, 1)
  | .symbol .lessEquals => return some (.le, 1)
  | .symbol .greaterEquals => return some (.ge, 1)
  | .symbol .equalsEquals => return some (.eq, 1)
  | .symbol .notEquals => return some (.notEq, 1)
  | .keyword .inKw => return some (.isIn, 1)
  | .keyword .notKw => return if (← following) == .keyword .inKw then some (.notIn, 2) else none
  | .keyword .isKw =>
    return if (← following) == .keyword .notKw then some (.isNot, 2) else some (.is, 1)
  | _ => return none

def comparisonsUpTo (n : Nested) : Nat → Parser (List (CompareOp × NodeId))
  | 0 => return []
  | fuel + 1 => do
    match ← comparisonOp with
    | some (op, width) =>
      let _ ← bump
      if width == 2 then
        let _ ← bump
      let right ← bitOr n
      let others ← comparisonsUpTo n fuel
      return (op, right) :: others
    | none => return []

def comparison (n : Nested) : Parser NodeId := do
  let start ← start
  let left ← bitOr n
  let steps ← comparisonsUpTo n (← remaining)
  if steps.isEmpty then return left
  else finish (.compare left (steps.map Prod.fst) (steps.map Prod.snd)) start

def negationUpTo (n : Nested) : Nat → Parser NodeId
  | 0 => comparison n
  | fuel + 1 => do
    if ← isAt Keyword.notKw then
      let start ← start
      let _ ← bump
      let operand ← negationUpTo n fuel
      finish (.unary .not operand) start
    else comparison n

def negation (n : Nested) : Parser NodeId := do negationUpTo n (← remaining)

/-- A chain of one connective. -/
def connective (word : Keyword) (op : BoolOp) (operand : Parser NodeId) : Parser NodeId := do
  let start ← start
  let first ← operand
  if ← isAt word then
    let others ← afterEach word operand
    finish (.boolean op (first :: others)) start
  else return first

/-- An expression without a condition. -/
def orTest (n : Nested) : Parser NodeId :=
  connective .orKw .or (connective .andKw .and (negation n))

/-- A function without a name. -/
def lambdaExpression (n : Nested) : Parser NodeId := do
  let start ← start
  let _ ← bump
  let params ← parameters n Symbol.colon false
  let _ ← expect Symbol.colon
  let body ← n.expression
  finish (.lambda params body) start

/-- A function without a name, or an expression with an optional condition. -/
def conditional (n : Nested) : Parser NodeId := do
  if ← isAt Keyword.lambdaKw then lambdaExpression n
  else
    let start ← start
    let body ← orTest n
    if ← eat Keyword.ifKw then
      let test ← orTest n
      let _ ← expect Keyword.elseKw
      let orelse ← n.expression
      finish (.conditional test body orelse) start
    else return body

/-- Stands in for an expression that is nested too deeply. -/
def tooDeep : Parser NodeId := do
  let start ← start
  reportHere Code.expectedExpression none
  skipLine
  finish .malformed start

/-! ## Nesting -/

mutual

/-- An expression inside `depth` others. The fuel bounds the nesting; the number of tokens left is
always enough, since what is nested begins behind a token of what surrounds it. -/
def expressionAt (fuel depth : Nat) (s : ParseState) : NodeId × ParseState :=
  match fuel with
  | 0 => missing s
  | fuel + 1 =>
    if Limits.parseDepth ≤ depth then tooDeep s
    else conditional ⟨expressionAt fuel (depth + 1), bitOrAt fuel (depth + 1)⟩ s

/-- An expression without comparisons and connectives, inside `depth` others. -/
def bitOrAt (fuel depth : Nat) (s : ParseState) : NodeId × ParseState :=
  match fuel with
  | 0 => missing s
  | fuel + 1 => bitOr ⟨expressionAt fuel depth, bitOrAt fuel depth⟩ s

end

/-- The parsers for what stands in a statement. -/
def outermost (fuel : Nat) : Nested := ⟨expressionAt fuel 0, bitOrAt fuel 0⟩

/-- Runs a rule for expressions in a statement. -/
def inStatement {α : Type} (rule : Nested → Parser α) : Parser α := do
  rule (outermost ((← remaining) + 1))

/-- An expression in a statement. -/
def expression : Parser NodeId := inStatement (·.expression)

end LiveCheck.Parser
