import LiveCheck.Proofs.Grammar.Program

/-!
# The grammar without fuel

The rules of the grammar and what each of them does, with no bound on repetition or nesting. A
loop is a rule that calls itself for its next round. Rules for what is nested in an expression carry
the number of the expressions around it.

Each rule has a level: up to the first token that it takes, a rule calls rules of lower levels only.
-/

namespace LiveCheck

open LiveCheck.Parser (Level)

/-- What stands in lists with a separator before each further element. -/
inductive Item
  | starOrExpression (d : Nat)
  | targetItem (d : Nat)
  | sliceItem (d : Nat)
  | negation (d : Nat)
  | andTest (d : Nat)
  | name
  | importAlias
  | starExpressions
  | withItem
  | decorator

/-- What stands in lists that may end behind a comma. -/
inductive ListEntry
  | argument (d : Nat)
  | parameter (d : Nat) (annotated : Bool)
  | element (d : Nat)
  | importedName

/-- What announces an element of a list: a reserved word or a symbol. -/
inductive Mark
  | word (w : Keyword)
  | sign (m : Symbol)

/-- The kind of token that a mark is. -/
@[simp] def Mark.kind : Mark → TokenKind
  | .word w => .keyword w
  | .sign m => .symbol m

/-- The rules of the grammar. -/
inductive Production : Type → Type
  | skipLine : Production Unit
  | stringValues : Production String
  | strings : Production NodeId
  | afterCommas (stop : TokenKind → Bool) (item : Item) : Production (List NodeId)
  | afterEach (mark : Mark) (item : Item) : Production (List NodeId)
  | entries (stop : TokenKind → Bool) (entry : ListEntry) : Production (List NodeId)
  | list (stop : TokenKind → Bool) (entry : ListEntry) : Production (List NodeId)
  | item (i : Item) : Production NodeId
  | entry (e : ListEntry) : Production (Option NodeId)
  | tooDeep : Production NodeId
  | atom (d : Nat) : Production NodeId
  | dictEntry (d : Nat) (key : Option NodeId) : Production (Option NodeId × NodeId)
  | dictEntries (d : Nat) : Production (List (Option NodeId × NodeId))
  | dictDisplay (d start : Nat) (key : Option NodeId) : Production NodeId
  | starExpressions (d : Nat) : Production NodeId
  | targetList (d : Nat) : Production NodeId
  | subscriptIndex (d : Nat) : Production NodeId
  | trailers (d start : Nat) (expr : NodeId) : Production NodeId
  | primary (d : Nat) : Production NodeId
  | factors (d : Nat) : Production NodeId
  | factor (d : Nat) : Production NodeId
  | operationsRest (ls : List Level) (level : Level) (d start : Nat) (left : NodeId) :
    Production NodeId
  | operations (ls : List Level) (d : Nat) : Production NodeId
  | comparisons (d : Nat) : Production (List (CompareOp × NodeId))
  | comparison (d : Nat) : Production NodeId
  | negations (d : Nat) : Production NodeId
  | orTest (d : Nat) : Production NodeId
  | conditional (d : Nat) : Production NodeId
  | expression (d : Nat) : Production NodeId
  | operand (d : Nat) : Production NodeId
  | topExpression : Production NodeId
  | topStarExpressions : Production NodeId
  | topTargetList : Production NodeId
  | topBitOr : Production NodeId
  | topParameters : Production (List NodeId)
  | topArguments : Production (List NodeId)
  | importLevel : Production Nat
  | simpleStatement : Production NodeId
  | simpleStatements : Production (List NodeId)
  | simpleLine : Production (List NodeId)
  | block : Production (List NodeId)
  | colonBlock : Production (List NodeId)
  | elseBlock : Production (List NodeId)
  | ifStatement : Production NodeId
  | whileStatement : Production NodeId
  | forStatement : Production NodeId
  | handlers : Production (List NodeId)
  | tryStatement : Production NodeId
  | withStatement : Production NodeId
  | functionStatement (decorators : List NodeId) (start : Nat) : Production NodeId
  | classStatement (decorators : List NodeId) (start : Nat) : Production NodeId
  | decoratedStatement : Production NodeId
  | statement : Production (List NodeId)
  | statements : Production (List NodeId)
  | module : Production (List NodeId)

namespace Item

/-- The level of an element of a list. -/
@[simp] def level : Item → Nat
  | name => 0
  | importAlias => 1
  | negation _ => 15
  | andTest _ => 16
  | starOrExpression _ | targetItem _ => 20
  | sliceItem _ => 21
  | starExpressions | withItem | decorator => 26

/-- How much fuel beyond the number of tokens left an element of a list needs. -/
@[simp] def need : Item → Nat
  | starOrExpression _ | targetItem _ | sliceItem _ => 1
  | _ => 0

end Item

namespace Production

/-- The level of a rule in the grammar. -/
@[simp] def level : {α : Type} → Production α → Nat
  | _, skipLine | _, stringValues | _, afterCommas _ _ | _, afterEach _ _ | _, dictEntries _
  | _, trailers _ _ _ | _, operationsRest _ _ _ _ _ | _, comparisons _ | _, importLevel
  | _, handlers => 0
  | _, strings | _, tooDeep => 1
  | _, atom _ => 2
  | _, primary _ => 3
  | _, factors _ => 4
  | _, factor _ => 5
  | _, operations ls _ => 6 + ls.length
  | _, comparison _ => 13
  | _, negations _ => 14
  | _, item i => i.level
  | _, orTest _ => 17
  | _, conditional _ => 18
  | _, expression _ | _, operand _ => 19
  | _, dictEntry _ _ => 20
  | _, dictDisplay _ _ _ | _, starExpressions _ | _, targetList _ => 21
  | _, subscriptIndex _ | _, entry _ => 22
  | _, entries _ _ => 23
  | _, list _ _ => 24
  | _, topExpression | _, topStarExpressions | _, topTargetList | _, topBitOr | _, topParameters
  | _, topArguments => 25
  | _, simpleStatement => 26
  | _, simpleStatements => 27
  | _, simpleLine => 28
  | _, block => 29
  | _, colonBlock => 30
  | _, elseBlock => 31
  | _, ifStatement | _, whileStatement | _, forStatement | _, tryStatement | _, withStatement
  | _, functionStatement _ _ | _, classStatement _ _ => 32
  | _, decoratedStatement => 33
  | _, statement => 34
  | _, statements => 35
  | _, module => 36

/-- Whether a rule is a loop, which calls itself for its next round. -/
@[simp] def isLoop : {α : Type} → Production α → Bool
  | _, skipLine | _, stringValues | _, afterCommas _ _ | _, afterEach _ _ | _, entries _ _
  | _, dictEntries _ | _, trailers _ _ _ | _, factors _ | _, operationsRest _ _ _ _ _
  | _, comparisons _ | _, negations _ | _, importLevel | _, simpleStatements | _, ifStatement
  | _, handlers | _, module => true
  | _, _ => false

/-- The kinds of tokens at which a rule may end without having taken a token. -/
@[simp] def Idle : {α : Type} → Production α → TokenKind → Prop
  | _, skipLine, k | _, simpleLine, k | _, statement, k => k.endsLine = true
  | _, afterEach mark _, k => k ≠ mark.kind
  | _, decoratedStatement, k => k ≠ .symbol .atSign
  | _, ifStatement, k | _, whileStatement, k | _, forStatement, k | _, tryStatement, k
  | _, withStatement, k | _, functionStatement _ _, k | _, classStatement _ _, k =>
    k = .endOfFile
  | _, _, _ => True

instance : Ranked Production where
  level := level
  Idle := Idle

/-- How much fuel beyond the number of tokens left a rule needs for what is nested: one unit, unless
a token is taken before anything nested begins. -/
@[simp] def need : {α : Type} → Production α → Nat
  | _, expression _ | _, operand _ | _, statements | _, dictEntry _ _ | _, dictDisplay _ _ _
  | _, starExpressions _ | _, targetList _ | _, subscriptIndex _ | _, entry _ | _, entries _ _
  | _, list _ _ => 1
  | _, item i => i.need
  | _, _ => 0

/-- How much of it is left for the rules that it calls before a token is taken. -/
@[simp] def leeway : {α : Type} → Production α → Nat
  | _, expression _ | _, operand _ | _, statements => 0
  | _, topExpression | _, topStarExpressions | _, topTargetList | _, topBitOr | _, topParameters
  | _, topArguments => 1
  | _, r => r.need

/-- The first rule may call the second before it has taken a token. -/
structure Above {α β : Type} (r : Production α) (r' : Production β) : Prop where
  level : r'.level < r.level
  need : r'.need ≤ r.leeway
  loop : r.isLoop = true → r'.isLoop = false

end Production

/-! ## Lists -/

namespace Program

/-- The string literals that follow. -/
def stringValues : Program Production String := do
  match ← kind with
  | .string | .bytes =>
    let token ← bump
    let others ← follow .stringValues
    return StringLiteral.decode token.text ++ others
  | _ => return ""

/-- The tokens up to the end of the line. -/
def skipLine : Program Production Unit := do
  if ← atLineEnd then return
  let _ ← bump
  follow .skipLine

/-- Items that each follow a comma. -/
def afterCommas (stop : TokenKind → Bool) (i : Item) : Program Production (List NodeId) := do
  if ← eat Symbol.comma then
    if ← peek stop then return []
    let first ← follow (.item i)
    let others ← follow (.afterCommas stop i)
    return first :: others
  else return []

/-- Items that each follow a token of the given kind. -/
def afterEach (mark : Mark) (i : Item) : Program Production (List NodeId) := do
  if ← eat mark.kind then
    let first ← follow (.item i)
    let others ← follow (.afterEach mark i)
    return first :: others
  else return []

/-- Entries with commas between them. -/
def entries (stop : TokenKind → Bool) (e : ListEntry) : Program Production (List NodeId) := do
  if ← peek stop then return []
  match ← follow (.entry e) with
  | none => return []
  | some first =>
    if ← eat Symbol.comma then
      let others ← follow (.entries stop e)
      return first :: others
    else return [first]

/-! ## Expressions -/

/-- An item with an optional star before it. -/
def starOr (d : Nat) (item : Program Production NodeId) : Program Production NodeId := do
  if ← isAt Symbol.star then
    let start ← start
    let _ ← bump
    let value ← follow (.operand d)
    finish (.starred value) start
  else item

/-- Items with commas between them. -/
def tupleOf (stop : TokenKind → Bool) (i : Item) : Program Production NodeId := do
  let start ← start
  let first ← follow (.item i)
  if ← isAt Symbol.comma then
    let others ← follow (.afterCommas stop i)
    finish (.tuple (first :: others)) start
  else return first

/-- How the next argument is passed, and its keyword. -/
def argumentForm : Program Production (ArgumentForm × Option NodeId) := do
  match ← kind with
  | .symbol .star =>
    let _ ← bump
    return (.unpack, none)
  | .symbol .doubleStar =>
    let _ ← bump
    return (.unpackDict, none)
  | .name =>
    if (← following) == .symbol .equals then
      let key ← name
      let _ ← bump
      return (.keyword, some key)
    else return (.positional, none)
  | _ => return (.positional, none)

/-- One argument of a call. -/
def argument (d : Nat) : Program Production (Option NodeId) := do
  let start ← start
  let (form, key) ← argumentForm
  if ← atExpression then
    let value ← follow (.expression d)
    return some (← finish (.argument form key value) start)
  else
    reportHere Code.expectedExpression none
    return none

/-- How the next parameter takes its arguments. -/
def parameterForm : Program Production (Option ParameterForm) := do
  match ← kind with
  | .symbol .star =>
    let _ ← bump
    return some (if ← isAt .name then .varArgs else .keywordMarker)
  | .symbol .doubleStar =>
    let _ ← bump
    return some .kwArgs
  | .symbol .slash =>
    let _ ← bump
    return some .positionalMarker
  | .name => return some .normal
  | _ =>
    reportHere Code.expectedName none
    return none

/-- One parameter. -/
def parameter (d : Nat) (annotated : Bool) : Program Production (Option NodeId) := do
  let start ← start
  match ← parameterForm with
  | none => return none
  | some form =>
    let declared ←
      match form with
      | .keywordMarker | .positionalMarker => pure none
      | _ => some <$> name
    let annotation ←
      if annotated && declared.isSome then optional (eat Symbol.colon) (follow (.expression d))
      else pure none
    let default ←
      if form == .normal then optional (eat Symbol.equals) (follow (.expression d)) else pure none
    return some (← finish (.parameter form declared annotation default) start)

/-- The kinds of tokens that end a list of arguments. -/
def endsArguments (k : TokenKind) : Bool := k == Symbol.closeParen || k == .endOfFile

/-- The kinds of tokens that end a list of parameters. -/
def endsParameters (close k : TokenKind) : Bool := k == close || k.endsLine

/-- The kinds of tokens that no expression begins with. -/
def endsElements (k : TokenKind) : Bool := !Parser.startsExpression k

/-- A literal of one token. -/
def constant (c : ConstantKind) : Program Production NodeId := do
  let start ← start
  let _ ← bump
  finish (.constant c none) start

/-- String literals in a row. -/
def strings : Program Production NodeId := do
  let start ← start
  let kind := if ← isAt .bytes then ConstantKind.bytes else .string
  let value ← follow .stringValues
  finish (.constant kind (some value)) start

/-- A tuple or an expression in parentheses. -/
def parenthesized (d : Nat) : Program Production NodeId := do
  let start ← start
  let _ ← bump
  if ← eat Symbol.closeParen then finish (.tuple []) start
  else
    let first ← follow (.item (.starOrExpression d))
    if ← eat Symbol.closeParen then return first
    else if ← isAt Symbol.comma then
      let others ← follow (.afterCommas (· == Symbol.closeParen) (.starOrExpression d))
      let _ ← expect Symbol.closeParen
      finish (.tuple (first :: others)) start
    else
      let _ ← expect Symbol.closeParen
      return first

/-- A list in brackets. -/
def listDisplay (d : Nat) : Program Production NodeId := do
  let start ← start
  let _ ← bump
  let elts ← follow (.list endsElements (.element d))
  let _ ← expect Symbol.closeBracket
  finish (.list elts) start

/-- The rest of an entry of a dictionary. -/
def dictEntry (d : Nat) : Option NodeId → Program Production (Option NodeId × NodeId)
  | none => do
    let _ ← expect Symbol.doubleStar
    return (none, ← follow (.operand d))
  | some key => do
    let _ ← expect Symbol.colon
    return (some key, ← follow (.expression d))

/-- The entries of a dictionary behind the first one. -/
def dictEntries (d : Nat) : Program Production (List (Option NodeId × NodeId)) := do
  if ← eat Symbol.comma then
    if ← isAt Symbol.doubleStar then
      let entry ← follow (.dictEntry d none)
      let others ← follow (.dictEntries d)
      return entry :: others
    else if ← atExpression then
      let key ← follow (.expression d)
      let entry ← follow (.dictEntry d (some key))
      let others ← follow (.dictEntries d)
      return entry :: others
    else return []
  else return []

/-- A dictionary whose first key has been read. -/
def dictDisplay (d start : Nat) (key : Option NodeId) : Program Production NodeId := do
  let first ← follow (.dictEntry d key)
  let others ← follow (.dictEntries d)
  let _ ← expect Symbol.closeBrace
  finish (.dict (first :: others)) start

/-- A dictionary or a set in braces. -/
def braced (d : Nat) : Program Production NodeId := do
  let start ← start
  let _ ← bump
  if ← eat Symbol.closeBrace then finish (.dict []) start
  else if ← isAt Symbol.doubleStar then follow (.dictDisplay d start none)
  else
    let first ← follow (.item (.starOrExpression d))
    if ← isAt Symbol.colon then follow (.dictDisplay d start (some first))
    else
      let others ← follow (.afterCommas endsElements (.starOrExpression d))
      let _ ← expect Symbol.closeBrace
      finish (.set (first :: others)) start

/-- Stands in for an expression that is missing. -/
def missing : Program Production NodeId := do
  let token ← current
  report Code.expectedExpression token.span none
  let closes :=
    match token.kind with
    | .symbol mark => mark.closes
    | _ => false
  if !token.kind.endsLine && !closes then
    let _ ← bump
  finish .malformed token.span.start

/-- Names, literals and displays. -/
def atom (d : Nat) : Program Production NodeId := do
  match ← kind with
  | .name => name
  | .int => constant .int
  | .float => constant .float
  | .complex => constant .complex
  | .string | .bytes => follow .strings
  | .keyword .trueKw => constant .true
  | .keyword .falseKw => constant .false
  | .keyword .noneKw => constant .none
  | .symbol .ellipsis => constant .ellipsis
  | .symbol .openParen => parenthesized d
  | .symbol .openBracket => listDisplay d
  | .symbol .openBrace => braced d
  | _ => missing

/-- A bound of a slice. -/
def sliceBound (d : Nat) : Program Production (Option NodeId) :=
  optional atExpression (follow (.expression d))

/-- One index, or a slice. -/
def sliceItem (d : Nat) : Program Production NodeId := do
  let start ← start
  let lower ← optional (return !(← isAt Symbol.colon)) (follow (.item (.starOrExpression d)))
  let isSlice ← eat Symbol.colon
  match lower, isSlice with
  | some index, false => return index
  | _, _ =>
    let upper ← sliceBound d
    let step ← if ← eat Symbol.colon then sliceBound d else pure none
    finish (.slice lower upper step) start

/-- Calls, subscripts and attributes behind `expr`. -/
def trailers (d start : Nat) (expr : NodeId) : Program Production NodeId := do
  match ← kind with
  | .symbol .openParen =>
    let _ ← bump
    let args ← follow (.list endsArguments (.argument d))
    let _ ← expect Symbol.closeParen
    follow (.trailers d start (← finish (.call expr args) start))
  | .symbol .openBracket =>
    let _ ← bump
    let index ← follow (.subscriptIndex d)
    let _ ← expect Symbol.closeBracket
    follow (.trailers d start (← finish (.subscript expr index) start))
  | .symbol .dot =>
    let _ ← bump
    let attr ← name
    follow (.trailers d start (← finish (.member expr attr) start))
  | _ => return expr

/-- An atom with its calls, subscripts and attributes. -/
def primary (d : Nat) : Program Production NodeId := do
  let start ← start
  let expr ← follow (.atom d)
  follow (.trailers d start expr)

/-- Signs and powers. -/
def factors (d : Nat) : Program Production NodeId := do
  let start ← start
  match Parser.signOf? (← kind) with
  | some op =>
    let _ ← bump
    let operand ← follow (.factors d)
    finish (.unary op operand) start
  | none =>
    let left ← follow (.primary d)
    if ← eat Symbol.doubleStar then
      let right ← follow (.factors d)
      finish (.binary left .pow right) start
    else return left

/-- Operators of one level with their right operands behind `left`. -/
def operationsRest (ls : List Level) (level : Level) (d start : Nat) (left : NodeId) :
    Program Production NodeId := do
  match level.operator? (← kind) with
  | some op =>
    let _ ← bump
    let right ← follow (.operations ls d)
    follow (.operationsRest ls level d start (← finish (.binary left op right) start))
  | none => return left

/-- Operands with operators of the given levels between them. -/
def operations (d : Nat) : List Level → Program Production NodeId
  | [] => follow (.factor d)
  | level :: ls => do
    let start ← start
    let left ← follow (.operations ls d)
    follow (.operationsRest ls level d start left)

/-- The comparison at the cursor and the number of its tokens. -/
def comparisonOp : Program Production (Option (CompareOp × Nat)) := do
  match ← kind with
  | .symbol .less => return some (.lt, 1)
  | .symbol .greater => return some (.gt, 1)
  | .symbol .lessEquals => return some (.le, 1)
  | .symbol .greaterEquals => return some (.ge, 1)
  | .symbol .equalsEquals => return some (.eq, 1)
  | .symbol .notEquals => return some (.notEq, 1)
  | .keyword .inKw => return some (.isIn, 1)
  | .keyword .notKw => return if (← following) == .keyword .inKw then some (.notIn, 2) else none
  | .keyword .isKw =>
    return if (← following) == .keyword .notKw then some (.isNot, 2) else some (.is, 1)
  | _ => return none

/-- Comparisons with their right operands. -/
def comparisons (d : Nat) : Program Production (List (CompareOp × NodeId)) := do
  match ← comparisonOp with
  | some (op, width) =>
    let _ ← bump
    if width == 2 then
      let _ ← bump
    let right ← follow (.operations Parser.levels d)
    let others ← follow (.comparisons d)
    return (op, right) :: others
  | none => return []

/-- A chain of comparisons. -/
def comparison (d : Nat) : Program Production NodeId := do
  let start ← start
  let left ← follow (.operations Parser.levels d)
  let steps ← follow (.comparisons d)
  if steps.isEmpty then return left
  else finish (.compare left (steps.map Prod.fst) (steps.map Prod.snd)) start

/-- Negations. -/
def negations (d : Nat) : Program Production NodeId := do
  if ← isAt Keyword.notKw then
    let start ← start
    let _ ← bump
    let operand ← follow (.negations d)
    finish (.unary .not operand) start
  else follow (.comparison d)

/-- A chain of one connective. -/
def connective (word : Keyword) (op : BoolOp) (i : Item) : Program Production NodeId := do
  let start ← start
  let first ← follow (.item i)
  if ← isAt word then
    let others ← follow (.afterEach (.word word) i)
    finish (.boolean op (first :: others)) start
  else return first

/-- A function without a name. -/
def lambdaExpression (d : Nat) : Program Production NodeId := do
  let start ← start
  let _ ← bump
  let params ← follow (.list (endsParameters Symbol.colon) (.parameter d false))
  let _ ← expect Symbol.colon
  let body ← follow (.expression d)
  finish (.lambda params body) start

/-- A function without a name, or an expression with an optional condition. -/
def conditional (d : Nat) : Program Production NodeId := do
  if ← isAt Keyword.lambdaKw then lambdaExpression d
  else
    let start ← start
    let body ← follow (.orTest d)
    if ← eat Keyword.ifKw then
      let test ← follow (.orTest d)
      let _ ← expect Keyword.elseKw
      let orelse ← follow (.expression d)
      finish (.conditional test body orelse) start
    else return body

/-- Stands in for an expression that is nested too deeply. -/
def tooDeep : Program Production NodeId := do
  let start ← start
  reportHere Code.expectedExpression none
  follow .skipLine
  finish .malformed start

/-- An expression inside `d` others. -/
def expression (d : Nat) : Program Production NodeId :=
  if Limits.parseDepth ≤ d then follow .tooDeep else follow (.conditional (d + 1))

/-! ## Simple statements -/

/-- A statement of one keyword. -/
def keywordStatement (data : NodeData) : Program Production NodeId := do
  let start ← start
  let _ ← bump
  finish data start

/-- `return`. -/
def returnStatement : Program Production NodeId := do
  let start ← start
  let _ ← bump
  let value ← optional atExpression (follow .topStarExpressions)
  finish (.returnStmt value) start

/-- `raise`. -/
def raiseStatement : Program Production NodeId := do
  let start ← start
  let _ ← bump
  let exc ← optional atExpression (follow .topExpression)
  let cause ←
    if exc.isSome then optional (eat Keyword.fromKw) (follow .topExpression) else pure none
  finish (.raiseStmt exc cause) start

/-- `assert`. -/
def assertStatement : Program Production NodeId := do
  let start ← start
  let _ ← bump
  let test ← follow .topExpression
  let msg ← optional (eat Symbol.comma) (follow .topExpression)
  finish (.assertStmt test msg) start

/-- `del`. -/
def deleteStatement : Program Production NodeId := do
  let start ← start
  let _ ← bump
  let target ← follow .topTargetList
  checkTarget target
  match ← dataOf target with
  | some (.tuple elts) => finish (.deleteStmt elts) start
  | _ => finish (.deleteStmt [target]) start

/-- Names with separators between them. -/
def namesAfter (mark : Mark) : Program Production (List NodeId) := do
  let first ← name
  let others ← follow (.afterEach mark .name)
  return first :: others

/-- `global`. -/
def globalStatement : Program Production NodeId := do
  let start ← start
  let _ ← bump
  finish (.globalStmt (← namesAfter (.sign .comma))) start

/-- `nonlocal`. -/
def nonlocalStatement : Program Production NodeId := do
  let start ← start
  let _ ← bump
  finish (.nonlocalStmt (← namesAfter (.sign .comma))) start

/-- An imported path with an optional new name. -/
def importAlias (path : Program Production (List NodeId)) : Program Production NodeId := do
  let start ← start
  let path ← path
  let asname ← optional (eat Keyword.asKw) name
  finish (.importAlias path asname) start

/-- `import`. -/
def importStatement : Program Production NodeId := do
  let start ← start
  let _ ← bump
  let first ← follow (.item .importAlias)
  let others ← follow (.afterEach (.sign .comma) .importAlias)
  finish (.importStmt (first :: others)) start

/-- The number of dots before the module of an import. -/
def importLevel : Program Production Nat := do
  match ← kind with
  | .symbol .dot =>
    let _ ← bump
    return 1 + (← follow .importLevel)
  | .symbol .ellipsis =>
    let _ ← bump
    return 3 + (← follow .importLevel)
  | _ => return 0

/-- The names that are imported from a module. -/
def importedNames : Program Production (List NodeId) := do
  let open' ← eat Symbol.openParen
  let names ← follow (.list (! · == .name) .importedName)
  if names.isEmpty then reportHere Code.expectedName none
  if open' then
    let _ ← expect Symbol.closeParen
  return names

/-- `from ... import ...`. -/
def fromStatement : Program Production NodeId := do
  let start ← start
  let _ ← bump
  let level ← follow .importLevel
  let path ← if level == 0 || (← isAt .name) then namesAfter (.sign .dot) else pure []
  let _ ← expect Keyword.importKw
  if ← eat Symbol.star then finish (.importFrom path level [] true) start
  else
    let names ← importedNames
    finish (.importFrom path level names false) start

/-- An assignment with an annotation, behind its colon. -/
def annotatedAssignment (start : Nat) (target : NodeId) : Program Production NodeId := do
  checkPlace target
  let annotation ← follow .topExpression
  let value ← optional (eat Symbol.equals) (follow .topStarExpressions)
  finish (.annAssign target annotation value) start

/-- An augmented assignment, behind its target. -/
def augmentedAssignment (start : Nat) (target : NodeId) (op : BinaryOp) :
    Program Production NodeId := do
  let _ ← bump
  checkPlace target
  let value ← follow .topStarExpressions
  finish (.augAssign target op value) start

/-- An assignment whose sides have been read. -/
def assignment (start : Nat) (first : NodeId) (others : List NodeId) :
    Program Production NodeId := do
  let targets := (first :: others).dropLast
  checkTargets targets
  finish (.assign targets (others.getLastD first)) start

/-- An expression, or an assignment in one of its three forms. -/
def expressionStatement : Program Production NodeId := do
  let start ← start
  let first ← follow .topStarExpressions
  if ← eat Symbol.colon then annotatedAssignment start first
  else
    match Parser.augmentedOperator? (← kind) with
    | some op => augmentedAssignment start first op
    | none =>
      if ← isAt Symbol.equals then
        let others ← follow (.afterEach (.sign .equals) .starExpressions)
        assignment start first others
      else finish (.exprStmt first) start

/-- A statement that fits into a line. -/
def simpleStatement : Program Production NodeId := do
  match ← kind with
  | .keyword .passKw => keywordStatement .pass
  | .keyword .breakKw => keywordStatement .breakLoop
  | .keyword .continueKw => keywordStatement .continueLoop
  | .keyword .returnKw => returnStatement
  | .keyword .raiseKw => raiseStatement
  | .keyword .assertKw => assertStatement
  | .keyword .delKw => deleteStatement
  | .keyword .globalKw => globalStatement
  | .keyword .nonlocalKw => nonlocalStatement
  | .keyword .importKw => importStatement
  | .keyword .fromKw => fromStatement
  | _ => expressionStatement

/-- Statements with semicolons between them. -/
def simpleStatements : Program Production (List NodeId) := do
  let first ← follow .simpleStatement
  if (← eat Symbol.semicolon) && !(← atLineEnd) then
    let others ← follow .simpleStatements
    return first :: others
  else return [first]

/-- The statements of a logical line. -/
def simpleLine : Program Production (List NodeId) := do
  let before ← problems
  let body ← follow .simpleStatements
  if !(← atLineEnd) then
    if (← problems) == before then
      let token ← current
      report Code.unexpectedToken token.span (some token.text)
    follow .skipLine
  let _ ← eat .newline
  return body

/-! ## Compound statements -/

/-- The body of a compound statement behind its colon. -/
def block : Program Production (List NodeId) := do
  if ← eat .newline then
    if ← eat .indent then
      let body ← follow .statements
      let _ ← eat .dedent
      return body
    else
      reportHere Code.expectedIndentedBlock none
      return []
  else if ← atLineEnd then
    reportHere Code.expectedIndentedBlock none
    return []
  else follow .simpleLine

/-- The colon and the body of a compound statement. -/
def colonBlock : Program Production (List NodeId) := do
  if !(← expect Symbol.colon) then follow .skipLine
  follow .block

/-- An optional `else` block. -/
def elseBlock : Program Production (List NodeId) := do
  if ← eat Keyword.elseKw then follow .colonBlock else return []

/-- `if` with its branches. -/
def ifStatement : Program Production NodeId := do
  let start ← start
  let _ ← bump
  let test ← follow .topExpression
  let body ← follow .colonBlock
  let orelse ←
    if ← isAt Keyword.elifKw then List.singleton <$> follow .ifStatement
    else follow .elseBlock
  finish (.ifStmt test body orelse) start

/-- `while`. -/
def whileStatement : Program Production NodeId := do
  let start ← start
  let _ ← bump
  let test ← follow .topExpression
  let body ← follow .colonBlock
  let orelse ← follow .elseBlock
  finish (.whileLoop test body orelse) start

/-- `for`. -/
def forStatement : Program Production NodeId := do
  let start ← start
  let _ ← bump
  let target ← follow .topTargetList
  checkTarget target
  let _ ← expect Keyword.inKw
  let iter ← follow .topStarExpressions
  let body ← follow .colonBlock
  let orelse ← follow .elseBlock
  finish (.forLoop target iter body orelse) start

/-- The handlers of a `try`. -/
def handlers : Program Production (List NodeId) := do
  let start ← start
  if ← eat Keyword.exceptKw then
    let type ← optional (return !(← isAt Symbol.colon)) (follow .topExpression)
    let caught ← optional (eat Keyword.asKw) name
    let body ← follow .colonBlock
    let first ← finish (.handler type caught body) start
    let others ← follow .handlers
    return first :: others
  else return []

/-- `try`. -/
def tryStatement : Program Production NodeId := do
  let start ← start
  let _ ← bump
  let body ← follow .colonBlock
  let handlers ← follow .handlers
  let orelse ← follow .elseBlock
  let finalbody ← if ← eat Keyword.finallyKw then follow .colonBlock else pure []
  if handlers.isEmpty && finalbody.isEmpty then
    reportHere Code.expectedToken (some Keyword.exceptKw.text)
  finish (.tryStmt body handlers orelse finalbody) start

/-- One item of a `with`. -/
def withItem : Program Production NodeId := do
  let start ← start
  let context ← follow .topExpression
  let target ← optional (eat Keyword.asKw) (follow .topBitOr)
  checkTargets target.toList
  finish (.withItem context target) start

/-- `with`. -/
def withStatement : Program Production NodeId := do
  let start ← start
  let _ ← bump
  let first ← follow (.item .withItem)
  let others ← follow (.afterEach (.sign .comma) .withItem)
  let body ← follow .colonBlock
  finish (.withStmt (first :: others) body) start

/-- `def`, behind its decorators. -/
def functionStatement (decorators : List NodeId) (start : Nat) : Program Production NodeId := do
  let _ ← bump
  let defined ← name
  let params ←
    if ← expect Symbol.openParen then
      let params ← follow .topParameters
      let _ ← expect Symbol.closeParen
      pure params
    else pure []
  let returns ← optional (eat Symbol.arrow) (follow .topExpression)
  let body ← follow .colonBlock
  finish (.functionDef decorators defined params returns body) start

/-- `class`, behind its decorators. -/
def classStatement (decorators : List NodeId) (start : Nat) : Program Production NodeId := do
  let _ ← bump
  let defined ← name
  let bases ←
    if ← eat Symbol.openParen then
      let bases ← follow .topArguments
      let _ ← expect Symbol.closeParen
      pure bases
    else pure []
  let body ← follow .colonBlock
  finish (.classDef decorators defined bases body) start

/-- A decorator behind its `@`. -/
def decorator : Program Production NodeId := do
  let value ← follow .topExpression
  if !(← eat .newline) then
    reportHere Code.expectedToken (some TokenKind.newline.text)
    follow .skipLine
    let _ ← eat .newline
  return value

/-- A function or a class with decorators. -/
def decoratedStatement : Program Production NodeId := do
  let start ← start
  let decorators ← follow (.afterEach (.sign .atSign) .decorator)
  match ← kind with
  | .keyword .defKw => follow (.functionStatement decorators start)
  | .keyword .classKw => follow (.classStatement decorators start)
  | _ =>
    reportHere Code.expectedToken (some Keyword.defKw.text)
    finish .malformed start

/-- A compound statement, or the statements of a line. -/
def statement : Program Production (List NodeId) := do
  match ← kind with
  | .keyword .ifKw => List.singleton <$> follow .ifStatement
  | .keyword .whileKw => List.singleton <$> follow .whileStatement
  | .keyword .forKw => List.singleton <$> follow .forStatement
  | .keyword .tryKw => List.singleton <$> follow .tryStatement
  | .keyword .withKw => List.singleton <$> follow .withStatement
  | .keyword .defKw => List.singleton <$> follow (.functionStatement [] (← start))
  | .keyword .classKw => List.singleton <$> follow (.classStatement [] (← start))
  | .symbol .atSign => List.singleton <$> follow .decoratedStatement
  | _ => follow .simpleLine

/-- A block that nothing announced. -/
def unexpectedBlock : Program Production (List NodeId) := do
  reportHere Code.unexpectedIndent none
  let _ ← bump
  let body ← follow .statements
  let _ ← eat .dedent
  return body

/-- The statements up to the end of a block. -/
def statements : Program Production (List NodeId) := do
  match ← kind with
  | .endOfFile | .dedent => return []
  | .newline =>
    let _ ← bump
    follow .statements
  | .indent =>
    let first ← unexpectedBlock
    let others ← follow .statements
    return first ++ others
  | _ =>
    let first ← follow .statement
    let others ← follow .statements
    return first ++ others

/-- The statements of a module. -/
def module : Program Production (List NodeId) := do
  match ← kind with
  | .endOfFile => return []
  | .newline | .dedent =>
    let _ ← bump
    follow .module
  | .indent =>
    let first ← unexpectedBlock
    let others ← follow .module
    return first ++ others
  | _ =>
    let first ← follow .statement
    let others ← follow .module
    return first ++ others

end Program

/-! ## Bodies -/

/-- What an element of a list is. -/
def Item.body : Item → Program Production NodeId
  | starOrExpression d => .starOr d (.follow (.expression d))
  | targetItem d => .starOr d (.follow (.operand d))
  | sliceItem d => .sliceItem d
  | negation d => .follow (.negations d)
  | andTest d => .connective .andKw .and (.negation d)
  | name => .name
  | importAlias => .importAlias (.namesAfter (.sign .dot))
  | starExpressions => .follow .topStarExpressions
  | withItem => .withItem
  | decorator => .decorator

/-- What an entry of a list is. -/
def ListEntry.body : ListEntry → Program Production (Option NodeId)
  | argument d => .argument d
  | parameter d annotated => .parameter d annotated
  | element d => some <$> .follow (.item (.starOrExpression d))
  | importedName => some <$> .importAlias (return [← .name])

/-- What a rule does. -/
def Production.body : {α : Type} → Production α → Program Production α
  | _, skipLine => .skipLine
  | _, stringValues => .stringValues
  | _, strings => .strings
  | _, afterCommas stop i => .afterCommas stop i
  | _, afterEach mark i => .afterEach mark i
  | _, entries stop e => .entries stop e
  | _, list stop e => .follow (.entries stop e)
  | _, item i => i.body
  | _, entry e => e.body
  | _, tooDeep => .tooDeep
  | _, atom d => .atom d
  | _, dictEntry d key => .dictEntry d key
  | _, dictEntries d => .dictEntries d
  | _, dictDisplay d start key => .dictDisplay d start key
  | _, starExpressions d => .tupleOf Program.endsElements (.starOrExpression d)
  | _, targetList d => .tupleOf Program.endsElements (.targetItem d)
  | _, subscriptIndex d => .tupleOf (· == Symbol.closeBracket) (.sliceItem d)
  | _, trailers d start expr => .trailers d start expr
  | _, primary d => .primary d
  | _, factors d => .factors d
  | _, factor d => .follow (.factors d)
  | _, operationsRest ls level d start left => .operationsRest ls level d start left
  | _, operations ls d => .operations d ls
  | _, comparisons d => .comparisons d
  | _, comparison d => .comparison d
  | _, negations d => .negations d
  | _, orTest d => .connective .orKw .or (.andTest d)
  | _, conditional d => .conditional d
  | _, expression d => .expression d
  | _, operand d => .follow (.operations Parser.levels d)
  | _, topExpression => .follow (.expression 0)
  | _, topStarExpressions => .follow (.starExpressions 0)
  | _, topTargetList => .follow (.targetList 0)
  | _, topBitOr => .follow (.operations Parser.levels 0)
  | _, topParameters =>
    .follow (.list (Program.endsParameters Symbol.closeParen) (.parameter 0 true))
  | _, topArguments => .follow (.list Program.endsArguments (.argument 0))
  | _, importLevel => .importLevel
  | _, simpleStatement => .simpleStatement
  | _, simpleStatements => .simpleStatements
  | _, simpleLine => .simpleLine
  | _, block => .block
  | _, colonBlock => .colonBlock
  | _, elseBlock => .elseBlock
  | _, ifStatement => .ifStatement
  | _, whileStatement => .whileStatement
  | _, forStatement => .forStatement
  | _, handlers => .handlers
  | _, tryStatement => .tryStatement
  | _, withStatement => .withStatement
  | _, functionStatement decorators start => .functionStatement decorators start
  | _, classStatement decorators start => .classStatement decorators start
  | _, decoratedStatement => .decoratedStatement
  | _, statement => .statement
  | _, statements => .statements
  | _, module => .module

end LiveCheck
