import LiveCheck.Proofs.Printing.Quotes
import LiveCheck.Tree.Basic

/-!
# Expressions and how they are written

An expression as a tree of its own, apart from its text and from the arena of a parse. It is written
as a row of pieces, one for each token. Every kind of expression has a grade, which says how tightly
it holds together: where an expression of some grade is wanted, one of a lower grade stands in
parentheses, and no other one does.
-/

namespace LiveCheck

/-! ## Expressions -/

/-- A word that can be a name. -/
structure Identifier where
  /-- The word. -/
  text : String
  /-- It begins as a name does and goes on so. -/
  spelled : ∃ c cs, text.toList = c :: cs ∧ Lexeme.startsName c = true ∧
    ∀ d ∈ cs, Lexeme.continuesName d = true
  /-- It is not reserved. -/
  free : Keyword.ofText? text = none

/-- A value that is written down. -/
inductive Literal
  | int (value : Nat)
  | string (value : String)
  | none
  | true
  | false

/-- An expression. A chain of connectives has at least two values, and a chain of comparisons at
least one step. -/
inductive Expr
  | name (id : Identifier)
  | literal (value : Literal)
  | unary (op : UnaryOp) (operand : Expr)
  | binary (left : Expr) (op : BinaryOp) (right : Expr)
  | boolean (op : BoolOp) (first second : Expr) (others : List Expr)
  | compare (left : Expr) (op : CompareOp) (right : Expr) (others : List (CompareOp × Expr))
  | conditional (test body orelse : Expr)
  | call (func : Expr) (args : List Expr)
  | member (value : Expr) (attr : Identifier)
  | subscript (value index : Expr)
  | tuple (elts : List Expr)
  | list (elts : List Expr)

mutual

/-- How deeply expressions nest in an expression. -/
def Expr.depth : Expr → Nat
  | .name _ | .literal _ => 0
  | .unary _ operand => operand.depth + 1
  | .binary left _ right => max left.depth right.depth + 1
  | .boolean _ first second others => max (max first.depth second.depth) (depths others) + 1
  | .compare left _ right others => max (max left.depth right.depth) (stepDepths others) + 1
  | .conditional test body orelse => max (max test.depth body.depth) orelse.depth + 1
  | .call func args => max func.depth (depths args) + 1
  | .member value _ => value.depth + 1
  | .subscript value index => max value.depth index.depth + 1
  | .tuple elts => depths elts + 1
  | .list elts => depths elts + 1

/-- The greatest depth in a list. -/
def depths : List Expr → Nat
  | [] => 0
  | e :: es => max e.depth (depths es)

/-- The greatest depth in a chain of comparisons. -/
def stepDepths : List (CompareOp × Expr) → Nat
  | [] => 0
  | (_, e) :: steps => max e.depth (stepDepths steps)

end

/-- No expression of a list is deeper than the list. -/
theorem depth_le_depths {e : Expr} {es : List Expr} (h : e ∈ es) : e.depth ≤ depths es := by
  induction h with
  | head es => exact Nat.le_max_left e.depth (depths es)
  | tail e' _ ih => exact Nat.le_trans ih (Nat.le_max_right e'.depth _)

theorem depth_le_stepDepths {step : CompareOp × Expr} {steps : List (CompareOp × Expr)}
    (h : step ∈ steps) : step.2.depth ≤ stepDepths steps := by
  induction h with
  | head steps => exact Nat.le_max_left step.2.depth (stepDepths steps)
  | tail step' _ ih => exact Nat.le_trans ih (Nat.le_max_right step'.2.depth _)

/-! ## Grades

The grades are those of the grammar, the loosest first: 0 for items with commas between them, 1 for
conditions, 2 for `or`, 3 for `and`, 4 for `not`, 5 for comparisons, 6 to 11 for the operators that
group to the left, 12 for signs, 13 for powers, 14 for calls, subscripts and attributes, and 15 for
what stands by itself. -/

/-- The grade of a binary operator. -/
def BinaryOp.grade : BinaryOp → Nat
  | bitOr => 6
  | bitXor => 7
  | bitAnd => 8
  | shiftLeft | shiftRight => 9
  | add | sub => 10
  | mul | div | floorDiv | mod | matMul => 11
  | pow => 13

/-- The grade that the left operand has to have: an operator that groups to the left admits itself
there. -/
def BinaryOp.leftGrade : BinaryOp → Nat
  | pow => 14
  | op => op.grade

/-- The grade that the right operand has to have: a power admits powers and signs there. -/
def BinaryOp.rightGrade : BinaryOp → Nat
  | pow => 12
  | op => op.grade + 1

/-- The grade of an operator with one operand, which is also the grade of its operand. -/
def UnaryOp.grade : UnaryOp → Nat
  | not => 4
  | neg | pos | invert => 12

/-- The grade of a connective. -/
def BoolOp.grade : BoolOp → Nat
  | or => 2
  | and => 3

/-- The grade of an expression. -/
def Expr.grade : Expr → Nat
  | .tuple (_ :: _) => 0
  | .conditional .. => 1
  | .boolean op .. => op.grade
  | .unary op _ => op.grade
  | .compare .. => 5
  | .binary _ op _ => op.grade
  | .call .. | .member .. | .subscript .. => 14
  | .name _ | .literal _ | .tuple [] | .list _ => 15

theorem Expr.grade_le (e : Expr) : e.grade ≤ 15 := by
  unfold grade
  split
  case h_3 op _ _ _ => cases op <;> decide
  case h_4 op _ => cases op <;> decide
  case h_6 op _ => cases op <;> decide
  all_goals decide

/-- Only tuples have the lowest grade. -/
theorem Expr.exists_tuple {e : Expr} (h : e.grade = 0) :
    ∃ first others, e = .tuple (first :: others) := by
  cases e
  case tuple elts =>
    cases elts with
    | nil => cases h
    | cons first others => exact ⟨first, others, rfl⟩
  case boolean op _ _ _ => cases op <;> cases h
  case unary op _ => cases op <;> cases h
  case binary _ op _ => cases op <;> cases h
  all_goals cases h

/-- The grade that an expression has to have before an attribute: behind a whole number, the point
would belong to the number. -/
def Expr.receiverGrade : Expr → Nat
  | .literal (.int _) => 16
  | _ => 14

/-! ## Pieces -/

/-- What a token is, and how it is spelled. -/
structure Piece where
  /-- What it is. -/
  kind : TokenKind
  /-- Its characters. -/
  text : String
deriving DecidableEq

/-- The piece of a token. -/
def Token.piece (t : Token) : Piece := ⟨t.kind, t.text⟩

/-- The piece of a reserved word. -/
def Keyword.piece (word : Keyword) : Piece := ⟨.keyword word, word.text⟩

/-- The piece of a symbol. -/
def Symbol.piece (mark : Symbol) : Piece := ⟨.symbol mark, mark.text⟩

/-- The piece of a name. -/
def Identifier.piece (id : Identifier) : Piece := ⟨.name, id.text⟩

/-- How a character is written between double quotes. -/
def StringLiteral.escaped : Char → List Char
  | '\\' => ['\\', '\\']
  | '"' => ['\\', '"']
  | '\n' => ['\\', 'n']
  | '\r' => ['\\', 'r']
  | c => [c]

/-- A text between double quotes. -/
def StringLiteral.quote (value : String) : String :=
  String.ofList ('"' :: (value.toList.flatMap escaped ++ ['"']))

/-- The piece of a value. -/
def Literal.piece : Literal → Piece
  | .int value => ⟨.int, Nat.repr value⟩
  | .string value => ⟨.string, StringLiteral.quote value⟩
  | .none => Keyword.noneKw.piece
  | .true => Keyword.trueKw.piece
  | .false => Keyword.falseKw.piece

/-- The symbol of a binary operator. -/
def BinaryOp.symbol : BinaryOp → Symbol
  | add => .plus
  | sub => .minus
  | mul => .star
  | matMul => .atSign
  | div => .slash
  | floorDiv => .doubleSlash
  | mod => .percent
  | pow => .doubleStar
  | shiftLeft => .leftShift
  | shiftRight => .rightShift
  | bitOr => .pipe
  | bitXor => .caret
  | bitAnd => .ampersand

/-- The piece of an operator with one operand. -/
def UnaryOp.piece : UnaryOp → Piece
  | neg => Symbol.minus.piece
  | pos => Symbol.plus.piece
  | invert => Symbol.tilde.piece
  | not => Keyword.notKw.piece

/-- The word of a connective. -/
def BoolOp.word : BoolOp → Keyword
  | and => .andKw
  | or => .orKw

/-- The pieces of a comparison. -/
def CompareOp.pieces : CompareOp → List Piece
  | lt => [Symbol.less.piece]
  | gt => [Symbol.greater.piece]
  | le => [Symbol.lessEquals.piece]
  | ge => [Symbol.greaterEquals.piece]
  | eq => [Symbol.equalsEquals.piece]
  | notEq => [Symbol.notEquals.piece]
  | isIn => [Keyword.inKw.piece]
  | notIn => [Keyword.notKw.piece, Keyword.inKw.piece]
  | is => [Keyword.isKw.piece]
  | isNot => [Keyword.isKw.piece, Keyword.notKw.piece]

/-- Puts parentheses around what has a lower grade than is wanted. -/
def enclose (wanted grade : Nat) (ps : List Piece) : List Piece :=
  if grade < wanted then Symbol.openParen.piece :: (ps ++ [Symbol.closeParen.piece]) else ps

/-- The comma behind the only element of a tuple. -/
def lastComma {α : Type} (others : List α) : List Piece :=
  if others.isEmpty then [Symbol.comma.piece] else []

mutual

/-- The pieces of an expression without parentheses around it. -/
def Expr.pieces : Expr → List Piece
  | .name id => [id.piece]
  | .literal value => [value.piece]
  | .unary op operand => op.piece :: enclose op.grade operand.grade operand.pieces
  | .binary left op right =>
    enclose op.leftGrade left.grade left.pieces ++
      op.symbol.piece :: enclose op.rightGrade right.grade right.pieces
  | .boolean op first second others =>
    enclose (op.grade + 1) first.grade first.pieces ++
      op.word.piece :: (enclose (op.grade + 1) second.grade second.pieces ++
        eachAfter op.word.piece (op.grade + 1) others)
  | .compare left op right others =>
    enclose 6 left.grade left.pieces ++
      (op.pieces ++ (enclose 6 right.grade right.pieces ++ stepPieces others))
  | .conditional test body orelse =>
    enclose 2 body.grade body.pieces ++
      Keyword.ifKw.piece :: (enclose 2 test.grade test.pieces ++
        Keyword.elseKw.piece :: enclose 1 orelse.grade orelse.pieces)
  | .call func args =>
    enclose 14 func.grade func.pieces ++
      Symbol.openParen.piece :: (itemPieces args ++ [Symbol.closeParen.piece])
  | .member value attr =>
    enclose value.receiverGrade value.grade value.pieces ++ [Symbol.dot.piece, attr.piece]
  | .subscript value index =>
    enclose 14 value.grade value.pieces ++
      Symbol.openBracket.piece :: (index.pieces ++ [Symbol.closeBracket.piece])
  | .tuple [] => [Symbol.openParen.piece, Symbol.closeParen.piece]
  | .tuple (first :: others) =>
    enclose 1 first.grade first.pieces ++
      (eachAfter Symbol.comma.piece 1 others ++ lastComma others)
  | .list elts => Symbol.openBracket.piece :: (itemPieces elts ++ [Symbol.closeBracket.piece])

/-- The pieces of expressions of some grade, each behind the same piece. -/
def eachAfter (mark : Piece) (wanted : Nat) : List Expr → List Piece
  | [] => []
  | e :: es => mark :: (enclose wanted e.grade e.pieces ++ eachAfter mark wanted es)

/-- The pieces of expressions with commas between them. -/
def itemPieces : List Expr → List Piece
  | [] => []
  | e :: es => enclose 1 e.grade e.pieces ++ eachAfter Symbol.comma.piece 1 es

/-- The pieces of a chain of comparisons behind its first operand. -/
def stepPieces : List (CompareOp × Expr) → List Piece
  | [] => []
  | (op, e) :: steps => op.pieces ++ (enclose 6 e.grade e.pieces ++ stepPieces steps)

end

/-- The pieces of an expression where one of some grade is wanted. -/
def Expr.written (e : Expr) (wanted : Nat) : List Piece := enclose wanted e.grade e.pieces

/-! ## Shapes -/

/-- The node of a value. -/
def Literal.data : Literal → NodeData
  | .int _ => .constant .int Option.none
  | .string value => .constant .string (some value)
  | .none => .constant .none Option.none
  | .true => .constant .true Option.none
  | .false => .constant .false Option.none

/-- A node of an arena is a name with the given text. -/
def Identifier.Shown (a : Arena) (id : Identifier) (node : NodeId) : Prop :=
  ∃ atom, a.data? node = some (.name atom) ∧ a.names.names[atom]? = some id.text

mutual

/-- The nodes below a node of an arena have the shape of an expression. -/
def Expr.Shown (a : Arena) : Expr → NodeId → Prop
  | .name id, node => id.Shown a node
  | .literal value, node => a.data? node = some value.data
  | .unary op operand, node => ∃ i, a.data? node = some (.unary op i) ∧ operand.Shown a i
  | .binary left op right, node =>
    ∃ i j, a.data? node = some (.binary i op j) ∧ left.Shown a i ∧ right.Shown a j
  | .boolean op first second others, node =>
    ∃ i j is, a.data? node = some (.boolean op (i :: j :: is)) ∧ first.Shown a i ∧
      second.Shown a j ∧ AllShown a others is
  | .compare left op right others, node =>
    ∃ i j is, a.data? node = some (.compare i (op :: others.map Prod.fst) (j :: is)) ∧
      left.Shown a i ∧ right.Shown a j ∧ StepsShown a others is
  | .conditional test body orelse, node =>
    ∃ i j k, a.data? node = some (.conditional i j k) ∧ test.Shown a i ∧ body.Shown a j ∧
      orelse.Shown a k
  | .call func args, node =>
    ∃ i is, a.data? node = some (.call i is) ∧ func.Shown a i ∧ ArgumentsShown a args is
  | .member value attr, node =>
    ∃ i j, a.data? node = some (.member i j) ∧ value.Shown a i ∧ attr.Shown a j
  | .subscript value index, node =>
    ∃ i j, a.data? node = some (.subscript i j) ∧ value.Shown a i ∧ index.Shown a j
  | .tuple elts, node => ∃ is, a.data? node = some (.tuple is) ∧ AllShown a elts is
  | .list elts, node => ∃ is, a.data? node = some (.list is) ∧ AllShown a elts is

/-- Some nodes have the shapes of some expressions, one by one. -/
def AllShown (a : Arena) : List Expr → List NodeId → Prop
  | [], is => is = []
  | e :: es, is => ∃ i js, is = i :: js ∧ e.Shown a i ∧ AllShown a es js

/-- Some nodes are arguments that have the shapes of some expressions, one by one. -/
def ArgumentsShown (a : Arena) : List Expr → List NodeId → Prop
  | [], is => is = []
  | e :: es, is =>
    ∃ i j js, is = i :: js ∧ a.data? i = some (.argument .positional Option.none j) ∧ e.Shown a j ∧
      ArgumentsShown a es js

/-- Some nodes have the shapes of the operands of a chain of comparisons, one by one. -/
def StepsShown (a : Arena) : List (CompareOp × Expr) → List NodeId → Prop
  | [], is => is = []
  | (_, e) :: steps, is => ∃ i js, is = i :: js ∧ e.Shown a i ∧ StepsShown a steps js

end

end LiveCheck

/-!
## Texts between double quotes
-/

namespace LiveCheck.StringLiteral

private theorem escaped_eq : escaped = escapedIn '"' := by
  funext c
  unfold escaped escapedIn
  split <;> simp_all

theorem quote_eq (value : String) : quote value = QuotedText.text ⟨'"', rfl, value⟩ := by
  rw [quote, escaped_eq]
  rfl

theorem decode_quote (value : String) : decode (quote value) = value := by
  rw [quote_eq, decode_text]

end LiveCheck.StringLiteral
