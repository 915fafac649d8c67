import LiveCheck.Proofs.Printing.Scanning
import LiveCheck.Proofs.Printing.Reading

/-!
# Statements and how they are written

Statements as trees of their own, apart from their text and from the arena of a parse. A simple
statement is written on a line; a compound one has a line for each of its clauses and, behind it, the
lines of a block. No block is empty, and every block has an indentation of its own.
-/

namespace LiveCheck

/-! ## Targets -/

/-- Whether the expression is a single place. -/
def Expr.isPlace : Expr → Bool
  | .name _ | .member .. | .subscript .. => true
  | _ => false

mutual

/-- Whether something can be assigned to the expression. -/
def Expr.isTarget : Expr → Bool
  | .tuple elts | .list elts => areTargets elts
  | e => e.isPlace

/-- Whether something can be assigned to all expressions of a list. -/
def areTargets : List Expr → Bool
  | [] => true
  | e :: es => e.isTarget && areTargets es

end

/-! ## Lines -/

/-- Names with dots between them. -/
structure DottedName where
  /-- The name before the first dot. -/
  first : Identifier
  /-- The names behind the dots. -/
  others : List Identifier

/-- What an import names, with a new name perhaps. -/
structure Alias (α : Type) where
  /-- What is imported. -/
  path : α
  /-- Its new name. -/
  asname : Option Identifier

/-- Where names are imported from. -/
inductive ImportSource
  /-- A module, behind some dots. -/
  | module (level : Nat) (path : DottedName)
  /-- One dot and `more` others alone. -/
  | dots (more : Nat)

/-- A statement that fits into a line. -/
inductive Simple
  | pass
  | breakLoop
  | continueLoop
  | expr (value : Expr)
  /-- An assignment to one target or to several ones. -/
  | assign (first : Expr) (others : List Expr) (value : Expr)
      (h : areTargets (first :: others) = true)
  | annotated (target hint : Expr) (value : Option Expr) (h : target.isPlace = true)
  | augmented (target : Expr) (op : BinaryOp) (value : Expr) (h : target.isPlace = true)
  | returns (value : Option Expr)
  /-- An exception is raised, perhaps from another one. -/
  | raises (exc : Option (Expr × Option Expr))
  | asserts (test : Expr) (msg : Option Expr)
  | deletes (target : Expr) (h : target.isTarget = true)
  | globals (first : Identifier) (others : List Identifier)
  | nonlocals (first : Identifier) (others : List Identifier)
  | imports (first : Alias DottedName) (others : List (Alias DottedName))
  | importsFrom (source : ImportSource) (first : Alias Identifier)
      (others : List (Alias Identifier))
  | importsAll (source : ImportSource)

/-- A parameter of a function. -/
inductive Parameter
  | normal (name : Identifier) (hint default : Option Expr)
  | varArgs (name : Identifier) (hint : Option Expr)
  | kwArgs (name : Identifier) (hint : Option Expr)
  | keywordMarker
  | positionalMarker

/-- An item of a `with`. -/
structure WithItem where
  /-- The context. -/
  context : Expr
  /-- What it is bound to. -/
  target : Option Expr
  /-- Something can be assigned to it. -/
  valid : ∀ e ∈ target, e.isTarget = true

/-- What a handler catches: everything, or a type of exceptions, with a name perhaps. -/
abbrev Caught := Option (Expr × Option Identifier)

/-! ## Statements -/

mutual

/-- A statement. -/
inductive Stmt
  | simple (line : Simple)
  | ifElse (test : Expr) (body : Block) (orelse : Branch)
  | whileLoop (test : Expr) (body : Block) (orelse : Tail)
  | forLoop (target iter : Expr) (body : Block) (orelse : Tail) (h : target.isTarget = true)
  /-- A `try` with handlers. -/
  | tryExcept (body : Block) (handlers : Handlers) (orelse finalbody : Tail)
  /-- A `try` without handlers. -/
  | tryFinally (body : Block) (orelse : Tail) (finalbody : Block)
  | withItems (first : WithItem) (others : List WithItem) (body : Block)
  | functionDef (name : Identifier) (params : List Parameter) (returns : Option Expr)
      (body : Block)
  | classDef (name : Identifier) (bases : Option (List Expr)) (body : Block)

/-- A block, with `extra + 1` blanks more before its lines than before the one above it. -/
inductive Block
  | mk (extra : Nat) (body : Body)

/-- The statements of a block; there is one at least. -/
inductive Body
  | last (statement : Stmt)
  | cons (statement : Stmt) (others : Body)

/-- What follows the block of an `if`. -/
inductive Branch
  | none
  | orelse (body : Block)
  | elif (test : Expr) (body : Block) (orelse : Branch)

/-- A block that may be missing, behind a clause that is one word. -/
inductive Tail
  | none
  | block (body : Block)

/-- The handlers of a `try`; there is one at least. -/
inductive Handlers
  | last (caught : Caught) (body : Block)
  | cons (caught : Caught) (body : Block) (others : Handlers)

end

/-! ## Pieces -/

/-- The symbol of an augmented assignment. -/
def BinaryOp.augmented : BinaryOp → Symbol
  | add => .plusEquals
  | sub => .minusEquals
  | mul => .starEquals
  | matMul => .atEquals
  | div => .slashEquals
  | floorDiv => .doubleSlashEquals
  | mod => .percentEquals
  | pow => .doubleStarEquals
  | shiftLeft => .leftShiftEquals
  | shiftRight => .rightShiftEquals
  | bitOr => .pipeEquals
  | bitXor => .caretEquals
  | bitAnd => .ampersandEquals

/-- The pieces of an expression as one item. -/
def Expr.item (e : Expr) : List Piece := e.written 1

/-- The pieces of names with commas between them. -/
def namePieces (first : Identifier) (others : List Identifier) : List Piece :=
  between Symbol.comma.piece (fun id => [id.piece]) (first :: others)

def DottedName.pieces (path : DottedName) : List Piece :=
  between Symbol.dot.piece (fun id => [id.piece]) (path.first :: path.others)

/-- The pieces of an import, given those of what it imports. -/
def Alias.pieces {α : Type} (path : α → List Piece) (imported : Alias α) : List Piece :=
  path imported.path ++ optionalPieces Keyword.asKw.piece (fun id => [id.piece]) imported.asname

def ImportSource.pieces : ImportSource → List Piece
  | module level path => List.replicate level Symbol.dot.piece ++ path.pieces
  | dots more => List.replicate (more + 1) Symbol.dot.piece

/-- The pieces of a line. -/
def Simple.pieces : Simple → List Piece
  | pass => [Keyword.passKw.piece]
  | breakLoop => [Keyword.breakKw.piece]
  | continueLoop => [Keyword.continueKw.piece]
  | expr value => value.pieces
  | assign first others value _ =>
    between Symbol.equals.piece Expr.pieces (first :: (others ++ [value]))
  | annotated target hint value _ =>
    target.pieces ++ Symbol.colon.piece ::
      (hint.item ++ optionalPieces Symbol.equals.piece Expr.pieces value)
  | augmented target op value _ => target.pieces ++ op.augmented.piece :: value.pieces
  | returns value => Keyword.returnKw.piece :: value.elim [] Expr.pieces
  | raises exc => Keyword.raiseKw.piece :: exc.elim [] fun (type, cause) =>
      type.item ++ optionalPieces Keyword.fromKw.piece Expr.item cause
  | asserts test msg =>
    Keyword.assertKw.piece :: (test.item ++ optionalPieces Symbol.comma.piece Expr.item msg)
  | deletes target _ => Keyword.delKw.piece :: target.pieces
  | globals first others => Keyword.globalKw.piece :: namePieces first others
  | nonlocals first others => Keyword.nonlocalKw.piece :: namePieces first others
  | imports first others =>
    Keyword.importKw.piece ::
      between Symbol.comma.piece (Alias.pieces DottedName.pieces) (first :: others)
  | importsFrom source first others =>
    Keyword.fromKw.piece :: (source.pieces ++ Keyword.importKw.piece ::
      between Symbol.comma.piece (Alias.pieces fun id => [id.piece]) (first :: others))
  | importsAll source =>
    Keyword.fromKw.piece ::
      (source.pieces ++ [Keyword.importKw.piece, Symbol.star.piece])

/-- The pieces of a parameter. -/
def Parameter.pieces : Parameter → List Piece
  | normal name hint default =>
    name.piece :: (optionalPieces Symbol.colon.piece Expr.item hint ++
      optionalPieces Symbol.equals.piece Expr.item default)
  | varArgs name hint =>
    Symbol.star.piece :: name.piece :: optionalPieces Symbol.colon.piece Expr.item hint
  | kwArgs name hint =>
    Symbol.doubleStar.piece :: name.piece :: optionalPieces Symbol.colon.piece Expr.item hint
  | keywordMarker => [Symbol.star.piece]
  | positionalMarker => [Symbol.slash.piece]

/-- The pieces of an item of a `with`; what it is bound to has no comma outside of brackets. -/
def WithItem.pieces (item : WithItem) : List Piece :=
  item.context.item ++ optionalPieces Keyword.asKw.piece (·.written 6) item.target

/-- The pieces of what a handler catches. -/
def caughtPieces (caught : Caught) : List Piece :=
  caught.elim [] fun (type, name) =>
    type.item ++ optionalPieces Keyword.asKw.piece (fun id => [id.piece]) name

/-- The line of a clause: a word, its parts and a colon. -/
def clause (word : Keyword) (parts : List Piece) : List Piece :=
  word.piece :: (parts ++ [Symbol.colon.piece])

/-! ## Outlines -/

/-- An outline with another one behind it, if there is one. -/
def Outline.before (o : Outline) : Option Outline → Outline
  | none => o
  | some behind => .both o behind

mutual

/-- The lines of a statement and their blocks. -/
def Stmt.outline : Stmt → Outline
  | .simple line => .line line.pieces
  | .ifElse test (.mk extra body) orelse =>
    (Outline.block (clause .ifKw test.item) extra body.outline).before orelse.outline
  | .whileLoop test (.mk extra body) orelse =>
    (Outline.block (clause .whileKw test.item) extra body.outline).before (orelse.outline .elseKw)
  | .forLoop target iter (.mk extra body) orelse _ =>
    (Outline.block (clause .forKw (target.pieces ++ Keyword.inKw.piece :: iter.pieces)) extra
      body.outline).before (orelse.outline .elseKw)
  | .tryExcept (.mk extra body) handlers orelse finalbody =>
    ((Outline.both (.block (clause .tryKw []) extra body.outline) handlers.outline).before
      (orelse.outline .elseKw)).before (finalbody.outline .finallyKw)
  | .tryFinally (.mk extra body) orelse (.mk extra' finalbody) =>
    .both ((Outline.block (clause .tryKw []) extra body.outline).before (orelse.outline .elseKw))
      (.block (clause .finallyKw []) extra' finalbody.outline)
  | .withItems first others (.mk extra body) =>
    .block (clause .withKw (between Symbol.comma.piece WithItem.pieces (first :: others))) extra
      body.outline
  | .functionDef name params returns (.mk extra body) =>
    .block (clause .defKw (name.piece :: Symbol.openParen.piece ::
      (between Symbol.comma.piece Parameter.pieces params ++ Symbol.closeParen.piece ::
        optionalPieces Symbol.arrow.piece Expr.item returns))) extra body.outline
  | .classDef name bases (.mk extra body) =>
    .block (clause .classKw (name.piece :: bases.elim [] fun bases =>
      Symbol.openParen.piece :: (itemPieces bases ++ [Symbol.closeParen.piece]))) extra body.outline

/-- The lines of the statements of a block. -/
def Body.outline : Body → Outline
  | .last statement => statement.outline
  | .cons statement others => .both statement.outline others.outline

/-- The lines behind the block of an `if`, if there are any. -/
def Branch.outline : Branch → Option Outline
  | .none => none
  | .orelse (.mk extra body) => some (.block (clause .elseKw []) extra body.outline)
  | .elif test (.mk extra body) orelse =>
    some ((Outline.block (clause .elifKw test.item) extra body.outline).before orelse.outline)

/-- The lines of a clause of one word, if it is there. -/
def Tail.outline (word : Keyword) : Tail → Option Outline
  | .none => none
  | .block (.mk extra body) => some (.block (clause word []) extra body.outline)

/-- The lines of handlers. -/
def Handlers.outline : Handlers → Outline
  | .last caught (.mk extra body) =>
    .block (clause .exceptKw (caughtPieces caught)) extra body.outline
  | .cons caught (.mk extra body) others =>
    .both (.block (clause .exceptKw (caughtPieces caught)) extra body.outline) others.outline

end

/-- The pieces of an outline that may be missing. -/
def optionalLines (column : Nat) (o : Option Outline) : List Piece := o.elim [] (·.pieces column)

/-- The colon behind a clause, the block of the clause, and what follows. -/
def indented (o : Outline) (column extra : Nat) (behind : List Piece) : List Piece :=
  Symbol.colon.piece :: Piece.lineEnd :: Piece.indent (column + extra + 1) ::
    (o.pieces (column + extra + 1) ++ Piece.dedent :: behind)

theorem pieces_block (word : Keyword) (parts : List Piece) (o : Outline) (column extra : Nat)
    (behind : List Piece) :
    (Outline.block (clause word parts) extra o).pieces column ++ behind =
      word.piece :: (parts ++ indented o column extra behind) := by
  simp [Outline.pieces, clause, indented]

theorem pieces_both (first second : Outline) (column : Nat) (behind : List Piece) :
    (Outline.both first second).pieces column ++ behind =
      first.pieces column ++ (second.pieces column ++ behind) := List.append_assoc ..

theorem pieces_before (o : Outline) (x : Option Outline) (column : Nat) (behind : List Piece) :
    (o.before x).pieces column ++ behind = o.pieces column ++ (optionalLines column x ++ behind) := by
  cases x with
  | none => rfl
  | some => exact List.append_assoc ..

theorem size_le_optionalLines (x : Option Outline) (column : Nat) :
    x.elim 0 Outline.size ≤ (optionalLines column x).length := by
  cases x with
  | none => exact Nat.zero_le _
  | some o => exact o.size_le_length column

theorem size_before (o : Outline) (x : Option Outline) :
    (o.before x).size = o.size + x.elim 0 Outline.size := by
  cases x <;> rfl

/-! ## Expressions -/

/-- The expressions of a line. -/
def Simple.exprs : Simple → List Expr
  | pass | breakLoop | continueLoop | globals .. | nonlocals .. | imports .. | importsFrom ..
  | importsAll _ => []
  | expr value => [value]
  | assign first others value _ => first :: (others ++ [value])
  | annotated target hint value _ => target :: hint :: value.toList
  | augmented target _ value _ => [target, value]
  | returns value => value.toList
  | raises exc => exc.elim [] fun (type, cause) => type :: cause.toList
  | asserts test msg => test :: msg.toList
  | deletes target _ => [target]

/-- The expressions of a parameter. -/
def Parameter.exprs : Parameter → List Expr
  | normal _ hint default => hint.toList ++ default.toList
  | varArgs _ hint | kwArgs _ hint => hint.toList
  | keywordMarker | positionalMarker => []

/-- The expressions of an item of a `with`. -/
def WithItem.exprs (item : WithItem) : List Expr := item.context :: item.target.toList

/-- The expression of a handler. -/
def caughtExprs (caught : Caught) : List Expr := (caught.map Prod.fst).toList

mutual

/-- The expressions of a statement. -/
def Stmt.exprs : Stmt → List Expr
  | .simple line => line.exprs
  | .ifElse test (.mk _ body) orelse => test :: (body.exprs ++ orelse.exprs)
  | .whileLoop test (.mk _ body) orelse => test :: (body.exprs ++ orelse.exprs)
  | .forLoop target iter (.mk _ body) orelse _ => target :: iter :: (body.exprs ++ orelse.exprs)
  | .tryExcept (.mk _ body) handlers orelse finalbody =>
    body.exprs ++ (handlers.exprs ++ (orelse.exprs ++ finalbody.exprs))
  | .tryFinally (.mk _ body) orelse (.mk _ finalbody) =>
    body.exprs ++ (orelse.exprs ++ finalbody.exprs)
  | .withItems first others (.mk _ body) =>
    (first :: others).flatMap WithItem.exprs ++ body.exprs
  | .functionDef _ params returns (.mk _ body) =>
    params.flatMap Parameter.exprs ++ (returns.toList ++ body.exprs)
  | .classDef _ bases (.mk _ body) => bases.getD [] ++ body.exprs

def Body.exprs : Body → List Expr
  | .last statement => statement.exprs
  | .cons statement others => statement.exprs ++ others.exprs

def Branch.exprs : Branch → List Expr
  | .none => []
  | .orelse (.mk _ body) => body.exprs
  | .elif test (.mk _ body) orelse => test :: (body.exprs ++ orelse.exprs)

def Tail.exprs : Tail → List Expr
  | .none => []
  | .block (.mk _ body) => body.exprs

def Handlers.exprs : Handlers → List Expr
  | .last caught (.mk _ body) => caughtExprs caught ++ body.exprs
  | .cons caught (.mk _ body) others => caughtExprs caught ++ (body.exprs ++ others.exprs)

end

/-- The parser descends into all of the expressions. -/
def Shallow (es : List Expr) : Prop := ∀ e ∈ es, e.depth < Limits.parseDepth

/-! ## Shapes -/

/-- Some nodes are names with the given texts, one by one. -/
def NamesShown (a : Arena) (ids : List Identifier) (is : List NodeId) : Prop :=
  List.Forall₂ (Identifier.Shown a) ids is

/-- A node that may be missing has the shape of an expression that may be missing. -/
def OptionShown (a : Arena) (e : Option Expr) (i : Option NodeId) : Prop :=
  Option.Rel (Expr.Shown a) e i

/-- A node is an import with its new name. -/
def Alias.Shown {α : Type} (path : α → List Identifier) (a : Arena) (imported : Alias α)
    (i : NodeId) : Prop :=
  ∃ js k, a.data? i = some (.importAlias js k) ∧ NamesShown a (path imported.path) js ∧
    Option.Rel (Identifier.Shown a) imported.asname k

def DottedName.names (path : DottedName) : List Identifier := path.first :: path.others

/-- How many dots there are, and the names behind them. -/
def ImportSource.parts : ImportSource → Nat × List Identifier
  | module level path => (level, path.names)
  | dots more => (more + 1, [])

/-- A node of an arena has the shape of a line. -/
def Simple.Shown (a : Arena) : Simple → NodeId → Prop
  | pass, node => a.data? node = some .pass
  | breakLoop, node => a.data? node = some .breakLoop
  | continueLoop, node => a.data? node = some .continueLoop
  | expr value, node => ∃ i, a.data? node = some (.exprStmt i) ∧ value.Shown a i
  | assign first others value _, node =>
    ∃ is j, a.data? node = some (.assign is j) ∧ AllShown a (first :: others) is ∧
      value.Shown a j
  | annotated target hint value _, node =>
    ∃ i j k, a.data? node = some (.annAssign i j k) ∧ target.Shown a i ∧ hint.Shown a j ∧
      OptionShown a value k
  | augmented target op value _, node =>
    ∃ i j, a.data? node = some (.augAssign i op j) ∧ target.Shown a i ∧ value.Shown a j
  | returns value, node => ∃ i, a.data? node = some (.returnStmt i) ∧ OptionShown a value i
  | raises exc, node =>
    ∃ i j, a.data? node = some (.raiseStmt i j) ∧ OptionShown a (exc.map Prod.fst) i ∧
      OptionShown a (exc.bind Prod.snd) j
  | asserts test msg, node =>
    ∃ i j, a.data? node = some (.assertStmt i j) ∧ test.Shown a i ∧ OptionShown a msg j
  | deletes (.tuple elts) _, node =>
    ∃ is, a.data? node = some (.deleteStmt is) ∧ AllShown a elts is
  | deletes target _, node => ∃ i, a.data? node = some (.deleteStmt [i]) ∧ target.Shown a i
  | globals first others, node =>
    ∃ is, a.data? node = some (.globalStmt is) ∧ NamesShown a (first :: others) is
  | nonlocals first others, node =>
    ∃ is, a.data? node = some (.nonlocalStmt is) ∧ NamesShown a (first :: others) is
  | imports first others, node =>
    ∃ is, a.data? node = some (.importStmt is) ∧
      List.Forall₂ (Alias.Shown DottedName.names a) (first :: others) is
  | importsFrom source first others, node =>
    ∃ is js, a.data? node = some (.importFrom is source.parts.1 js false) ∧
      NamesShown a source.parts.2 is ∧
      List.Forall₂ (Alias.Shown (fun id => [id]) a) (first :: others) js
  | importsAll source, node =>
    ∃ is, a.data? node = some (.importFrom is source.parts.1 [] true) ∧
      NamesShown a source.parts.2 is

/-- A node is a parameter as it is written. -/
def Parameter.Shown (a : Arena) : Parameter → NodeId → Prop
  | normal name hint default, node =>
    ∃ i j k, a.data? node = some (.parameter .normal (some i) j k) ∧ name.Shown a i ∧
      OptionShown a hint j ∧ OptionShown a default k
  | varArgs name hint, node =>
    ∃ i j, a.data? node = some (.parameter .varArgs (some i) j none) ∧ name.Shown a i ∧
      OptionShown a hint j
  | kwArgs name hint, node =>
    ∃ i j, a.data? node = some (.parameter .kwArgs (some i) j none) ∧ name.Shown a i ∧
      OptionShown a hint j
  | keywordMarker, node => a.data? node = some (.parameter .keywordMarker none none none)
  | positionalMarker, node => a.data? node = some (.parameter .positionalMarker none none none)

/-- A node is an item of a `with` as it is written. -/
def WithItem.Shown (a : Arena) (item : WithItem) (node : NodeId) : Prop :=
  ∃ i j, a.data? node = some (.withItem i j) ∧ item.context.Shown a i ∧ OptionShown a item.target j

/-- What a handler catches is as it is written. -/
def CaughtShown (a : Arena) (caught : Caught) (type name : Option NodeId) : Prop :=
  OptionShown a (caught.map Prod.fst) type ∧
    Option.Rel (Identifier.Shown a) (caught.bind Prod.snd) name

mutual

/-- The nodes below a node of an arena have the shape of a statement. -/
def Stmt.Shown (a : Arena) : Stmt → NodeId → Prop
  | .simple line, node => line.Shown a node
  | .ifElse test (.mk _ body) orelse, node =>
    ∃ i js ks, a.data? node = some (.ifStmt i js ks) ∧ test.Shown a i ∧ body.Shown a js ∧
      orelse.Shown a ks
  | .whileLoop test (.mk _ body) orelse, node =>
    ∃ i js ks, a.data? node = some (.whileLoop i js ks) ∧ test.Shown a i ∧ body.Shown a js ∧
      orelse.Shown a ks
  | .forLoop target iter (.mk _ body) orelse _, node =>
    ∃ i j ks ls, a.data? node = some (.forLoop i j ks ls) ∧ target.Shown a i ∧ iter.Shown a j ∧
      body.Shown a ks ∧ orelse.Shown a ls
  | .tryExcept (.mk _ body) handlers orelse finalbody, node =>
    ∃ is js ks ls, a.data? node = some (.tryStmt is js ks ls) ∧ body.Shown a is ∧
      handlers.Shown a js ∧ orelse.Shown a ks ∧ finalbody.Shown a ls
  | .tryFinally (.mk _ body) orelse (.mk _ finalbody), node =>
    ∃ is ks ls, a.data? node = some (.tryStmt is [] ks ls) ∧ body.Shown a is ∧ orelse.Shown a ks ∧
      finalbody.Shown a ls
  | .withItems first others (.mk _ body), node =>
    ∃ is js, a.data? node = some (.withStmt is js) ∧
      List.Forall₂ (WithItem.Shown a) (first :: others) is ∧ body.Shown a js
  | .functionDef name params returns (.mk _ body), node =>
    ∃ i js k ls, a.data? node = some (.functionDef [] i js k ls) ∧ name.Shown a i ∧
      List.Forall₂ (Parameter.Shown a) params js ∧ OptionShown a returns k ∧ body.Shown a ls
  | .classDef name bases (.mk _ body), node =>
    ∃ i js ks, a.data? node = some (.classDef [] i js ks) ∧ name.Shown a i ∧
      ArgumentsShown a (bases.getD []) js ∧ body.Shown a ks

/-- Some nodes have the shapes of the statements of a block, one by one. -/
def Body.Shown (a : Arena) : Body → List NodeId → Prop
  | .last statement, is => ∃ i, is = [i] ∧ statement.Shown a i
  | .cons statement others, is => ∃ i js, is = i :: js ∧ statement.Shown a i ∧ others.Shown a js

/-- The statements that an `if` executes otherwise: an `elif` is an `if` among them. -/
def Branch.Shown (a : Arena) : Branch → List NodeId → Prop
  | .none, is => is = []
  | .orelse (.mk _ body), is => body.Shown a is
  | .elif test (.mk _ body) orelse, is =>
    ∃ node, is = [node] ∧ ∃ i js ks, a.data? node = some (.ifStmt i js ks) ∧ test.Shown a i ∧
      body.Shown a js ∧ orelse.Shown a ks

/-- The statements of a block that may be missing. -/
def Tail.Shown (a : Arena) : Tail → List NodeId → Prop
  | .none, is => is = []
  | .block (.mk _ body), is => body.Shown a is

/-- Some nodes have the shapes of handlers, one by one. -/
def Handlers.Shown (a : Arena) : Handlers → List NodeId → Prop
  | .last caught (.mk _ body), is =>
    ∃ node, is = [node] ∧ ∃ i j ks, a.data? node = some (.handler i j ks) ∧
      CaughtShown a caught i j ∧ body.Shown a ks
  | .cons caught (.mk _ body) others, is =>
    ∃ node rest, is = node :: rest ∧ (∃ i j ks, a.data? node = some (.handler i j ks) ∧
      CaughtShown a caught i j ∧ body.Shown a ks) ∧ others.Shown a rest

end

end LiveCheck
