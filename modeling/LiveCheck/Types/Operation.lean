import LiveCheck.Types.Query

/-!
# Operators on built-in classes

The type an operator gives for operands of built-in classes, or nothing if it does not take them.
Operators distribute over unions. On classes, `|` makes the type expression of a union.
-/

namespace LiveCheck

namespace BuiltinClass

/-- Where a number stands in the tower of numbers. -/
def numericRank? : BuiltinClass → Option Nat
  | bool | int => some 0
  | float => some 1
  | complex => some 2
  | _ => Option.none

/-- Whether values count as whole numbers. -/
def isIntegral (cls : BuiltinClass) : Bool := cls == int || cls == bool

end BuiltinClass

/-- The type of numbers at a place in the tower. -/
def numericType : Nat → TypeId
  | 0 => .int
  | 1 => .float
  | _ => .complex

def numericOperation? (op : BinaryOp) (left right : BuiltinClass) (rank : Nat) : Option TypeId :=
  match op with
  | .add | .sub | .mul | .mod | .floorDiv | .pow => some (numericType rank)
  | .div => some (numericType (max rank 1))
  | .bitAnd | .bitOr | .bitXor =>
    if left == .bool && right == .bool then some .bool
    else if rank == 0 then some .int else none
  | .shiftLeft | .shiftRight => if rank == 0 then some .int else none
  | .matMul => none

namespace TypeTable

/-- The type argument at an index; unknown if there is none. -/
def argument (args : List TypeId) (index : Nat) : TypeId := args.getD index .unknown

/-- An operator on values of two built-in classes that are not both numbers. -/
def containerOperation? (op : BinaryOp) (left : TypeId) (cls : BuiltinClass) (args : List TypeId)
    (right : TypeId) (cls' : BuiltinClass) (args' : List TypeId) : TypeM (Option TypeId) :=
  match op, cls, cls' with
  | .add, .str, .str => pure (some .str)
  | .mod, .str, _ => pure (some .str)
  | .add, .bytes, .bytes => pure (some .bytes)
  | .mod, .bytes, _ => pure (some .bytes)
  | .add, .list, .list => some <$> (union2 (argument args 0) (argument args' 0) >>= listOf)
  | .add, .tuple, .tuple => some <$> tupleOf (args ++ args')
  | .bitOr, .set, .set => some <$> (union2 (argument args 0) (argument args' 0) >>= setOf)
  | .bitAnd, .set, .set => some <$> setOf (argument args 0)
  | .bitXor, .set, .set => some <$> setOf (argument args 0)
  | .sub, .set, .set => some <$> setOf (argument args 0)
  | .bitOr, .dict, .dict => do
    let key ← union2 (argument args 0) (argument args' 0)
    let value ← union2 (argument args 1) (argument args' 1)
    some <$> dictOf key value
  | .mul, .str, other => pure (if other.isIntegral then some .str else none)
  | .mul, .bytes, other => pure (if other.isIntegral then some .bytes else none)
  | .mul, .list, other => pure (if other.isIntegral then some left else none)
  | .mul, other, .str => pure (if other.isIntegral then some .str else none)
  | .mul, other, .list => pure (if other.isIntegral then some right else none)
  | _, _, _ => pure none

def simpleOperation? (op : BinaryOp) (left right : TypeId) : TypeM (Option TypeId) := do
  let t ← get
  match t.builtinParts? left, t.builtinParts? right with
  | some (cls, args), some (cls', args') =>
    match cls.numericRank?, cls'.numericRank? with
    | some rank, some rank' => return numericOperation? op cls cls' (max rank rank')
    | _, _ => containerOperation? op left cls args right cls' args'
  | _, _ => return none

/-- What a value stands for in a type expression. -/
def formOf? (t : TypeTable) (id : TypeId) : Option TypeId :=
  match t.inner? id with
  | some inner => some inner
  | none => if id == .none then some .none else none

/-- The instances that `left | right` stands for as a type expression. At least one side is a
class. -/
def unionForm? (t : TypeTable) (left right : TypeId) : Option (TypeId × TypeId) :=
  match t.formOf? left, t.formOf? right with
  | some l, some r => if left == .none && right == .none then none else some (l, r)
  | _, _ => none

/-- The type of an operator applied to two values. -/
def operation? (op : BinaryOp) (left right : TypeId) : TypeM (Option TypeId) := do
  if left == .unknown || right == .unknown then return some .unknown
  if left == .any || right == .any then return some .any
  let t ← get
  match if op == .bitOr then t.unionForm? left right else none with
  | some (l, r) => some <$> (union2 l r >>= classObject)
  | none =>
    match t.members left, t.members right with
    | [_], [_] => simpleOperation? op left right
    | lefts, rights =>
      OptionT.run do
        let pairs := lefts.flatMap fun l => rights.map (l, ·)
        union (← pairs.mapM fun (l, r) => OptionT.mk (simpleOperation? op l r))

def simpleUnary? (t : TypeTable) (op : UnaryOp) (operand : TypeId) : Option TypeId := do
  let rank ← (← t.builtin? operand).numericRank?
  if op == .invert then if rank == 0 then some .int else none
  else some (numericType rank)

/-- The type of a prefix operator applied to a value; `not` takes anything. -/
def unary? (op : UnaryOp) (operand : TypeId) : TypeM (Option TypeId) := do
  if op == .not then return some .bool
  if operand == .unknown || operand == .any then return some operand
  let t ← get
  match (t.members operand).mapM (t.simpleUnary? op) with
  | some results => some <$> union results
  | none => return none

end TypeTable
end LiveCheck
