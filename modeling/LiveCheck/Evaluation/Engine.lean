import LiveCheck.Evaluation.Declaration
import LiveCheck.Evaluation.Result

/-!
# The engine

A key is computed once and its result is kept. A key that is asked for while it is being computed is
answered by a placeholder, and whatever used the placeholder is not kept, except by the computation
that it stood for. The number of computations in progress is bounded.
-/

namespace LiveCheck.Evaluation

/-- The place of a key on the stack, counted from one at the bottom. -/
def position? (stack : List Frame) (key : EvalKey) : Option Nat :=
  (stack.reverse.findIdx? (·.key == key)).map (· + 1)

/-- Lowers the mark of the innermost computation. -/
def lowerTop (position : Nat) : List Frame → List Frame
  | [] => []
  | top :: rest => { top with lowest := min top.lowest position } :: rest

/-- Begins a computation; the answer is its place on the stack. -/
def push (key : EvalKey) : EvalM Nat := fun st =>
  let position := st.stack.length + 1
  (position, { st with stack := ⟨key, position⟩ :: st.stack }.note (.began key))

/-- Ends the innermost computation; the answer is the lowest place it has seen unfinished, which the
computation around it has then seen, too. -/
def pop (position : Nat) : EvalM Nat := fun st =>
  match st.stack with
  | [] => (position, st)
  | top :: rest =>
    (top.lowest, { st with stack := lowerTop top.lowest rest }.note (.ended top.key))

/-- Notes that a key at the given place was asked for again. -/
def noteReentry (key : EvalKey) (position : Nat) : EvalM Unit :=
  modify fun st =>
    { st with
      stack := lowerTop position st.stack
      reentered :=
        match key with
        | .result _ _ => if st.reentered.contains key then st.reentered else key :: st.reentered
        | _ => st.reentered }.note (.reentered key position)

/-- What stands for a key that is being computed. -/
def placeholder : EvalKey → EvalM TypeId
  | .node _ _ => return .unknown
  | key@(.result _ _) => return ((← get).provisional.lookup key).getD .unknown
  | .decl decl => do
    match ← declaration? decl with
    | some d => withTypes (TypeTable.recursive decl d.name)
    | none => return .unknown

/-- A declaration whose value is nothing but itself is unknown; in a union it is left out. -/
def finish (key : EvalKey) (type : TypeId) : EvalM TypeId := do
  match key with
  | .decl decl =>
    let t ← types
    let isSelf (m : TypeId) : Bool := t.recursiveDecl? m == some decl
    let members := t.members type
    if members.any isSelf then
      let rest := members.filter (!isSelf ·)
      if rest.isEmpty then return .unknown else withTypes (TypeTable.union rest)
    else return type
  | _ => return type

/-- Reports that the stack is full, and marks the innermost computation for it. -/
def tooDeep (key : EvalKey) : EvalM TypeId := do
  if let some (file, node) ← site? key then
    reportAt file node Code.evaluationTooDeep []
  modify fun st => { st with stack := lowerTop 0 st.stack }.note (.exceeded key)
  return .unknown

/-- Answers a key by the given rules, with room for so many more computations on the stack. -/
def evaluateBy (rules : Ask → EvalKey → EvalM TypeId) : Nat → EvalKey → EvalM TypeId
  | room, key => do
    match ← memo? key with
    | some type => return type
    | none =>
      match position? (← get).stack key with
      | some position =>
        noteReentry key position
        placeholder key
      | none =>
        match room with
        | 0 => tooDeep key
        | room + 1 =>
          let position ← push key
          let found ← rules (evaluateBy rules room) key
          let lowest ← pop position
          let type ← finish key found
          if position ≤ lowest then remember key type
          return type

/-- The rules for the three kinds of keys. -/
def compute (ask : Ask) : EvalKey → EvalM TypeId
  | .node file node => computeExpression ask file node
  | .decl decl => computeDeclaration ask decl
  | .result file node => computeResult ask file node

/-- Answers a key at the beginning of an evaluation. -/
def evaluate (key : EvalKey) : EvalM TypeId := do
  evaluateBy compute (← get).session.options.maxEvaluationDepth key

/-- Runs an evaluation on a session; there is no result if it goes on without end. -/
def run {α : Type} (m : EvalM α) (s : Session) : Option α × Session :=
  let (a, st) := m { session := s }
  (if st.endless then none else some a, st.session)

end LiveCheck.Evaluation
