import LiveCheck.Proofs.Parsing.Building
import LiveCheck.Proofs.RoundTrips

/-!
# Tall expressions

The parser bounds how many expressions begin anew inside one another. This bounds nothing where an
expression does not begin anew: operators, calls, subscripts and attributes stand on one another as
often as a text has them, and the text is parsed without a problem.
-/

namespace LiveCheck

/-! ## Heights -/

namespace Arena

/-- There are at least so many steps down from a node. -/
def IsTall (a : Arena) : Nat → NodeId → Prop
  | 0, _ => True
  | height + 1, node => ∃ child ∈ a.children node, a.IsTall height child

/-- The node is an expression below the root. -/
structure HasExpression (a : Arena) (root node : NodeId) : Prop where
  reachable : a.Reachable root node
  suits : a.Suits .expression node

end Arena

private theorem Expr.Shown.suits {a : Arena} {e : Expr} {node : NodeId} (h : e.Shown a node) :
    a.Suits .expression node := by
  cases e with
  | name =>
    obtain ⟨_, hdata, -⟩ := h
    exact ⟨_, hdata, rfl⟩
  | literal value =>
    refine ⟨_, h, ?_⟩
    cases value <;> rfl
  | unary | tuple | list =>
    obtain ⟨_, hdata, -⟩ := h
    exact ⟨_, hdata, rfl⟩
  | binary | call | member | subscript =>
    obtain ⟨_, _, hdata, -⟩ := h
    exact ⟨_, hdata, rfl⟩
  | boolean | compare | conditional =>
    obtain ⟨_, _, _, hdata, -⟩ := h
    exact ⟨_, hdata, rfl⟩

private theorem ParsesAs.exists_hasExpression {text : String} {e : Expr} (h : ParsesAs text e) :
    ∃ node, (parse text).tree.arena.HasExpression (parse text).tree.root node ∧
      e.Shown (parse text).tree.arena node := by
  obtain ⟨-, statement, node, hstatements, hstatement, hshown⟩ := h
  have hroot : statement ∈ (parse text).tree.arena.children (parse text).tree.root := by
    have hmem : statement ∈ (parse text).tree.statements := hstatements ▸ List.mem_singleton_self _
    unfold Tree.statements at hmem
    split at hmem
    case h_1 body hdata => rwa [Arena.children_of_data? hdata]
    case h_2 => cases hmem
  have hnode : node ∈ (parse text).tree.arena.children statement := by
    rw [Arena.children_of_data? hstatement]
    exact List.mem_singleton_self _
  exact ⟨node, ⟨.child (.child .root hroot) hnode, hshown.suits⟩, hshown⟩

/-! ## Layers -/

/-- What can be put on an expression, and again on what comes of it, without parentheses. -/
inductive Layer
  | unary (op : UnaryOp)
  | binary (op : BinaryOp) (other : Expr)
  | call (args : List Expr)
  | subscript (index : Expr)
  | member (attr : Identifier)

namespace Layer

variable {layer : Layer} {base e : Expr} {a : Arena} {node : NodeId}

/-- Puts a layer on an expression. Powers group to the right, and the other operators with two
operands to the left. -/
def on : Layer → Expr → Expr
  | unary op, e => .unary op e
  | binary .pow other, e => .binary other .pow e
  | binary op other, e => .binary e op other
  | call args, e => .call e args
  | subscript index, e => .subscript e index
  | member attr, e => .member e attr

/-- An expression with so many layers on it. -/
def tower (layer : Layer) (base : Expr) : Nat → Expr
  | 0 => base
  | height + 1 => layer.on (layer.tower base height)

private theorem nesting_le_on (layer : Layer) (e : Expr) : e.nesting ≤ (layer.on e).nesting := by
  have hle (wanted : Nat) : e.nesting ≤ enclosedLevels wanted e.grade e.nesting :=
    le_enclosedLevels ..
  cases layer with
  | unary op => exact hle op.grade
  | binary op other =>
    cases op
    case pow => exact Nat.le_trans (hle 12) (Nat.le_max_right _ _)
    all_goals exact Nat.le_trans (hle _) (Nat.le_max_left _ _)
  | call args => exact Nat.le_trans (hle 14) (Nat.le_max_left _ _)
  | subscript index => exact Nat.le_trans (hle 14) (Nat.le_max_left _ _)
  | member attr => exact hle e.receiverGrade

private theorem nesting_on_on (layer : Layer) (e : Expr) :
    (layer.on (layer.on e)).nesting = (layer.on e).nesting := by
  have hbare (grade nesting : Nat) : enclosedLevels grade grade nesting = nesting :=
    if_neg fun h => Nat.lt_irrefl grade h.2
  cases layer with
  | unary op => exact hbare op.grade _
  | binary op other =>
    cases op
    case pow =>
      have hright (nesting : Nat) : enclosedLevels 12 13 nesting = nesting := if_neg (by decide)
      simp only [on, Expr.nesting, Expr.grade, BinaryOp.rightGrade, BinaryOp.grade, hright]
      omega
    all_goals
      simp only [on, Expr.nesting, Expr.grade, BinaryOp.leftGrade, hbare]
      omega
  | call args | subscript index =>
    simp only [on, Expr.nesting, Expr.grade, hbare]
    omega
  | member attr => exact hbare 14 _

private theorem nesting_tower_le (layer : Layer) (base : Expr) (height : Nat) :
    (layer.tower base height).nesting ≤ (layer.on base).nesting := by
  induction height with
  | zero => exact layer.nesting_le_on base
  | succ height ih =>
    cases height with
    | zero => exact Nat.le_refl _
    | succ height => exact Nat.le_trans (Nat.le_of_eq (layer.nesting_on_on _)) ih

private theorem exists_child (h : (layer.on e).Shown a node) :
    ∃ child ∈ a.children node, e.Shown a child := by
  cases layer with
  | unary op =>
    obtain ⟨i, hdata, hi⟩ := h
    exact ⟨i, by simp [Arena.children_of_data? hdata, NodeData.children], hi⟩
  | binary op other =>
    cases op
    case pow =>
      obtain ⟨i, j, hdata, -, hj⟩ := h
      exact ⟨j, by simp [Arena.children_of_data? hdata, NodeData.children], hj⟩
    all_goals
      obtain ⟨i, j, hdata, hi, -⟩ := h
      exact ⟨i, by simp [Arena.children_of_data? hdata, NodeData.children], hi⟩
  | call args =>
    obtain ⟨i, is, hdata, hi, -⟩ := h
    exact ⟨i, by simp [Arena.children_of_data? hdata, NodeData.children], hi⟩
  | subscript index =>
    obtain ⟨i, j, hdata, hi, -⟩ := h
    exact ⟨i, by simp [Arena.children_of_data? hdata, NodeData.children], hi⟩
  | member attr =>
    obtain ⟨i, j, hdata, hi, -⟩ := h
    exact ⟨i, by simp [Arena.children_of_data? hdata, NodeData.children], hi⟩

private theorem isTall_of_shown {height : Nat} (h : (layer.tower base height).Shown a node) :
    a.IsTall height node := by
  induction height generalizing node with
  | zero => trivial
  | succ height ih =>
    obtain ⟨child, hchild, hshown⟩ := exists_child h
    exact ⟨child, hchild, ih hshown⟩

private theorem exists_isTall {text : String} {height : Nat}
    (h : ParsesAs text (layer.tower base height)) :
    ∃ node, (parse text).tree.arena.HasExpression (parse text).tree.root node ∧
      (parse text).tree.arena.IsTall height node := by
  obtain ⟨node, hexpression, hshown⟩ := h.exists_hasExpression
  exact ⟨node, hexpression, isTall_of_shown hshown⟩

/-! ## No bound on the height -/

/-- **Layers are not counted.** If one layer does not nest too deeply, a tower of any number of
layers is parsed as what it is, without a problem, and the tree has an expression as tall as the
tower. -/
theorem parsesAs_tower (layer : Layer) (base : Expr) (height : Nat) {text : String}
    (hnesting : (layer.on base).nesting < Limits.parseDepth)
    (htext : Spells (layer.tower base height).pieces text) :
    ParsesAs text (layer.tower base height) ∧
      ∃ node, (parse text).tree.arena.HasExpression (parse text).tree.root node ∧
        (parse text).tree.arena.IsTall height node := by
  have hparses : ParsesAs text (layer.tower base height) :=
    parsesAs_of_spells (Nat.lt_of_le_of_lt (layer.nesting_tower_le base height) hnesting) htext
  exact ⟨hparses, exists_isTall hparses⟩

end Layer

private theorem spelled_x : ∃ c cs, "x".toList = c :: cs ∧ Lexeme.startsName c = true ∧
    ∀ d ∈ cs, Lexeme.continuesName d = true :=
  ⟨'x', [], rfl, by decide, fun _ h => by cases h⟩

private theorem ofText?_x : Keyword.ofText? "x" = none := by decide

/-- A name. -/
def plainName : Identifier := ⟨"x", spelled_x, ofText?_x⟩

/-- Negations of a name, one on the other. -/
def negations (height : Nat) : Expr := (Layer.unary .not).tower (.name plainName) height

private theorem parsesAs_negations (height : Nat) :
    ParsesAs (negations height).print (negations height) :=
  parsesAs_of_spells
    (Nat.lt_of_le_of_lt (Layer.nesting_tower_le _ _ height) (by decide : 0 < Limits.parseDepth))
    (negations height).spells_print

/-- A tower of a thousand negations. -/
theorem parsesAs_tower_negations :
    ((Layer.unary .not).on (.name plainName)).nesting < Limits.parseDepth ∧
      Spells (negations 1000).pieces (negations 1000).print ∧
      ParsesAs (negations 1000).print (negations 1000) ∧
      ∃ node, (parse (negations 1000).print).tree.arena.HasExpression
        (parse (negations 1000).print).tree.root node ∧
        (parse (negations 1000).print).tree.arena.IsTall 1000 node := by
  have hnesting : ((Layer.unary .not).on (.name plainName)).nesting < Limits.parseDepth := by decide
  have hspells := (negations 1000).spells_print
  exact ⟨hnesting, hspells, Layer.parsesAs_tower _ _ 1000 hnesting hspells⟩

/-- **No bound on the height.** Nothing bounds how tall the expressions in the tree of a text are. -/
theorem not_heights_bounded : ¬ ∃ bound, ∀ text node height,
    (parse text).tree.arena.HasExpression (parse text).tree.root node →
      (parse text).tree.arena.IsTall height node → height ≤ bound := by
  rintro ⟨bound, hbound⟩
  obtain ⟨node, hexpression, htall⟩ := Layer.exists_isTall (parsesAs_negations (bound + 1))
  exact Nat.not_succ_le_self bound (hbound _ node _ hexpression htall)

end LiveCheck
