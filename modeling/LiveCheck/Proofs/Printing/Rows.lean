import LiveCheck.Proofs.Printing.Expr

/-!
# Rows of pieces

What the pieces of an expression have in common, whatever the expression is: which pieces there are,
and that brackets close in the order in which they open.
-/

namespace LiveCheck

/-- The pieces of expressions, brackets apart. -/
inductive Piece.Plain : Piece → Prop
  | name (id : Identifier) : Plain id.piece
  | literal (value : Literal) : Plain value.piece
  | word (word : Keyword)
      (h : word ∈ [.notKw, .andKw, .orKw, .inKw, .isKw, .ifKw, .elseKw]) : Plain word.piece
  | mark (mark : Symbol)
      (h : mark ∈ [.plus, .minus, .star, .doubleStar, .slash, .doubleSlash, .percent, .atSign,
        .pipe, .ampersand, .caret, .tilde, .leftShift, .rightShift, .less, .greater, .lessEquals,
        .greaterEquals, .equalsEquals, .notEquals, .dot, .comma]) : Plain mark.piece

namespace Piece.Plain

private theorem comma : Symbol.comma.piece.Plain := .mark .comma (by decide)

private theorem unaryOp (op : UnaryOp) : op.piece.Plain := by
  cases op
  case not => exact .word _ (by decide)
  all_goals exact .mark _ (by decide)

private theorem binaryOp (op : BinaryOp) : op.symbol.piece.Plain := by
  cases op <;> exact .mark _ (by decide)

private theorem boolOp (op : BoolOp) : op.word.piece.Plain := by
  cases op <;> exact .word _ (by decide)

private theorem ne_equals {p : Piece} (hp : p.Plain) : p.kind ≠ .symbol .equals := by
  cases hp with
  | name id => exact nofun
  | literal value => cases value <;> exact nofun
  | word => exact nofun
  | mark mark h =>
    rintro heq
    cases heq
    exact absurd h (by decide)

end Piece.Plain

/-- Rows of such pieces, with brackets around parts of them. -/
inductive Row : List Piece → Prop
  | nil : Row []
  | single {p : Piece} (hp : p.Plain) : Row [p]
  | append {ps qs : List Piece} (hps : Row ps) (hqs : Row qs) : Row (ps ++ qs)
  | parens {ps : List Piece} (hps : Row ps) :
      Row (Symbol.openParen.piece :: (ps ++ [Symbol.closeParen.piece]))
  | brackets {ps : List Piece} (hps : Row ps) :
      Row (Symbol.openBracket.piece :: (ps ++ [Symbol.closeBracket.piece]))

namespace Row

variable {p : Piece} {ps : List Piece}

private theorem cons (hp : p.Plain) (hps : Row ps) : Row (p :: ps) := .append (.single hp) hps

theorem enclose (hps : Row ps) (wanted grade : Nat) : Row (enclose wanted grade ps) := by
  unfold LiveCheck.enclose
  split
  · exact .parens hps
  · exact hps

private theorem lastComma {α : Type} (others : List α) : Row (lastComma others) := by
  unfold LiveCheck.lastComma
  split
  · exact .single Piece.Plain.comma
  · exact .nil

private theorem compareOp (op : CompareOp) : Row op.pieces := by
  cases op
  case isIn | is => exact .single (.word _ (by decide))
  case notIn | isNot => exact .cons (.word _ (by decide)) (.single (.word _ (by decide)))
  all_goals exact .single (.mark _ (by decide))

end Row

mutual

/-- The pieces of an expression are a row. -/
theorem Expr.row : (e : Expr) → Row e.pieces
  | .name id => .single (.name id)
  | .literal value => .single (.literal value)
  | .unary op operand => .cons (.unaryOp op) (operand.row.enclose _ _)
  | .binary left op right =>
    .append (left.row.enclose _ _) (.cons (.binaryOp op) (right.row.enclose _ _))
  | .boolean op first second others =>
    .append (first.row.enclose _ _)
      (.cons (.boolOp op) (.append (second.row.enclose _ _) (row_eachAfter (.boolOp op) _ others)))
  | .compare left op right others =>
    .append (left.row.enclose _ _)
      (.append (.compareOp op) (.append (right.row.enclose _ _) (row_stepPieces others)))
  | .conditional test body orelse =>
    .append (body.row.enclose _ _)
      (.cons (.word .ifKw (by decide)) (.append (test.row.enclose _ _)
        (.cons (.word .elseKw (by decide)) (orelse.row.enclose _ _))))
  | .call func args => .append (func.row.enclose _ _) (.parens (row_itemPieces args))
  | .member value attr =>
    .append (value.row.enclose _ _) (.cons (.mark .dot (by decide)) (.single (.name attr)))
  | .subscript value index => .append (value.row.enclose _ _) (.brackets index.row)
  | .tuple [] => .parens .nil
  | .tuple (first :: others) =>
    .append (first.row.enclose _ _) (.append (row_eachAfter .comma _ others) (.lastComma others))
  | .list elts => .brackets (row_itemPieces elts)

private theorem row_eachAfter {mark : Piece} (hmark : mark.Plain) (wanted : Nat) :
    (es : List Expr) → Row (eachAfter mark wanted es)
  | [] => .nil
  | e :: es => .cons hmark (.append (e.row.enclose _ _) (row_eachAfter hmark wanted es))

theorem row_itemPieces : (es : List Expr) → Row (itemPieces es)
  | [] => .nil
  | e :: es => .append (e.row.enclose _ _) (row_eachAfter .comma _ es)

private theorem row_stepPieces : (steps : List (CompareOp × Expr)) → Row (stepPieces steps)
  | [] => .nil
  | (op, e) :: steps =>
    .append (.compareOp op) (.append (e.row.enclose _ _) (row_stepPieces steps))

end

theorem length_le_enclose (wanted grade : Nat) (ps : List Piece) :
    ps.length ≤ (enclose wanted grade ps).length := by
  unfold enclose
  split
  · simp only [List.length_cons, List.length_append]
    omega
  · exact Nat.le_refl _

mutual

/-- An expression has more pieces than it is deep. -/
theorem Expr.depth_lt_length : (e : Expr) → e.depth < e.pieces.length
  | .name _ | .literal _ => Nat.one_pos
  | .unary op operand => by
    have hlength := length_le_enclose op.grade operand.grade operand.pieces
    have hoperand := operand.depth_lt_length
    simp only [Expr.depth, Expr.pieces, List.length_cons]
    omega
  | .binary left op right => by
    have hleft := length_le_enclose op.leftGrade left.grade left.pieces
    have hright := length_le_enclose op.rightGrade right.grade right.pieces
    have ihleft := left.depth_lt_length
    have ihright := right.depth_lt_length
    simp only [Expr.depth, Expr.pieces, List.length_cons, List.length_append]
    omega
  | .boolean op first second others => by
    have hfirst := length_le_enclose (op.grade + 1) first.grade first.pieces
    have hsecond := length_le_enclose (op.grade + 1) second.grade second.pieces
    have ihfirst := first.depth_lt_length
    have ihsecond := second.depth_lt_length
    have ihrest := depths_le_eachAfter op.word.piece (op.grade + 1) others
    simp only [Expr.depth, Expr.pieces, List.length_cons, List.length_append]
    omega
  | .compare left op right others => by
    have hleft := length_le_enclose 6 left.grade left.pieces
    have hright := length_le_enclose 6 right.grade right.pieces
    have hop : 0 < op.pieces.length := by cases op <;> decide
    have ihleft := left.depth_lt_length
    have ihright := right.depth_lt_length
    have ihrest := stepDepths_le_stepPieces others
    simp only [Expr.depth, Expr.pieces, List.length_append]
    omega
  | .conditional test body orelse => by
    have htest := length_le_enclose 2 test.grade test.pieces
    have hbody := length_le_enclose 2 body.grade body.pieces
    have horelse := length_le_enclose 1 orelse.grade orelse.pieces
    have ihtest := test.depth_lt_length
    have ihbody := body.depth_lt_length
    have ihorelse := orelse.depth_lt_length
    simp only [Expr.depth, Expr.pieces, List.length_cons, List.length_append]
    omega
  | .call func args => by
    have hfunc := length_le_enclose 14 func.grade func.pieces
    have ihfunc := func.depth_lt_length
    have ihrest := depths_le_itemPieces args
    simp only [Expr.depth, Expr.pieces, List.length_cons, List.length_append]
    omega
  | .member value _ => by
    have hvalue := length_le_enclose value.receiverGrade value.grade value.pieces
    have ihvalue := value.depth_lt_length
    simp only [Expr.depth, Expr.pieces, List.length_cons, List.length_append]
    omega
  | .subscript value index => by
    have hvalue := length_le_enclose 14 value.grade value.pieces
    have ihvalue := value.depth_lt_length
    have ihindex := index.depth_lt_length
    simp only [Expr.depth, Expr.pieces, List.length_cons, List.length_append]
    omega
  | .tuple [] => Nat.lt_succ_self 1
  | .tuple (first :: others) => by
    have hfirst := length_le_enclose 1 first.grade first.pieces
    have hcomma : 0 < (lastComma others).length + others.length := by
      cases others <;> simp [lastComma]
    have ihfirst := first.depth_lt_length
    have ihrest := depths_le_eachAfter Symbol.comma.piece 1 others
    simp only [Expr.depth, depths, Expr.pieces, List.length_append]
    omega
  | .list elts => by
    have ihrest := depths_le_itemPieces elts
    simp only [Expr.depth, Expr.pieces, List.length_cons, List.length_append]
    omega

private theorem depths_le_eachAfter (mark : Piece) (wanted : Nat) :
    (es : List Expr) → depths es + es.length ≤ (eachAfter mark wanted es).length
  | [] => Nat.le_refl 0
  | e :: es => by
    have he := length_le_enclose wanted e.grade e.pieces
    have ihe := e.depth_lt_length
    have ihrest := depths_le_eachAfter mark wanted es
    simp only [depths, eachAfter, List.length_cons, List.length_append]
    omega

theorem depths_le_itemPieces : (es : List Expr) → depths es ≤ (itemPieces es).length
  | [] => Nat.le_refl 0
  | e :: es => by
    have he := length_le_enclose 1 e.grade e.pieces
    have ihe := e.depth_lt_length
    have ihrest := depths_le_eachAfter Symbol.comma.piece 1 es
    simp only [depths, itemPieces, List.length_append]
    omega

private theorem stepDepths_le_stepPieces :
    (steps : List (CompareOp × Expr)) → stepDepths steps ≤ (stepPieces steps).length
  | [] => Nat.le_refl 0
  | (op, e) :: steps => by
    have he := length_le_enclose 6 e.grade e.pieces
    have ihe := e.depth_lt_length
    have ihrest := stepDepths_le_stepPieces steps
    simp only [stepDepths, stepPieces, List.length_append]
    omega

end

/-- What holds of all pieces apart from brackets and of the brackets holds of all pieces of a row. -/
theorem Row.forall_mem {P : Piece → Prop} (hplain : ∀ p : Piece, p.Plain → P p)
    (hbracket : ∀ mark ∈ [Symbol.openParen, .closeParen, .openBracket, .closeBracket], P mark.piece)
    {ps : List Piece} (h : Row ps) : ∀ p ∈ ps, P p := by
  induction h with
  | nil => exact nofun
  | single hp =>
    intro p hmem
    rw [List.mem_singleton.mp hmem]
    exact hplain _ hp
  | append _ _ ihps ihqs => exact fun p hmem => (List.mem_append.mp hmem).elim (ihps p) (ihqs p)
  | parens _ ih | brackets _ ih =>
    intro p hmem
    simp only [List.mem_cons, List.mem_append, List.not_mem_nil, or_false] at hmem
    rcases hmem with rfl | hmem | rfl
    · exact hbracket _ (by decide)
    · exact ih p hmem
    · exact hbracket _ (by decide)

/-- No assignment stands in an expression. -/
theorem Row.ne_equals {ps : List Piece} (h : Row ps) : ∀ p ∈ ps, p.kind ≠ .symbol .equals := by
  refine h.forall_mem (fun p hp => hp.ne_equals) fun mark hmark heq => ?_
  cases heq
  exact absurd hmark (by decide)

end LiveCheck
