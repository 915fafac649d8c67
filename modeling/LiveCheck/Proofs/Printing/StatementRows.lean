import LiveCheck.Proofs.Printing.CompoundStatements
import LiveCheck.Proofs.Printing.Typesetting

/-!
# Rows of statements

Every line of a statement is a row for the scanner, and it is not empty.
-/

namespace LiveCheck

open Scanner

private theorem Identifier.newline_not_mem (id : Identifier) : '\n' ∉ id.text.toList := by
  obtain ⟨c, cs, htext, hstarts, hcontinues⟩ := id.spelled
  have hstart : Lexeme.startsName '\n' = false := by decide +kernel
  have hcontinue : Lexeme.continuesName '\n' = false := by decide +kernel
  rw [htext]
  intro hmem
  rcases List.mem_cons.mp hmem with rfl | hmem
  · exact Bool.false_ne_true (hstart.symm.trans hstarts)
  · exact Bool.false_ne_true (hcontinue.symm.trans (hcontinues _ hmem))

private theorem Literal.newline_not_mem (value : Literal) : '\n' ∉ value.piece.text.toList := by
  cases value with
  | int value =>
    intro hmem
    exact absurd (isDigit_repr hmem) (by decide)
  | string value =>
    have hescaped (d : Char) : '\n' ∉ StringLiteral.escaped d := by
      unfold StringLiteral.escaped
      split <;> simp_all [eq_comm]
    have htext : (Literal.string value).piece.text.toList =
        '"' :: (value.toList.flatMap StringLiteral.escaped ++ ['"']) := String.toList_ofList
    rw [htext]
    simp only [List.mem_cons, List.mem_append, List.mem_flatMap, List.not_mem_nil, or_false]
    rintro (h | ⟨d, -, hd⟩ | h)
    · exact absurd h (by decide)
    · exact hescaped d hd
    · exact absurd h (by decide)
  | none | true | false => decide

private theorem Keyword.newline_not_mem (word : Keyword) : '\n' ∉ word.piece.text.toList := by
  cases word <;> decide

private theorem Symbol.newline_not_mem (mark : Symbol) : '\n' ∉ mark.piece.text.toList := by
  cases mark <;> decide

namespace Scanner.IsRow

variable {ι : Type} {p mark : Piece} {ps qs : List Piece} {pieces : ι → List Piece} {xs : List ι}

/-! ## Rows from their parts -/

theorem nil : IsRow [] := ⟨nofun, fun _ => rfl, nofun⟩

theorem append (hps : IsRow ps) (hqs : IsRow qs) : IsRow (ps ++ qs) where
  scanned p hp := (List.mem_append.mp hp).elim (hps.scanned p) (hqs.scanned p)
  level level := by rw [List.foldl_append, hps.level, hqs.level]
  oneLine p hp := (List.mem_append.mp hp).elim (hps.oneLine p) (hqs.oneLine p)

theorem single (hp : IsScanned p) (hlevel : ∀ level, levelBehind level p = level)
    (hline : '\n' ∉ p.text.toList) : IsRow [p] where
  scanned _ hq := List.mem_singleton.mp hq ▸ hp
  level := hlevel
  oneLine _ hq := List.mem_singleton.mp hq ▸ hline

theorem keyword (word : Keyword) : IsRow [word.piece] :=
  .single (isScanned_keyword word) (fun _ => rfl) word.newline_not_mem

private theorem name (id : Identifier) : IsRow [id.piece] :=
  .single (isScanned_name id) (fun _ => rfl) id.newline_not_mem

/-- A symbol that is no bracket. -/
theorem symbol (mark : Symbol) (hopens : mark.opens = false) (hcloses : mark.closes = false) :
    IsRow [mark.piece] := by
  refine .single (isScanned_symbol mark) (fun level => ?_) mark.newline_not_mem
  simp [levelBehind, Symbol.piece, hopens, hcloses]

private theorem enclosed {left right : Symbol} (hleft : left.opens = true)
    (hright : right.opens = false)
    (hcloses : right.closes = true) (hps : IsRow ps) :
    IsRow (left.piece :: (ps ++ [right.piece])) where
  scanned p hp := by
    simp only [List.mem_cons, List.mem_append, List.not_mem_nil, or_false] at hp
    rcases hp with rfl | hp | rfl
    · exact isScanned_symbol left
    · exact hps.scanned p hp
    · exact isScanned_symbol right
  level level := by
    rw [List.foldl_cons, List.foldl_append, hps.level]
    simp [levelBehind, Symbol.piece, hleft, hright, hcloses]
  oneLine p hp := by
    simp only [List.mem_cons, List.mem_append, List.not_mem_nil, or_false] at hp
    rcases hp with rfl | hp | rfl
    · exact left.newline_not_mem
    · exact hps.oneLine p hp
    · exact right.newline_not_mem

theorem parens (hps : IsRow ps) :
    IsRow (Symbol.openParen.piece :: (ps ++ [Symbol.closeParen.piece])) := .enclosed rfl rfl rfl hps

theorem brackets (hps : IsRow ps) :
    IsRow (Symbol.openBracket.piece :: (ps ++ [Symbol.closeBracket.piece])) :=
  .enclosed rfl rfl rfl hps

private theorem of_row (h : Row ps) : IsRow ps where
  scanned := isScanned_row h
  level := foldl_levelBehind h
  oneLine := h.forall_mem
    (fun p hp => by
      cases hp with
      | name id => exact id.newline_not_mem
      | literal value => exact value.newline_not_mem
      | word word => exact word.newline_not_mem
      | mark mark => exact mark.newline_not_mem)
    fun mark _ => mark.newline_not_mem

private theorem expr (e : Expr) : IsRow e.pieces := .of_row e.row

private theorem item (e : Expr) : IsRow e.item := .of_row (e.row.enclose 1 e.grade)

private theorem behindEach (hmark : IsRow [mark]) (h : ∀ x ∈ xs, IsRow (pieces x)) :
    IsRow (behindEach mark pieces xs) := by
  induction xs with
  | nil => exact .nil
  | cons x xs ih =>
    exact hmark.append ((h x (.head _)).append (ih fun y hy => h y (.tail _ hy)))

theorem between (hmark : IsRow [mark]) (h : ∀ x ∈ xs, IsRow (pieces x)) :
    IsRow (between mark pieces xs) := by
  cases xs with
  | nil => exact .nil
  | cons x xs => exact (h x (.head _)).append (.behindEach hmark fun y hy => h y (.tail _ hy))

private theorem optional (hmark : IsRow [mark]) (h : ∀ x, IsRow (pieces x)) (x : Option ι) :
    IsRow (optionalPieces mark pieces x) := by
  cases x with
  | none => exact .nil
  | some x => exact hmark.append (h x)

end Scanner.IsRow

/-! ## The rows of lines -/

private theorem isRow_dottedName (path : DottedName) : IsRow path.pieces :=
  .between (.symbol .dot rfl rfl) fun id _ => .name id

private theorem isRow_names (first : Identifier) (others : List Identifier) :
    IsRow (namePieces first others) :=
  .between (.symbol .comma rfl rfl) fun id _ => .name id

private theorem isRow_aliases {α : Type} {path : α → List Piece} (h : ∀ x, IsRow (path x))
    (imported : List (Alias α)) :
    IsRow (between Symbol.comma.piece (Alias.pieces path) imported) :=
  .between (.symbol .comma rfl rfl) fun x _ =>
    (h x.path).append (.optional (.keyword .asKw) .name x.asname)

private theorem isRow_dots (n : Nat) : IsRow (List.replicate n Symbol.dot.piece) := by
  induction n with
  | zero => exact .nil
  | succ n ih => exact (IsRow.symbol .dot rfl rfl).append ih

private theorem isRow_source (source : ImportSource) : IsRow source.pieces := by
  cases source with
  | module level path => exact (isRow_dots level).append (isRow_dottedName path)
  | dots more => exact isRow_dots (more + 1)

private theorem isRow_simple (line : Simple) : IsRow line.pieces := by
  cases line with
  | pass => exact .keyword .passKw
  | breakLoop => exact .keyword .breakKw
  | continueLoop => exact .keyword .continueKw
  | expr value => exact .expr value
  | assign first others value =>
    have hsides : IsRow (between Symbol.equals.piece Expr.pieces (first :: (others ++ [value]))) :=
      .between (.symbol .equals rfl rfl) fun e _ => .expr e
    exact hsides
  | annotated target hint value =>
    exact (IsRow.expr target).append ((IsRow.symbol .colon rfl rfl).append
      ((IsRow.item hint).append (.optional (.symbol .equals rfl rfl) .expr value)))
  | augmented target op value =>
    have hop : IsRow [op.augmented.piece] := by cases op <;> exact .symbol _ rfl rfl
    exact (IsRow.expr target).append (hop.append (.expr value))
  | returns value =>
    cases value with
    | none => exact .keyword .returnKw
    | some value => exact (IsRow.keyword .returnKw).append (.expr value)
  | raises exc =>
    cases exc with
    | none => exact .keyword .raiseKw
    | some exc =>
      obtain ⟨type, cause⟩ := exc
      exact (IsRow.keyword .raiseKw).append
        ((IsRow.item type).append (.optional (.keyword .fromKw) .item cause))
  | asserts test msg =>
    exact (IsRow.keyword .assertKw).append
      ((IsRow.item test).append (.optional (.symbol .comma rfl rfl) .item msg))
  | deletes target => exact (IsRow.keyword .delKw).append (.expr target)
  | globals first others => exact (IsRow.keyword .globalKw).append (isRow_names first others)
  | nonlocals first others => exact (IsRow.keyword .nonlocalKw).append (isRow_names first others)
  | imports first others =>
    exact (IsRow.keyword .importKw).append (isRow_aliases isRow_dottedName (first :: others))
  | importsFrom source first others =>
    exact (IsRow.keyword .fromKw).append ((isRow_source source).append
      ((IsRow.keyword .importKw).append (isRow_aliases .name (first :: others))))
  | importsAll source =>
    exact (IsRow.keyword .fromKw).append ((isRow_source source).append
      ((IsRow.keyword .importKw).append (.symbol .star rfl rfl)))

/-! ## The rows of clauses -/

private theorem isRow_clause (word : Keyword) {parts : List Piece} (h : IsRow parts) :
    IsRow (clause word parts) :=
  (IsRow.keyword word).append (h.append (.symbol .colon rfl rfl))

private theorem isRow_parameter (param : Parameter) : IsRow param.pieces := by
  have hhint (hint : Option Expr) : IsRow (optionalPieces Symbol.colon.piece Expr.item hint) :=
    .optional (.symbol .colon rfl rfl) .item hint
  cases param with
  | normal name hint default =>
    exact (IsRow.name name).append
      ((hhint hint).append (.optional (.symbol .equals rfl rfl) .item default))
  | varArgs name hint =>
    exact (IsRow.symbol .star rfl rfl).append ((IsRow.name name).append (hhint hint))
  | kwArgs name hint =>
    exact (IsRow.symbol .doubleStar rfl rfl).append ((IsRow.name name).append (hhint hint))
  | keywordMarker => exact .symbol .star rfl rfl
  | positionalMarker => exact .symbol .slash rfl rfl

private theorem isRow_withItem (item : WithItem) : IsRow item.pieces :=
  (IsRow.item item.context).append
    (.optional (.keyword .asKw) (fun e => .of_row (e.row.enclose 6 e.grade)) item.target)

private theorem isRow_caught (caught : Caught) : IsRow (caughtPieces caught) := by
  cases caught with
  | none => exact .nil
  | some caught =>
    obtain ⟨type, name⟩ := caught
    exact (IsRow.item type).append (.optional (.keyword .asKw) .name name)

private theorem isRow_functionHead (id : Identifier) (params : List Parameter)
    (returns : Option Expr) :
    IsRow (id.piece :: Symbol.openParen.piece ::
      (between Symbol.comma.piece Parameter.pieces params ++ Symbol.closeParen.piece ::
        optionalPieces Symbol.arrow.piece Expr.item returns)) := by
  have hparams : IsRow (Symbol.openParen.piece ::
      (between Symbol.comma.piece Parameter.pieces params ++ [Symbol.closeParen.piece])) :=
    .parens (.between (.symbol .comma rfl rfl) fun x _ => isRow_parameter x)
  have hreturns : IsRow (optionalPieces Symbol.arrow.piece Expr.item returns) :=
    .optional (.symbol .arrow rfl rfl) .item returns
  have hhead := (IsRow.name id).append (hparams.append hreturns)
  simpa only [List.cons_append, List.append_assoc, List.nil_append] using hhead

private theorem isRow_classHead (id : Identifier) (bases : Option (List Expr)) :
    IsRow (id.piece :: bases.elim [] fun bases =>
      Symbol.openParen.piece :: (itemPieces bases ++ [Symbol.closeParen.piece])) := by
  cases bases with
  | none => exact .name id
  | some bases => exact (IsRow.name id).append (.parens (.of_row (row_itemPieces bases)))

/-! ## Outlines -/

/-- A row that is not empty. -/
def IsLine (row : List Piece) : Prop := IsRow row ∧ row ≠ []

private theorem isLine_clause (word : Keyword) {parts : List Piece} (h : IsRow parts) :
    IsLine (clause word parts) := ⟨isRow_clause word h, List.cons_ne_nil _ _⟩

private theorem isLine_simple (line : Simple) : IsLine line.pieces := by
  refine ⟨isRow_simple line, ?_⟩
  obtain ⟨p, ps, hps, -⟩ := begins_simple line []
  rw [List.append_nil] at hps
  exact hps ▸ List.cons_ne_nil p ps

private theorem Outline.all_before {P : List Piece → Prop} {o : Outline} {x : Option Outline}
    (ho : o.All P) (hx : ∀ y ∈ x, Outline.All P y) : (o.before x).All P := by
  cases x with
  | none => exact ho
  | some y => exact ⟨ho, hx y rfl⟩

mutual

/-- The rows of a statement are lines. -/
theorem Stmt.all_outline : (st : Stmt) → st.outline.All IsLine
  | .simple line => isLine_simple line
  | .ifElse test (.mk _ body) orelse =>
    Outline.all_before ⟨isLine_clause .ifKw (.item test), body.all_outline⟩ orelse.all_outline
  | .whileLoop test (.mk _ body) orelse =>
    Outline.all_before ⟨isLine_clause .whileKw (.item test), body.all_outline⟩
      (orelse.all_outline .elseKw)
  | .forLoop target iter (.mk _ body) orelse _ =>
    Outline.all_before
      ⟨isLine_clause .forKw
        ((IsRow.expr target).append ((IsRow.keyword .inKw).append (.expr iter))), body.all_outline⟩
      (orelse.all_outline .elseKw)
  | .tryExcept (.mk _ body) handlers orelse finalbody =>
    Outline.all_before
      (Outline.all_before ⟨⟨isLine_clause .tryKw .nil, body.all_outline⟩, handlers.all_outline⟩
        (orelse.all_outline .elseKw))
      (finalbody.all_outline .finallyKw)
  | .tryFinally (.mk _ body) orelse (.mk _ finalbody) =>
    ⟨Outline.all_before ⟨isLine_clause .tryKw .nil, body.all_outline⟩
        (orelse.all_outline .elseKw),
      isLine_clause .finallyKw .nil, finalbody.all_outline⟩
  | .withItems _ _ (.mk _ body) =>
    ⟨isLine_clause .withKw
      (.between (.symbol .comma rfl rfl) fun item _ => isRow_withItem item), body.all_outline⟩
  | .functionDef id params returns (.mk _ body) =>
    ⟨isLine_clause .defKw (isRow_functionHead id params returns), body.all_outline⟩
  | .classDef id bases (.mk _ body) =>
    ⟨isLine_clause .classKw (isRow_classHead id bases), body.all_outline⟩

private theorem Body.all_outline : (body : Body) → body.outline.All IsLine
  | .last st => st.all_outline
  | .cons st others => ⟨st.all_outline, others.all_outline⟩

private theorem Branch.all_outline : (orelse : Branch) → ∀ o ∈ orelse.outline, o.All IsLine
  | .none => nofun
  | .orelse (.mk _ body) => by
    intro o ho
    cases ho
    exact ⟨isLine_clause .elseKw .nil, body.all_outline⟩
  | .elif test (.mk _ body) orelse => by
    intro o ho
    cases ho
    exact Outline.all_before ⟨isLine_clause .elifKw (.item test), body.all_outline⟩
      orelse.all_outline

private theorem Tail.all_outline (word : Keyword) :
    (tail : Tail) → ∀ o ∈ tail.outline word, o.All IsLine
  | .none => nofun
  | .block (.mk _ body) => by
    intro o ho
    cases ho
    exact ⟨isLine_clause word .nil, body.all_outline⟩

private theorem Handlers.all_outline : (handlers : Handlers) → handlers.outline.All IsLine
  | .last caught (.mk _ body) => ⟨isLine_clause .exceptKw (isRow_caught caught), body.all_outline⟩
  | .cons caught (.mk _ body) others =>
    ⟨⟨isLine_clause .exceptKw (isRow_caught caught), body.all_outline⟩, others.all_outline⟩

end

end LiveCheck
