import LiveCheck.Proofs.Printing.CompoundStatements
import LiveCheck.Proofs.RepeatedScans

/-!
# Strings survive printing and parsing

A text that is written between quotes is scanned as one string, and where it is assigned to a name,
the constant has this text as its value. Where several such strings stand in a row, with spaces
between them, the constant has all of their texts, one behind the other.
-/

/-!
## Assignments of any expression

A text with one line, in which a name is assigned what some pieces are read as, is a module with this
assignment. Nothing is asked of the pieces but that the rules read them, so they need not be written
as a printer would write them, and nothing bounds their depth.
-/

namespace LiveCheck

/-- A statement assigns something of a certain shape to a name, and does nothing else. -/
def Identifier.AssignedTo (id : Identifier) (P : Arena → NodeId → Prop) (a : Arena) (node : NodeId) :
    Prop :=
  ∃ target value, a.data? node = some (.assign [target] value) ∧ id.Shown a target ∧ P a value

namespace Parser

variable {s : ParseState} {q : Piece} {ps rest : List Piece} {P : Arena → NodeId → Prop}
  {id : Identifier}

private def ReadsAnywhere (ps : List Piece) (P : Arena → NodeId → Prop) : Prop :=
  Begins 1 ps ∧ ∀ n : Nested, ReadsAs (rule n 1) ps P 1

private theorem readsAnywhere_of_reads {grade : Nat} (h1 : 1 ≤ grade) (h15 : grade ≤ 15)
    (hb : Begins grade ps) (h : ∀ n : Nested, ReadsAs (rule n grade) ps P grade) :
    ReadsAnywhere ps P :=
  ⟨hb.mono h1, fun n => reads_of_le (Nat.le_refl 1) h1 h15 (h n) hb⟩

private theorem ReadsAnywhere.yields_starExpressions (h : ReadsAnywhere ps P)
    (hs : s.ahead = ps ++ q :: rest)
    (hq : q.kind.endsExpressions = true) :
    Yields (inStatement starExpressions) s (q :: rest) P := by
  simp only [TokenKind.endsExpressions, Bool.and_eq_true, beq_iff_eq, Bool.not_eq_true',
    bne_iff_ne] at hq
  obtain ⟨⟨hcontinues, -⟩, hcomma⟩ := hq
  obtain ⟨hb, hreads⟩ := h
  obtain ⟨p, others, hs', -⟩ := hb.ahead hs
  refine .look (run_remaining s) (.start hs' fun _ => ?_)
  have hexpression : ReadsAs (outermost (s.ahead.length + 1)).expression ps P 1 := by
    have hrule : (outermost (s.ahead.length + 1)).expression = rule (nest s.ahead.length 0) 1 :=
      expressionAt_succ (by decide : 0 < Limits.parseDepth)
    rw [hrule]
    exact hreads _
  refine (readsAs_starOrExpression hb hexpression hs (by omega)).bind fun i t ht hi => ?_
  exact .look (run_isAt_of_ne ht.ahead hcomma) (.pure ht.ahead hi)

private theorem ReadsAnywhere.yields_assignment (h : ReadsAnywhere ps P)
    (hs : s.ahead = id.piece :: Symbol.equals.piece :: (ps ++ q :: rest)) (hq : q.kind = .newline) :
    Yields expressionStatement s (q :: rest) (id.AssignedTo P) := by
  have hname : s.ahead = (Expr.name id).pieces ++ Symbol.equals.piece :: (ps ++ q :: rest) := hs
  have hnesting : (Expr.name id).nesting < Limits.parseDepth := (by decide : 0 < Limits.parseDepth)
  refine yields_expressionStatement_of hname rfl hnesting fun n i t ht hi => ?_
  refine .look (run_eat_of_ne ht (by decide)) (.look (run_kind ht) (.look (run_isAt_of_eq ht rfl) ?_))
  have hitem : ReadsEach (inStatement starExpressions) (fun _ => ps) (.symbol .equals) .newline
      [()] fun b _ i => P b i := by
    intro _ _ t' p rest' ht' hp
    refine h.yields_starExpressions ht' ?_
    rcases hp with hp | hp <;> rw [hp] <;> rfl
  have hbehind : t.ahead = behindEach Symbol.equals.piece (fun _ => ps) [()] ++ q :: rest := by
    rw [ht, behindEach, behindEach, List.append_nil, List.cons_append]
  refine (yields_afterEach hitem hbehind rfl hq (by decide) (by decide)).bind fun is t₁ ht₁ his => ?_
  obtain ⟨j, rfl⟩ : ∃ j, is = [j] := by
    cases his t₁.arena (.refl _) with
    | cons _ hnil =>
      cases hnil
      exact ⟨_, rfl⟩
  have htargets : areTargets [Expr.name id] = true := rfl
  have hchecked : ([i].forM checkTarget : Parser PUnit).run t₁ = (⟨⟩, t₁) :=
    run_checkTargets htargets ⟨i, [], rfl, hi _ ht₁.arena, rfl⟩
  refine .look hchecked ((yields_finish ht₁.ahead _ n).mono fun b node hb hnode => ?_)
  exact ⟨i, j, hnode, hi b (ht₁.arena.trans hb), by simpa using his b hb⟩

private theorem ReadsAnywhere.yields_module {lineEnd fileEnd : Piece} (h : ReadsAnywhere ps P)
    (hs : s.ahead = id.piece :: Symbol.equals.piece :: (ps ++ [lineEnd, fileEnd]))
    (hline : lineEnd.kind = .newline) (hfile : fileEnd.kind = .endOfFile) :
    Yields (moduleUpTo s.ahead.length) s [fileEnd]
      fun b is => ∃ i, is = [i] ∧ id.AssignedTo P b i := by
  have hname : s.ahead = (Expr.name id).pieces ++
      Symbol.equals.piece :: (ps ++ [lineEnd, fileEnd]) := hs
  exact yields_moduleUpTo_line hs ⟨rfl, rfl⟩ hline hfile
    (yields_simpleStatement_of_expression hname (h.yields_assignment hs hline))

end Parser

/-- The text is parsed as one assignment of something of a certain shape to the name, and there is no
problem. -/
def ParsesAsAssignment (text : String) (id : Identifier) (P : Arena → NodeId → Prop) : Prop :=
  (parse text).findings = [] ∧ ∃ statement, (parse text).tree.statements = [statement] ∧
    id.AssignedTo P (parse text).tree.arena statement

private theorem spells_assignment (id : Identifier) {ps : List Piece} (h : Spaced ps cs) :
    Spells (id.piece :: Symbol.equals.piece :: ps) (id.text ++ " = " ++ String.ofList cs) := by
  have htext : (id.text ++ " = " ++ String.ofList cs).toList =
      id.piece.text.toList ++ ' ' :: (Symbol.equals.piece.text.toList ++ ' ' :: cs) := by
    have hsign : " = ".toList = [' ', '=', ' '] := rfl
    rw [String.toList_append, String.toList_append, hsign, String.toList_ofList, List.append_assoc]
    rfl
  rw [Spells, htext]
  refine ⟨.piece (Piece.endsBefore_blank _ _) (.blank (.inl rfl)
    (.piece (Piece.endsBefore_blank _ _) (.blank (.inl rfl) h))), fun c hc => ?_⟩
  obtain ⟨d, ds, hd, hvisible⟩ := (Scanner.isScanned_name id).visible
  rw [hd] at hc
  cases hc
  constructor <;> rintro rfl <;> exact absurd hvisible (by decide)

private theorem parsesAsAssignment_of_pieces (id : Identifier) {ps : List Piece}
    {P : Arena → NodeId → Prop}
    (hreads : Parser.ReadsAnywhere ps P) (hscanned : ∀ p ∈ ps, Scanner.IsScanned p)
    (hlevels : ∀ level, ps.foldl Scanner.levelBehind level = level) (h : Spaced ps cs) :
    ParsesAsAssignment (id.text ++ " = " ++ String.ofList cs) id P := by
  have hall : ∀ p ∈ id.piece :: Symbol.equals.piece :: ps, Scanner.IsScanned p := by
    intro p hp
    rcases List.mem_cons.mp hp with rfl | hp
    · exact Scanner.isScanned_name id
    rcases List.mem_cons.mp hp with rfl | hp
    · exact Scanner.isScanned_symbol .equals
    · exact hscanned p hp
  obtain ⟨⟨lineEnd, htokens⟩, hfindings⟩ :=
    scan_pieces hall hlevels (List.cons_ne_nil _ _) (spells_assignment id h)
  exact parse_of_yields hfindings fun s hs =>
    hreads.yields_module (hs.trans (htokens.trans rfl)) rfl rfl

end LiveCheck

namespace LiveCheck

open Scanner

/-! ## Rows of strings -/

/-- The characters of strings in a row. Before each one but the first there is one space, and as many
more as is said. -/
def QuotedText.rowChars (first : QuotedText) : List (Nat × QuotedText) → List Char
  | [] => first.chars
  | (spaces, next) :: others =>
    first.chars ++ (List.replicate (spaces + 1) ' ' ++ next.rowChars others)

/-- Strings in a row as a text. -/
def QuotedText.row (first : QuotedText) (others : List (Nat × QuotedText)) : String :=
  String.ofList (first.rowChars others)

/-- The value of strings in a row. -/
def QuotedText.rowValue (first : QuotedText) (others : List (Nat × QuotedText)) : String :=
  String.join (first.value :: others.map (·.2.value))

namespace QuotedText

variable {first : QuotedText} {others : List (Nat × QuotedText)}

private def rowPieces (first : QuotedText) (others : List (Nat × QuotedText)) : List Piece :=
  (first.text :: others.map (·.2.text)).map (Piece.mk .string)

private theorem spaced_blanks {ps : List Piece} (n : Nat) (h : Spaced ps cs) :
    Spaced ps (List.replicate n ' ' ++ cs) := by
  induction n with
  | zero => exact h
  | succ n ih => exact .blank (.inl rfl) ih

private theorem spaced_rowChars (first : QuotedText) (others : List (Nat × QuotedText)) :
    Spaced (rowPieces first others) (first.rowChars others) := by
  induction others generalizing first with
  | nil =>
    have hpiece := Spaced.piece (p := ⟨.string, first.text⟩) rfl .nil
    rwa [toList_text, List.append_nil] at hpiece
  | cons next others ih =>
    obtain ⟨spaces, next⟩ := next
    have hpiece := Spaced.piece (p := ⟨.string, first.text⟩) (Piece.endsBefore_blank _ _)
      (spaced_blanks (spaces + 1) (ih next))
    rwa [toList_text] at hpiece

private theorem isScanned_row : ∀ p ∈ rowPieces first others, IsScanned p := by
  intro p hp
  obtain ⟨text, htext, rfl⟩ := List.mem_map.mp hp
  rcases List.mem_cons.mp htext with rfl | htext
  · exact isScanned_quoted first
  · obtain ⟨next, -, rfl⟩ := List.mem_map.mp htext
    exact isScanned_quoted next.2

private theorem levelBehind_row (level : Nat) :
    (rowPieces first others).foldl levelBehind level = level := by
  rw [rowPieces, List.foldl_map]
  exact List.foldl_fixed _

private theorem readsAnywhere_row (first : QuotedText) (others : List (Nat × QuotedText)) :
    Parser.ReadsAnywhere (rowPieces first others)
      fun a i => a.data? i = some (.constant .string (some (rowValue first others))) := by
  refine Parser.readsAnywhere_of_reads (by decide : 1 ≤ 15) (Nat.le_refl 15)
    ⟨_, _, rfl, rfl⟩ fun n => ?_
  have hstrings := Parser.reads_strings (n := n) first.text (others.map (·.2.text))
  have hvalue : (first.text :: others.map (·.2.text)).map StringLiteral.decode =
      first.value :: others.map (·.2.value) := by
    simp [StringLiteral.decode_text]
  rw [hvalue] at hstrings
  exact hstrings

/-! ## One string -/

private theorem scan_text (w : QuotedText) :
    (scan w.text).tokens = #[⟨.string, ⟨0, w.text.utf8ByteSize⟩, w.text⟩,
      ⟨.newline, ⟨w.text.utf8ByteSize, w.text.utf8ByteSize⟩, ""⟩,
      ⟨.endOfFile, ⟨w.text.utf8ByteSize, w.text.utf8ByteSize⟩, ""⟩] ∧
      (scan w.text).findings = #[] := by
  have hchars : w.chars.take (0 + (Lexeme.quoted w.chars).1) = w.text.toList := by
    have hquoted : Lexeme.quoted (w.chars ++ []) = (w.chars.length, true) :=
      Lexeme.quoted_chars w fun d hd => by cases hd
    rw [List.append_nil] at hquoted
    rw [hquoted, Nat.zero_add, List.take_length, toList_text]
  have halone : Alone .string (w.chars.take (0 + (Lexeme.quoted w.chars).1)) :=
    alone_quote w.isQuote
  refine ⟨Alone.tokens_scan (hchars ▸ halone), ?_⟩
  have hspells : Spells (rowPieces w []) w.text := by
    refine ⟨w.toList_text ▸ spaced_rowChars w [], fun c hc => ?_⟩
    rw [toList_text] at hc
    cases hc
    rcases Lexeme.isQuote_iff.mp w.isQuote with hquote | hquote <;> rw [hquote] <;> decide
  exact (scan_pieces isScanned_row levelBehind_row (List.cons_ne_nil _ _) hspells).2

/-- **Strings survive printing and parsing.** A text between quotes of either kind is one string to
the scanner. Assigned to a name, it is a constant with the text as its value, and where more of them
stand in a row, with spaces between them, the value is all the texts in order. No problem is
recorded. -/
theorem survives (id : Identifier) (first : QuotedText) (others : List (Nat × QuotedText)) :
    ((scan first.text).tokens = #[⟨.string, ⟨0, first.text.utf8ByteSize⟩, first.text⟩,
      ⟨.newline, ⟨first.text.utf8ByteSize, first.text.utf8ByteSize⟩, ""⟩,
      ⟨.endOfFile, ⟨first.text.utf8ByteSize, first.text.utf8ByteSize⟩, ""⟩] ∧
      (scan first.text).findings = #[]) ∧
    ParsesAsAssignment (id.text ++ " = " ++ first.text) id
      (fun a i => a.data? i = some (.constant .string (some first.value))) ∧
    ParsesAsAssignment (id.text ++ " = " ++ row first others) id
      (fun a i => a.data? i = some (.constant .string (some (rowValue first others)))) := by
  have hrow (others : List (Nat × QuotedText)) := parsesAsAssignment_of_pieces id
    (readsAnywhere_row first others) isScanned_row levelBehind_row (spaced_rowChars first others)
  refine ⟨scan_text first, ?_, hrow others⟩
  have hone := hrow []
  rw [rowValue, List.map_nil, String.join_cons, String.join_nil, String.append_empty] at hone
  exact hone

end QuotedText
end LiveCheck
