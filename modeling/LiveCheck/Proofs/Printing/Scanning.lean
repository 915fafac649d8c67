import LiveCheck.Proofs.Printing.Rows
import LiveCheck.Proofs.Printing.Tokens
import LiveCheck.Proofs.Scanning.Progress

/-!
# Spelling and scanning pieces

Pieces are written one behind the other on one line. Between two of them there may be blanks, and
there has to be one where the second would go on with the first. The shortest spelling has no other
blanks. The scanner takes from a text with pieces in it one token for each of them, and closes the
line. It records no problem.
-/

namespace LiveCheck

/-- Whether a piece ends before a text: nothing at the beginning of the text goes on with it. -/
def Piece.endsBefore (p : Piece) : List Char → Bool
  | [] => true
  | c :: _ =>
    match p.kind with
    | .symbol mark =>
      !Symbol.spellings.any (fun entry => (mark.text.toList ++ [c]).isPrefixOf entry.1) &&
        !(mark == .dot && Lexeme.isDigit c)
    | _ =>
      !Lexeme.continuesName c && !Lexeme.isQuote c && !(p.kind == .int && c == '.')

variable {p : Piece} {text : String}

theorem Piece.endsBefore_append {cs : List Char} (h : p.endsBefore cs = true) (hcs : cs ≠ [])
    (ds : List Char) : p.endsBefore (cs ++ ds) = true := by
  cases cs with
  | nil => exact absurd rfl hcs
  | cons c cs => exact h

theorem Piece.endsBefore_blank (p : Piece) (cs : List Char) : p.endsBefore (' ' :: cs) = true := by
  simp only [endsBefore]
  split
  case h_1 mark hkind => cases mark <;> decide
  case h_2 =>
    have hname : Lexeme.continuesName ' ' = false := by decide +kernel
    have hquote : Lexeme.isQuote ' ' = false := by decide
    simp [hname, hquote]

/-- A text with the pieces in it, in order: blanks may stand anywhere between them, and a line end
behind the last one. -/
inductive Spaced : List Piece → List Char → Prop
  | nil : Spaced [] []
  | lineEnd : Spaced [] ['\n']
  | blank {ps : List Piece} {cs : List Char} {c : Char} (hc : c = ' ' ∨ c = '\t')
      (h : Spaced ps cs) : Spaced ps (c :: cs)
  | piece {p : Piece} {ps : List Piece} {cs : List Char} (hp : p.endsBefore cs = true)
      (h : Spaced ps cs) : Spaced (p :: ps) (p.text.toList ++ cs)

/-- The text is a line with the pieces in it, and no blank before the first one. -/
def Spells (ps : List Piece) (text : String) : Prop :=
  Spaced ps text.toList ∧ ∀ c ∈ text.toList.head?, c ≠ ' ' ∧ c ≠ '\t'

/-- The pieces with a blank between two of them only where they would run together. -/
def joined : List Piece → List Char
  | [] => []
  | [p] => p.text.toList
  | p :: q :: ps =>
    p.text.toList ++
      (if p.endsBefore q.text.toList then joined (q :: ps) else ' ' :: joined (q :: ps))

/-- An expression as a text. -/
def Expr.print (e : Expr) : String := String.ofList (joined e.pieces)

private theorem joined_cons (p : Piece) (ps : List Piece) :
    ∃ cs, joined (p :: ps) = p.text.toList ++ cs := by
  cases ps with
  | nil => exact ⟨[], (List.append_nil _).symm⟩
  | cons q ps => exact ⟨_, rfl⟩

private theorem spaced_joined {ps : List Piece} (hps : ∀ p ∈ ps, p.text.toList ≠ []) :
    Spaced ps (joined ps) := by
  induction ps with
  | nil => exact .nil
  | cons p ps ih =>
    have hrest := ih fun q hq => hps q (.tail _ hq)
    cases ps with
    | nil =>
      have hpiece := Spaced.piece (p := p) rfl hrest
      simpa [joined] using hpiece
    | cons q ps =>
      unfold joined
      split
      case isTrue h =>
        obtain ⟨cs, hcs⟩ := joined_cons q ps
        refine .piece ?_ hrest
        rw [hcs]
        exact Piece.endsBefore_append h (hps q (.tail _ (.head _))) cs
      case isFalse => exact .piece (p.endsBefore_blank _) (.blank (.inl rfl) hrest)

namespace Scanner

open Lexeme

variable {s : Scanner} {c : Char} {cs ds : List Char} {mark : Symbol}

/-! ## One piece -/

/-- The pieces of the tokens so far. -/
def pieces (s : Scanner) : List Piece := s.tokens.toList.map Token.piece

/-- How many brackets are open behind a piece. -/
def levelBehind (level : Nat) (p : Piece) : Nat :=
  match p.kind with
  | .symbol mark =>
    if mark.opens then level + 1 else if mark.closes then level - 1 else level
  | _ => level

/-- The scanner has taken a piece as a token of its own, and nothing else has happened. -/
structure Takes (s : Scanner) (p : Piece) (cs : List Char) (t : Scanner) : Prop where
  rest : t.rest = cs
  pieces : t.pieces = s.pieces ++ [p]
  findings : t.findings = s.findings
  indents : t.indents = s.indents
  brackets : t.brackets.length = levelBehind s.brackets.length p
  atLineStart : t.atLineStart = s.atLineStart

/-- Where the text goes on with a piece and ends it, the scanner takes it. -/
structure IsScanned (p : Piece) : Prop where
  isLayout : p.kind.isLayout = false
  visible : ∃ c cs, p.text.toList = c :: cs ∧ (isMargin c || c == '#' || isLineEnd c) = false
  takes : ∀ ⦃s c cs ds⦄, p.text.toList = c :: cs → s.rest = c :: cs ++ ds →
    p.endsBefore ds = true → Takes s p ds (s.takeToken c)

private theorem takes_with {brackets : List (Symbol × Nat)} (hs : s.rest = p.text.toList ++ ds)
    (hp : brackets.length = levelBehind s.brackets.length p) :
    Takes s p ds { s.take p.kind p.text.toList.length with brackets := brackets } where
  rest := by
    show (s.take p.kind p.text.toList.length).rest = ds
    rw [rest_take, hs, List.drop_left]
  pieces := by
    have htoken : String.ofList (s.rest.take p.text.toList.length) = p.text := by
      rw [hs, List.take_left, String.ofList_toList]
    simp only [pieces, take, Array.toList_push, List.map_append, List.map_cons, List.map_nil,
      htoken]
    rfl
  findings := rfl
  indents := rfl
  brackets := hp
  atLineStart := rfl

private theorem takes_take (hs : s.rest = p.text.toList ++ ds)
    (hp : levelBehind s.brackets.length p = s.brackets.length) :
    Takes s p ds (s.take p.kind p.text.toList.length) := takes_with hs hp.symm

private theorem endsWord_of_endsBefore (hkind : ∀ mark, p.kind ≠ .symbol mark)
    (h : p.endsBefore ds = true) :
    EndsWord ds := by
  intro d hd
  cases ds with
  | nil => cases hd
  | cons c ds =>
    cases hd
    simp only [Piece.endsBefore, Bool.and_eq_true, Bool.not_eq_true'] at h
    exact h.1

private theorem levelBehind_of_ne (hkind : ∀ mark, p.kind ≠ .symbol mark) (level : Nat) :
    levelBehind level p = level := by
  unfold levelBehind
  split
  · rename_i mark heq
    exact absurd heq (hkind mark)
  · rfl

theorem isScanned_word (hkind : ∀ mark, p.kind ≠ .symbol mark)
    (hw : ∃ c cs, p.text.toList = c :: cs ∧ IsWord c cs) (hp : wordKind p.text = p.kind) :
    IsScanned p where
  isLayout := by
    rw [← hp, wordKind]
    split <;> rfl
  visible := by
    obtain ⟨c, cs, hcs, hword⟩ := hw
    refine ⟨c, cs, hcs, ?_⟩
    have hspecial := isSpecial_of_startsName hword.starts
    rw [isSpecial, Bool.or_eq_false_iff] at hspecial
    exact hspecial.1
  takes s c cs ds hcs hs hends := by
    obtain ⟨c', cs', hcs', hword⟩ := hw
    obtain ⟨rfl, rfl⟩ := List.cons.inj (hcs.symm.trans hcs')
    have htext : String.ofList (c :: cs) = p.text := by rw [← hcs, String.ofList_toList]
    rw [takeToken_word hword (endsWord_of_endsBefore hkind hends) hs, htext, hp, ← hcs]
    rw [← hcs] at hs
    exact takes_take hs (levelBehind_of_ne hkind _)

theorem isScanned_name (id : Identifier) : IsScanned id.piece := by
  obtain ⟨c, cs, htext, hstarts, hcontinues⟩ := id.spelled
  refine isScanned_word nofun ⟨c, cs, htext, hstarts, hcontinues⟩ ?_
  show wordKind id.text = _
  rw [wordKind, id.free]
  rfl

private theorem ofText?_text (word : Keyword) : Keyword.ofText? word.text = some word := by
  cases word <;> rfl

/-- Every reserved word is spelled as a name is. -/
theorem isScanned_keyword (word : Keyword) : IsScanned word.piece := by
  refine isScanned_word nofun ?_ ?_
  · have hall : Keyword.all.all (·.text.toList.all startsName) = true := by decide +kernel
    have hmem : word ∈ Keyword.all := by cases word <;> decide
    have hne : word.text.toList ≠ [] := by cases word <;> decide
    have hstarts := List.all_eq_true.mp (List.all_eq_true.mp hall word hmem)
    obtain ⟨c, cs, hcs⟩ := List.exists_cons_of_ne_nil hne
    rw [hcs] at hstarts
    exact ⟨c, cs, hcs, hstarts c (.head cs),
      fun d hd => continuesName_of_startsName (hstarts d (.tail c hd))⟩
  · show wordKind word.text = _
    rw [wordKind, ofText?_text]
    rfl

theorem isDigit_repr {value : Nat} {d : Char} (hd : d ∈ (Nat.repr value).toList) :
    isDigit d = true := by
  rw [Nat.toList_repr] at hd
  have hdigit := Nat.isDigit_of_mem_toDigits (by decide) (by decide) hd
  simp only [Char.isDigit, Bool.and_eq_true, decide_eq_true_eq] at hdigit
  rw [isDigit, Bool.and_eq_true, decide_eq_true_eq, decide_eq_true_eq]
  exact hdigit

private theorem isScanned_int (value : Nat) : IsScanned (Literal.int value).piece := by
  have hdigits : ∀ d ∈ (Nat.repr value).toList, isDigit d = true := fun d hd => isDigit_repr hd
  have hne : (Nat.repr value).toList ≠ [] := by
    rw [Nat.toList_repr]
    exact List.ne_nil_of_length_pos Nat.length_toDigits_pos
  obtain ⟨c, cs, hcs⟩ := List.exists_cons_of_ne_nil hne
  rw [hcs] at hdigits
  refine ⟨rfl, ⟨c, cs, hcs, ?_⟩, fun s c' cs' ds hcs' hs hends => ?_⟩
  · exact forall_isDigit (P := fun c => (isMargin c || c == '#' || isLineEnd c) = false) (by decide)
      (hdigits c (.head cs))
  · obtain ⟨rfl, rfl⟩ := List.cons.inj (hcs'.symm.trans hcs)
    have hnumber : EndsNumber ds := by
      intro d hd
      cases ds with
      | nil => cases hd
      | cons c ds =>
        cases hd
        have hends : continuesName d = false ∧ isQuote d = false ∧ d ≠ '.' := by
          simpa [Piece.endsBefore, Literal.piece, and_assoc] using hends
        exact ⟨hends.1, hends.2.2⟩
    rw [takeToken_digits hdigits hnumber hs, ← hcs]
    rw [← hcs] at hs
    exact takes_take hs rfl

theorem isScanned_quoted (w : QuotedText) : IsScanned ⟨.string, w.text⟩ := by
  have hkind (mark : Symbol) : (⟨.string, w.text⟩ : Piece).kind ≠ .symbol mark := by
    intro heq
    cases heq
  refine ⟨rfl, ⟨w.quote, _, w.toList_text, ?_⟩, fun s c cs ds hcs hs hends => ?_⟩
  · rcases isQuote_iff.mp w.isQuote with hquote | hquote <;> rw [hquote] <;> rfl
  rw [← hcs] at hs
  obtain ⟨rfl, -⟩ := List.cons.inj (hcs.symm.trans w.toList_text)
  have hbehind (d : Char) (hd : d ∈ ds.head?) : d ≠ w.quote :=
    ne_of_isQuote w.isQuote (endsWord_of_endsBefore hkind hends d hd).2
  rw [takeToken_quoted hbehind (hs.trans (by rw [QuotedText.toList_text])), ← w.toList_text]
  exact takes_take hs rfl

private theorem isScanned_string (value : String) : IsScanned (Literal.string value).piece := by
  rw [Literal.piece, StringLiteral.quote_eq]
  exact isScanned_quoted _

/-- No symbol begins with a character that begins something else, but for the point. -/
theorem isSymbol_head (hcs : mark.text.toList = c :: cs) :
    isSpecial c = false ∧ isDigit c = false ∧ isQuote c = false ∧
      (c == '_' || c.isAlpha || 127 < c.toNat) = false := by
  cases mark <;> cases hcs <;> decide

/-- The symbols that begin with a point. -/
theorem eq_dot (hcs : mark.text.toList = '.' :: cs) :
    mark = .dot ∧ cs = [] ∨ mark = .ellipsis ∧ cs = ['.', '.'] := by
  cases mark <;> cases hcs
  case dot => exact .inl ⟨rfl, rfl⟩
  case ellipsis => exact .inr ⟨rfl, rfl⟩

private theorem endsSymbol_of_endsBefore (h : mark.piece.endsBefore ds = true) :
    ∀ d ∈ ds.head?,
      Symbol.spellings.any (fun entry => (mark.text.toList ++ [d]).isPrefixOf entry.1) = false ∧
        (mark == .dot && isDigit d) = false := by
  intro d hd
  cases ds with
  | nil => cases hd
  | cons c ds =>
    cases hd
    simpa only [Piece.endsBefore, Symbol.piece, Bool.and_eq_true, Bool.not_eq_true'] using h

theorem isScanned_symbol (mark : Symbol) : IsScanned mark.piece := by
  have hne : mark.text.toList ≠ [] := by cases mark <;> decide
  obtain ⟨c, cs, hcs⟩ := List.exists_cons_of_ne_nil hne
  obtain ⟨hspecial, hdigit, hquote, hname⟩ := isSymbol_head hcs
  refine ⟨rfl, ⟨c, cs, hcs, ?_⟩, fun s c' cs' ds hcs' hs hends => ?_⟩
  · rw [isSpecial, Bool.or_eq_false_iff] at hspecial
    exact hspecial.1
  · obtain ⟨rfl, rfl⟩ := List.cons.inj (hcs'.symm.trans hcs)
    have hbehind := endsSymbol_of_endsBefore hends
    have hpoint : (isDigit c' || (c' == '.' && startsWithDigit (s.rest.drop 1))) = false := by
      rw [hdigit, Bool.false_or, Bool.and_eq_false_imp, beq_iff_eq]
      rintro rfl
      obtain ⟨rfl, rfl⟩ | ⟨rfl, rfl⟩ := eq_dot hcs'
      · rw [hs]
        cases ds with
        | nil => rfl
        | cons d ds => exact (hbehind d rfl).2
      · rw [hs]
        rfl
    rw [takeToken_eq hspecial hpoint hquote, hname, if_neg Bool.false_ne_true]
    rw [← hcs'] at hs
    have hleading : Symbol.leading? s.rest = some (mark, mark.text.toList.length) := by
      rw [hs]
      exact leading?_append fun d hd => (hbehind d hd).1
    simp only [takeSymbol, hleading]
    split
    case isTrue hopens => exact takes_with hs (if_pos hopens).symm
    case isFalse hopens =>
      split
      case isTrue hcloses =>
        refine takes_with hs (List.length_tail.trans ?_)
        exact ((if_neg hopens).trans (if_pos hcloses)).symm
      case isFalse hcloses => exact takes_take hs ((if_neg hopens).trans (if_neg hcloses))

/-! ## A row of pieces -/

private theorem isScanned_plain (hp : p.Plain) : IsScanned p := by
  cases hp with
  | name id => exact isScanned_name id
  | literal value =>
    cases value with
    | int value => exact isScanned_int value
    | string value => exact isScanned_string value
    | none | true | false => exact isScanned_keyword _
  | word word => exact isScanned_keyword word
  | mark mark => exact isScanned_symbol mark

theorem isScanned_row {ps : List Piece} (h : Row ps) : ∀ p ∈ ps, IsScanned p :=
  h.forall_mem (fun _ hp => isScanned_plain hp) fun mark _ => isScanned_symbol mark

/-- Pieces that are written without needless blanks do not begin with one. -/
theorem ne_blank_of_joined {ps : List Piece} (h : ∀ p ∈ ps, IsScanned p) :
    ∀ c ∈ (joined ps).head?, c ≠ ' ' ∧ c ≠ '\t' := by
  intro d hd
  cases ps with
  | nil => cases hd
  | cons p ps =>
    obtain ⟨c, cs, hcs, hvisible⟩ := (h p (.head ps)).visible
    obtain ⟨others, hjoined⟩ := joined_cons p ps
    rw [hjoined, hcs] at hd
    cases hd
    constructor <;> rintro rfl <;> exact absurd hvisible (by decide)

theorem spaced_joined_of_scanned {ps : List Piece} (h : ∀ p ∈ ps, IsScanned p) :
    Spaced ps (joined ps) := by
  refine spaced_joined fun p hmem => ?_
  obtain ⟨c, cs, hcs, -⟩ := (h p hmem).visible
  rw [hcs]
  exact List.cons_ne_nil c cs

private theorem levelBehind_plain (hp : p.Plain) (level : Nat) : levelBehind level p = level := by
  cases hp with
  | literal value => cases value <;> rfl
  | name | word => rfl
  | mark mark h =>
    have hmarks : ∀ mark ∈ [Symbol.plus, .minus, .star, .doubleStar, .slash, .doubleSlash,
        .percent, .atSign, .pipe, .ampersand, .caret, .tilde, .leftShift, .rightShift, .less,
        .greater, .lessEquals, .greaterEquals, .equalsEquals, .notEquals, .dot, .comma],
        mark.opens = false ∧ mark.closes = false := by decide
    obtain ⟨hopens, hcloses⟩ := hmarks mark h
    simp [levelBehind, Symbol.piece, hopens, hcloses]

/-- Behind a row as many brackets are open as before it. -/
theorem foldl_levelBehind {ps : List Piece} (h : Row ps) (level : Nat) :
    ps.foldl levelBehind level = level := by
  induction h generalizing level with
  | nil => rfl
  | single hp => exact levelBehind_plain hp level
  | append _ _ ihps ihqs => rw [List.foldl_append, ihps, ihqs]
  | parens _ ih | brackets _ ih =>
    rw [List.foldl_cons, List.foldl_append, ih]
    rfl

/-! ## A whole line -/

theorem lineHasTokens_of_pieces {ps : List Piece} (hs : s.pieces = ps ++ [p]) :
    s.lineHasTokens = !p.kind.isLayout := by
  obtain ⟨ts, us, htokens, -, hus⟩ := List.map_eq_append_iff.mp hs
  obtain ⟨token, vs, rfl, rfl, hvs⟩ := List.map_eq_cons_iff.mp hus
  cases List.map_eq_nil_iff.mp hvs
  have hback : s.tokens.back? = some token := by
    rw [← Array.getLast?_toList, htokens, List.getLast?_concat]
  rw [lineHasTokens, hback]
  rfl

/-- The scan of a text with pieces in it, finished: the tokens are those of the pieces, a line end
and the end of the text, and there is no problem. -/
private structure Finished (s : Scanner) (ps : List Piece) (t : Scanner) : Prop where
  pieces : ∃ text, t.pieces = s.pieces ++ ps ++ [⟨.newline, text⟩, ⟨.endOfFile, ""⟩]
  findings : t.findings = s.findings

theorem pieces_mark (kind : TokenKind) : (s.mark kind).pieces = s.pieces ++ [⟨kind, ""⟩] := by
  simp [pieces, mark, Token.piece]

theorem takeToken_lineEnd (hs : s.rest = '\n' :: cs) (hbrackets : s.brackets = [])
    (hlast : s.lineHasTokens = true) :
    s.takeToken '\n' = { s.take .newline 1 with atLineStart := true } := by
  show s.takeLineEnd = _
  simp only [takeLineEnd, hs, hbrackets, hlast, if_true, List.isEmpty_nil]
  rfl

theorem advance_eq (hstart : s.atLineStart = false) (c : Char) : s.advance c = s.takeToken c := by
  rw [advance, hstart]
  rfl

private theorem finished_run {ps : List Piece} (h : Spaced ps cs) (hps : ∀ p ∈ ps, IsScanned p)
    (hs : s.rest = cs) (hstart : s.atLineStart = false) (hindents : s.indents = [0])
    (hlast : s.lineHasTokens = true)
    (hlevel : ps.foldl levelBehind s.brackets.length = 0) :
    Finished s ps s.run.finish := by
  induction h generalizing s with
  | nil =>
    have hbrackets := List.eq_nil_of_length_eq_zero hlevel
    rw [run_of_nil hs, finish_eq hbrackets hindents, hlast, if_pos rfl]
    exact ⟨⟨"", by simp [pieces_mark]⟩, rfl⟩
  | lineEnd =>
    have hbrackets := List.eq_nil_of_length_eq_zero hlevel
    rw [run_of_cons hs, advance_eq hstart, takeToken_lineEnd hs hbrackets hlast]
    let ended : Scanner := { s.take .newline 1 with atLineStart := true }
    have hrest : ended.rest = [] := by
      show (s.take .newline 1).rest = []
      rw [rest_take, hs]
      rfl
    have hpieces : ended.pieces = s.pieces ++ [⟨.newline, "\n"⟩] := by
      simp [ended, pieces, take, hs, Token.piece]
    show Finished s [] ended.run.finish
    rw [run_of_nil hrest, finish_eq (s := ended) hbrackets hindents,
      lineHasTokens_of_pieces hpieces]
    exact ⟨⟨"\n", by simp [pieces_mark, hpieces, TokenKind.isLayout]⟩, rfl⟩
  | @blank ps cs c hc h ih =>
    have htake : s.takeToken c = s.skip 1 := by rcases hc with rfl | rfl <;> rfl
    have hrest : (s.skip 1).rest = cs := by rw [rest_skip, hs]; rfl
    rw [run_of_cons hs, advance_eq hstart, htake]
    have hfinished := ih hps hrest hstart hindents hlast hlevel
    exact ⟨hfinished.pieces, hfinished.findings⟩
  | @piece p ps cs hp h ih =>
    have hscanned := hps p (.head _)
    obtain ⟨c, ds, hcs, -⟩ := hscanned.visible
    rw [hcs] at hs
    have htakes := hscanned.takes hcs hs hp
    rw [run_of_cons hs, advance_eq hstart]
    have hlast' : (s.takeToken c).lineHasTokens = true := by
      rw [lineHasTokens_of_pieces htakes.pieces, hscanned.isLayout]
      rfl
    have hlevel' : ps.foldl levelBehind (s.takeToken c).brackets.length = 0 := by
      rw [htakes.brackets]
      exact hlevel
    have hfinished := ih (fun q hq => hps q (.tail _ hq)) htakes.rest
      (htakes.atLineStart.trans hstart) (htakes.indents.trans hindents) hlast' hlevel'
    obtain ⟨text, hpieces⟩ := hfinished.pieces
    refine ⟨⟨text, ?_⟩, hfinished.findings.trans htakes.findings⟩
    rw [hpieces, htakes.pieces]
    simp only [List.append_assoc, List.cons_append, List.nil_append]

/-- The first step of a scan takes no margin if the text begins with a token. -/
theorem advance_start (htext : text.toList = c :: cs)
    (hc : (isMargin c || c == '#' || isLineEnd c) = false) :
    (start text).advance c = { (start text).skip 0 with atLineStart := false }.takeToken c := by
  rw [Bool.or_eq_false_iff, Bool.or_eq_false_iff] at hc
  obtain ⟨⟨hmargin, hcomment⟩, hline⟩ := hc
  have hrun : Lexeme.run isMargin (c :: cs) = 0 := by simp [Lexeme.run, hmargin]
  have hrest : (start text).rest = c :: cs := htext
  show (start text).takeLineStart = _
  simp only [takeLineStart, hrest, hrun, List.drop_zero, hcomment, hline]
  rfl

end Scanner

/-- A text in which pieces are spelled has their tokens, a line end and the end of the text, and no
problem, if all brackets among them are closed. -/
theorem scan_pieces {ps : List Piece} (hscanned : ∀ p ∈ ps, Scanner.IsScanned p)
    (hlevels : ∀ level, ps.foldl Scanner.levelBehind level = level) (hne : ps ≠ [])
    (h : Spells ps text) :
    (∃ lineEnd, (scan text).tokens.toList.map Token.piece =
      ps ++ [⟨.newline, lineEnd⟩, ⟨.endOfFile, ""⟩]) ∧ (scan text).findings = #[] := by
  obtain ⟨hspaced, hhead⟩ := h
  generalize htext : text.toList = cs at hspaced hhead
  cases hspaced with
  | nil => exact absurd rfl hne
  | lineEnd => exact absurd rfl hne
  | @blank _ _ c hc =>
    obtain ⟨hspace, htab⟩ := hhead c rfl
    rcases hc with rfl | rfl
    · exact absurd rfl hspace
    · exact absurd rfl htab
  | @piece p ps cs hp h =>
    obtain ⟨c, ds, hcs, hvisible⟩ := (hscanned p (.head _)).visible
    rw [hcs] at htext
    let begun : Scanner := { (Scanner.start text).skip 0 with atLineStart := false }
    have hrest : begun.rest = c :: ds ++ cs := htext
    have htakes := (hscanned p (.head _)).takes hcs hrest hp
    have hlast : (begun.takeToken c).lineHasTokens = true := by
      rw [Scanner.lineHasTokens_of_pieces htakes.pieces, (hscanned p (.head _)).isLayout]
      rfl
    have hlevel : ps.foldl Scanner.levelBehind (begun.takeToken c).brackets.length = 0 := by
      rw [htakes.brackets]
      exact hlevels 0
    have hfinished := Scanner.finished_run h (fun q hq => hscanned q (.tail _ hq)) htakes.rest
      htakes.atLineStart htakes.indents hlast hlevel
    have hscan : (Scanner.start text).run = (begun.takeToken c).run := by
      rw [Scanner.run_of_cons (s := Scanner.start text) htext, Scanner.advance_start htext hvisible]
    obtain ⟨lineEnd, hpieces⟩ := hfinished.pieces
    rw [← hscan, htakes.pieces] at hpieces
    refine ⟨⟨lineEnd, hpieces⟩, ?_⟩
    show (Scanner.start text).run.finish.findings = #[]
    rw [hscan]
    exact hfinished.findings.trans htakes.findings

/-- A text in which a row is spelled has the tokens of the row, a line end and the end of the text,
and no problem. -/
theorem scan_spells {ps : List Piece} (hrow : Row ps) (hne : ps ≠ []) (h : Spells ps text) :
    (∃ lineEnd, (scan text).tokens.toList.map Token.piece =
      ps ++ [⟨.newline, lineEnd⟩, ⟨.endOfFile, ""⟩]) ∧ (scan text).findings = #[] :=
  scan_pieces (Scanner.isScanned_row hrow) (Scanner.foldl_levelBehind hrow) hne h

end LiveCheck

/-!
## Outlines

The lines of a text and the blocks that they make. Every block has an indentation of its own. The
layout of the lines is found from their columns alone, and it is that of the outline: a block opens
before its first line and closes behind its last one.
-/

namespace LiveCheck

/-! ### Layout -/

/-- The piece of the end of a line. -/
def Piece.lineEnd : Piece := ⟨.newline, "\n"⟩

/-- The piece that opens a block at a column. -/
def Piece.indent (column : Nat) : Piece := ⟨.indent, String.ofList (List.replicate column ' ')⟩

/-- The piece that closes a block. -/
def Piece.dedent : Piece := ⟨.dedent, ""⟩

/-- The piece of the end of a text. -/
def Piece.textEnd : Piece := ⟨.endOfFile, ""⟩

/-- A line: the column of its first piece, and its pieces. -/
structure Line where
  /-- The number of blanks before it. -/
  column : Nat
  /-- What stands in it. -/
  row : List Piece

/-- The pieces of lines with their layout, where blocks at the given columns are open, the innermost
first: a deeper line opens a block, and one that is less deep closes those that are deeper. -/
inductive Layout : List Nat → List Line → List Piece → Prop
  | done (columns : List Nat) :
      Layout columns [] (List.replicate (columns.length - 1) Piece.dedent)
  | opens {top column : Nat} {columns : List Nat} {row ps : List Piece} {lines : List Line}
      (h : top < column) (hrest : Layout (column :: top :: columns) lines ps) :
      Layout (top :: columns) (⟨column, row⟩ :: lines)
        (Piece.indent column :: (row ++ Piece.lineEnd :: ps))
  | level {column : Nat} {columns : List Nat} {row ps : List Piece} {lines : List Line}
      (deeper : List Nat) (h : ∀ c ∈ deeper, column < c) (hrest : Layout (column :: columns) lines ps) :
      Layout (deeper ++ column :: columns) (⟨column, row⟩ :: lines)
        (List.replicate deeper.length Piece.dedent ++ (row ++ Piece.lineEnd :: ps))

namespace Layout

variable {column deeper : Nat} {columns : List Nat} {lines : List Line} {row ps : List Piece}

private theorem line (h : Layout (column :: columns) lines ps) (row : List Piece) :
    Layout (column :: columns) (⟨column, row⟩ :: lines) (row ++ Piece.lineEnd :: ps) :=
  .level [] nofun h

private theorem closing (h : Layout (column :: columns) lines ps)
    (hhead : ∀ line ∈ lines.head?, line.column ≤ column) (hdeeper : column < deeper) :
    Layout (deeper :: column :: columns) lines (Piece.dedent :: ps) := by
  generalize hopen : column :: columns = opened at h
  cases h with
  | done =>
    cases hopen
    exact .done (deeper :: column :: columns)
  | opens hlt =>
    cases hopen
    exact absurd (hhead _ rfl) (Nat.not_le_of_lt hlt)
  | @level here columns row ps lines others habove hrest =>
    have hle : here ≤ column := hhead _ rfl
    refine .level (deeper :: others) (fun c hc => ?_) hrest
    rcases List.mem_cons.mp hc with rfl | hc
    · exact Nat.lt_of_le_of_lt hle hdeeper
    · exact habove c hc

private theorem opening (h : Layout (deeper :: column :: columns) (⟨deeper, row⟩ :: lines) ps)
    (hdeeper : column < deeper) :
    Layout (column :: columns) (⟨deeper, row⟩ :: lines) (Piece.indent deeper :: ps) := by
  generalize hopen : deeper :: column :: columns = opened at h
  cases h with
  | opens hlt =>
    cases hopen
    exact absurd hlt (Nat.lt_irrefl _)
  | @level _ columns' _ _ _ others habove hrest =>
    cases others with
    | nil =>
      cases hopen
      exact .opens hdeeper hrest
    | cons c others =>
      obtain ⟨rfl, -⟩ := List.cons.inj hopen
      exact absurd (habove _ (.head _)) (Nat.lt_irrefl _)

end Layout

/-! ### Outlines -/

/-- Lines and blocks: a line, a line with a block behind it that is indented by `extra + 1` blanks
more, or one outline behind another. -/
inductive Outline
  | line (row : List Piece)
  | block (head : List Piece) (extra : Nat) (body : Outline)
  | both (first second : Outline)

namespace Outline

/-- The lines of an outline that begins at a column. -/
def lines (column : Nat) : Outline → List Line
  | line row => [⟨column, row⟩]
  | block head extra body => ⟨column, head⟩ :: body.lines (column + extra + 1)
  | both first second => first.lines column ++ second.lines column

/-- The pieces of an outline with its layout. -/
def pieces (column : Nat) : Outline → List Piece
  | line row => row ++ [Piece.lineEnd]
  | block head extra body =>
    head ++ Piece.lineEnd :: Piece.indent (column + extra + 1) ::
      (body.pieces (column + extra + 1) ++ [Piece.dedent])
  | both first second => first.pieces column ++ second.pieces column

/-- The number of the lines. -/
def size : Outline → Nat
  | line _ => 1
  | block _ _ body => body.size + 1
  | both first second => first.size + second.size

/-- All rows of an outline are as said. -/
def All (P : List Piece → Prop) : Outline → Prop
  | line row => P row
  | block head _ body => P head ∧ body.All P
  | both first second => first.All P ∧ second.All P

variable {P : List Piece → Prop}

theorem size_pos (o : Outline) : 0 < o.size := by
  induction o with
  | line row => exact Nat.zero_lt_one
  | block head extra body _ => exact Nat.succ_pos body.size
  | both first second ihfirst _ => exact Nat.add_pos_left ihfirst second.size

/-- Every line has a piece at its end. -/
theorem size_le_length (o : Outline) (column : Nat) : o.size ≤ (o.pieces column).length := by
  induction o generalizing column with
  | line row => simp [size, pieces]
  | block head extra body ih =>
    have hbody := ih (column + extra + 1)
    simp only [size, pieces, List.length_append, List.length_cons]
    omega
  | both first second ihfirst ihsecond =>
    have hfirst := ihfirst column
    have hsecond := ihsecond column
    simp only [size, pieces, List.length_append]
    omega

theorem All.forall_mem {o : Outline} (h : o.All P) (column : Nat) :
    ∀ line ∈ o.lines column, P line.row := by
  induction o generalizing column with
  | line row =>
    intro line hline
    rw [List.mem_singleton.mp hline]
    exact h
  | block head extra body ih =>
    intro line hline
    rcases List.mem_cons.mp hline with rfl | hline
    · exact h.1
    · exact ih h.2 _ line hline
  | both first second ihfirst ihsecond =>
    intro line hline
    rcases List.mem_append.mp hline with hline | hline
    · exact ihfirst h.1 _ line hline
    · exact ihsecond h.2 _ line hline

end Outline

/-! ### Texts -/

/-- A line without tokens: a margin, and perhaps a comment. -/
structure IsBlank (cs : List Char) : Prop where
  parts : ∃ margin note, cs = margin ++ note ++ ['\n'] ∧ (∀ c ∈ margin, Scanner.isMargin c = true) ∧
    (note = [] ∨ ∃ words, note = '#' :: words ∧ ∀ c ∈ words, Scanner.isLineEnd c = false)

/-- A text with the lines in it, in order: every line has its blanks before it, and any number of
lines without tokens may stand before and behind it. -/
inductive Typeset : List Line → List Char → Prop
  | nil : Typeset [] []
  | blank {lines : List Line} {cs ds : List Char} (h : IsBlank cs) (hrest : Typeset lines ds) :
      Typeset lines (cs ++ ds)
  | line {line : Line} {lines : List Line} {cs ds : List Char} (h : Spaced line.row cs)
      (hbegins : ∀ c ∈ cs.head?, c ≠ ' ' ∧ c ≠ '\t') (hends : '\n' ∉ cs)
      (hrest : Typeset lines ds) :
      Typeset (line :: lines) (List.replicate line.column ' ' ++ (cs ++ '\n' :: ds))

/-- One text behind another has the lines of both. -/
theorem Typeset.append {lines lines' : List Line} {cs ds : List Char} (h : Typeset lines cs)
    (h' : Typeset lines' ds) : Typeset (lines ++ lines') (cs ++ ds) := by
  induction h with
  | nil => exact h'
  | blank hblank _ ih =>
    rw [List.append_assoc]
    exact .blank hblank ih
  | line h hbegins hends _ ih =>
    rw [List.cons_append, List.append_assoc, List.append_assoc, List.cons_append]
    exact .line h hbegins hends ih

end LiveCheck
