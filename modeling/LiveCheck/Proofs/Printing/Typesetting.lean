import LiveCheck.Proofs.Printing.Scanning

/-!
# Scanning lines

The scanner takes from a text with lines in it the pieces of the lines and their layout. It records
no problem, and it passes over lines without tokens.
-/

namespace LiveCheck

private theorem Piece.endsBefore_lineEnd (p : Piece) (cs : List Char) :
    p.endsBefore ('\n' :: cs) = true := by
  simp only [endsBefore]
  split
  case h_1 mark hkind => cases mark <;> decide
  case h_2 =>
    have hname : Lexeme.continuesName '\n' = false := by decide +kernel
    have hquote : Lexeme.isQuote '\n' = false := by decide
    simp [hname, hquote]

namespace Scanner

open Lexeme

variable {s t : Scanner} {c : Char} {cs ds : List Char} {ps : List Piece} {here n : Nat}
  {columns deeper : List Nat} {lines : List Line}

/-! ## Rows -/

/-- A row that is a part of a line: the scanner takes its pieces, as many brackets close in it as
open, and no line ends in it. -/
structure IsRow (ps : List Piece) : Prop where
  scanned : ∀ p ∈ ps, IsScanned p
  level : ∀ level, ps.foldl levelBehind level = level
  oneLine : ∀ p ∈ ps, '\n' ∉ p.text.toList

/-! ## Within a line -/

/-- The scan has come to the end of a line, and has taken some pieces on the way. -/
private structure EndsLine (s : Scanner) (ps : List Piece) (ds : List Char) (t : Scanner) :
    Prop where
  rest : t.rest = ds
  pieces : t.pieces = s.pieces ++ ps
  findings : t.findings = s.findings
  indents : t.indents = s.indents
  brackets : t.brackets = []
  atLineStart : t.atLineStart = true

private theorem exists_endsLine (h : Spaced ps cs) (hps : ∀ p ∈ ps, IsScanned p) (hends : '\n' ∉ cs)
    (hs : s.rest = cs ++ '\n' :: ds) (hstart : s.atLineStart = false)
    (hlast : ps = [] → s.lineHasTokens = true)
    (hlevel : ps.foldl levelBehind s.brackets.length = 0) :
    ∃ t, s.run = t.run ∧ EndsLine s (ps ++ [Piece.lineEnd]) ds t := by
  induction h generalizing s with
  | nil =>
    have hbrackets := List.eq_nil_of_length_eq_zero hlevel
    refine ⟨{ s.take .newline 1 with atLineStart := true }, ?_, ?_⟩
    · rw [run_of_cons hs, advance_eq hstart, takeToken_lineEnd hs hbrackets (hlast rfl)]
    · have hrest : (s.take .newline 1).rest = ds := by rw [rest_take, hs]; rfl
      refine ⟨hrest, ?_, rfl, rfl, hbrackets, rfl⟩
      simp [pieces, take, hs, Token.piece, Piece.lineEnd]
  | lineEnd => exact absurd (.head _) hends
  | @blank ps cs c hc h ih =>
    have htake : s.takeToken c = s.skip 1 := by rcases hc with rfl | rfl <;> rfl
    have hrest : (s.skip 1).rest = cs ++ '\n' :: ds := by rw [rest_skip, hs]; rfl
    obtain ⟨t, hrun, ht⟩ :=
      ih hps (fun hmem => hends (.tail _ hmem)) hrest hstart hlast hlevel
    refine ⟨t, ?_, ht.rest, ht.pieces, ht.findings, ht.indents, ht.brackets, ht.atLineStart⟩
    rw [run_of_cons hs, advance_eq hstart, htake, hrun]
  | @piece p ps cs hp h ih =>
    have hscanned := hps p (.head _)
    obtain ⟨c, others, hcs, -⟩ := hscanned.visible
    have hbehind : p.endsBefore (cs ++ '\n' :: ds) = true := by
      cases cs with
      | nil => exact p.endsBefore_lineEnd ds
      | cons => exact p.endsBefore_append hp (List.cons_ne_nil _ _) _
    have hs' : s.rest = c :: others ++ (cs ++ '\n' :: ds) := by rw [hs, hcs, List.append_assoc]
    have htakes := hscanned.takes hcs hs' hbehind
    have hlast' : (s.takeToken c).lineHasTokens = true := by
      rw [lineHasTokens_of_pieces htakes.pieces, hscanned.isLayout]
      rfl
    have hlevel' : ps.foldl levelBehind (s.takeToken c).brackets.length = 0 := by
      rw [htakes.brackets]
      exact hlevel
    obtain ⟨t, hrun, ht⟩ := ih (fun q hq => hps q (.tail _ hq))
      (fun hmem => hends (List.mem_append_right _ hmem)) htakes.rest
      (htakes.atLineStart.trans hstart) (fun _ => hlast') hlevel'
    refine ⟨t, ?_, ht.rest, ?_, ht.findings.trans htakes.findings, ht.indents.trans htakes.indents,
      ht.brackets, ht.atLineStart⟩
    · rw [run_of_cons hs', advance_eq hstart, hrun]
    · rw [ht.pieces, htakes.pieces]
      simp only [List.append_assoc, List.cons_append, List.nil_append]

/-! ## Before a line -/

/-- The margin of a line has been taken, and its layout has been marked. -/
private structure LaidOut (s : Scanner) (columns : List Nat) (ps : List Piece) (ds : List Char)
    (t : Scanner) : Prop where
  rest : t.rest = ds
  pieces : t.pieces = s.pieces ++ ps
  findings : t.findings = s.findings
  indents : t.indents = columns
  brackets : t.brackets = s.brackets

private theorem foldl_column (here n : Nat) :
    (List.replicate n ' ').foldl column here = here + n := by
  induction n generalizing here with
  | zero => rfl
  | succ n ih =>
    rw [List.replicate_succ, List.foldl_cons, ih]
    show here + 1 + n = here + (n + 1)
    omega

private theorem takeLineStart_blanks (hs : s.rest = List.replicate n ' ' ++ c :: cs)
    (hc : (isMargin c || c == '#' || isLineEnd c) = false) :
    s.takeLineStart = { s.layOut n n with atLineStart := false }.takeToken c := by
  rw [Bool.or_eq_false_iff, Bool.or_eq_false_iff] at hc
  obtain ⟨⟨hmargin, hcomment⟩, hline⟩ := hc
  have hrun : Lexeme.run isMargin s.rest = n := by
    rw [hs, run_append (fun d hd => ?_) (fun d hd => ?_), List.length_replicate]
    · rw [List.eq_of_mem_replicate hd]
      rfl
    · cases hd
      exact hmargin
  have hdrop : s.rest.drop n = c :: cs := by rw [hs, List.drop_left' (List.length_replicate ..)]
  have htake : s.rest.take n = List.replicate n ' ' := by
    rw [hs, List.take_left' (List.length_replicate ..)]
  simp only [takeLineStart, hrun, hdrop, htake, hcomment, hline, foldl_column, Nat.zero_add]
  rfl

/-- The scan stands where a line begins, with blocks open at the columns. -/
private structure BeginsLine (s : Scanner) (columns : List Nat) (cs : List Char) : Prop where
  rest : s.rest = cs
  indents : s.indents = columns
  brackets : s.brackets = []
  atLineStart : s.atLineStart = true
  lineHasTokens : s.lineHasTokens = false

private theorem BeginsLine.advance (h : BeginsLine s columns cs) (c : Char) :
    s.advance c = s.takeLineStart := by
  rw [Scanner.advance, h.atLineStart, h.brackets]
  rfl

private theorem BeginsLine.skip (h : BeginsLine s columns cs) (hdrop : s.rest.drop n = ds) :
    BeginsLine (s.skip n) columns ds :=
  ⟨hdrop, h.indents, h.brackets, h.atLineStart, h.lineHasTokens⟩

private theorem pieces_foldl_mark (columns : List Nat) (s : Scanner) :
    (columns.foldl (fun s _ => s.mark .dedent) s).pieces =
        s.pieces ++ List.replicate columns.length Piece.dedent ∧
      (columns.foldl (fun s _ => s.mark .dedent) s).findings = s.findings := by
  induction columns generalizing s with
  | nil => exact ⟨(List.append_nil _).symm, rfl⟩
  | cons column columns ih =>
    obtain ⟨hpieces, hfindings⟩ := ih (s.mark .dedent)
    refine ⟨?_, hfindings⟩
    rw [List.foldl_cons, hpieces, pieces_mark, List.append_assoc]
    rfl

private theorem BeginsLine.finish (h : BeginsLine s columns []) :
    s.finish.pieces =
        s.pieces ++ (List.replicate (columns.length - 1) Piece.dedent ++ [Piece.textEnd]) ∧
      s.finish.findings = s.findings := by
  have hfinish : s.finish =
      (s.indents.dropLast.foldl (fun s _ => s.mark .dedent) s).mark .endOfFile := by
    obtain ⟨rest, offset, tokens, findings, indents, brackets, atLineStart⟩ := s
    cases h.brackets
    simp only [Scanner.finish, List.map_nil, Array.append_empty]
    rw [if_neg (Bool.eq_false_iff.mp h.lineHasTokens)]
  obtain ⟨hpieces, hfindings⟩ := pieces_foldl_mark s.indents.dropLast s
  rw [hfinish, pieces_mark, hpieces, h.indents, List.length_dropLast, List.append_assoc]
  exact ⟨rfl, h.indents ▸ hfindings⟩

private theorem BeginsLine.line {row : List Piece} {columns' : List Nat} (h : Spaced row cs)
    (hrow : IsRow row) (hne : row ≠ []) (hbegins : ∀ c ∈ cs.head?, c ≠ ' ' ∧ c ≠ '\t')
    (hends : '\n' ∉ cs)
    (hs : BeginsLine s columns (List.replicate here ' ' ++ (cs ++ '\n' :: ds)))
    (hlaid : LaidOut s columns' ps (cs ++ '\n' :: ds) (s.layOut here here)) :
    ∃ t, s.run = t.run ∧ BeginsLine t columns' ds ∧
      t.pieces = s.pieces ++ (ps ++ (row ++ [Piece.lineEnd])) ∧ t.findings = s.findings := by
  let begun : Scanner := { s.layOut here here with atLineStart := false }
  have hbrackets : begun.brackets = [] := hlaid.brackets.trans hs.brackets
  have hlevel : row.foldl levelBehind begun.brackets.length = 0 := by
    rw [hbrackets]
    exact hrow.level 0
  obtain ⟨t, hrun, ht⟩ := exists_endsLine h hrow.scanned hends (s := begun) hlaid.rest rfl
    (fun hnil => absurd hnil hne) hlevel
  have hpieces : t.pieces = s.pieces ++ (ps ++ (row ++ [Piece.lineEnd])) := by
    have hmarked : begun.pieces = s.pieces ++ ps := hlaid.pieces
    rw [ht.pieces, hmarked]
    simp only [List.append_assoc]
  refine ⟨t, ?_, ⟨ht.rest, ht.indents.trans hlaid.indents, ht.brackets, ht.atLineStart, ?_⟩, hpieces,
    ht.findings.trans hlaid.findings⟩
  · -- the line begins with a piece, so its first character is none of a margin
    obtain ⟨c, others, hcs, hc⟩ : ∃ c others, cs = c :: others ∧
        (isMargin c || c == '#' || isLineEnd c) = false := by
      cases h with
      | nil | lineEnd => exact absurd rfl hne
      | @blank _ _ c hc =>
        obtain ⟨hspace, htab⟩ := hbegins c rfl
        exact absurd hc (not_or.mpr ⟨hspace, htab⟩)
      | @piece p _ cs =>
        obtain ⟨c, others, htext, hc⟩ := (hrow.scanned p (.head _)).visible
        exact ⟨c, others ++ cs, by rw [htext]; rfl, hc⟩
    have hrest := hs.rest
    have hbegun : begun.rest = c :: (others ++ '\n' :: ds) := by
      rw [hcs] at hlaid
      exact hlaid.rest
    rw [hcs, List.cons_append] at hrest
    have hfirst : s.run = (begun.takeToken c).run := by
      obtain ⟨d, behind, hcons⟩ := List.exists_cons_of_ne_nil
        (List.append_ne_nil_of_right_ne_nil (List.replicate here ' ')
          (List.cons_ne_nil c (others ++ '\n' :: ds)))
      rw [run_of_cons (hrest.trans hcons), hs.advance, takeLineStart_blanks hrest hc]
    rw [hfirst, ← hrun, run_of_cons hbegun, advance_eq rfl]
  · have hlast : t.pieces = (s.pieces ++ (ps ++ row)) ++ [Piece.lineEnd] := by
      rw [hpieces]
      simp only [List.append_assoc]
    rw [lineHasTokens_of_pieces hlast]
    rfl

end Scanner

end LiveCheck
