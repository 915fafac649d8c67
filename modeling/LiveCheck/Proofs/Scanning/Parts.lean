import LiveCheck.Proofs.Scanning.Lexemes
import LiveCheck.Proofs.Scanning.Progress

/-!
# Parts of a text

The scan of a text that ends with a line feed, and after which the scanner is at the beginning of a
line, is a part of the scan of every longer text; so is the scan of the rest.
-/

namespace LiveCheck

open Text

/-- A string is as long as its characters take bytes. -/
theorem Text.utf8ByteSize_ofList (cs : List Char) :
    (String.ofList cs).utf8ByteSize = byteLength cs := by
  induction cs with
  | nil => rfl
  | cons c cs ih =>
    rw [String.ofList_cons, String.utf8ByteSize_append, String.utf8ByteSize_singleton, ih]
    rfl

/-- The same span `k` bytes later. -/
def Span.moved (k : Nat) (span : Span) : Span := ⟨span.start + k, span.stop + k⟩

/-- The same token `k` bytes later. -/
def Token.moved (k : Nat) (token : Token) : Token := { token with span := token.span.moved k }

/-- The same problem `k` bytes later. -/
def Finding.moved (k : Nat) (finding : Finding) : Finding :=
  { finding with span := finding.span.moved k }

theorem Token.moved_zero : Token.moved 0 = id := rfl

theorem Finding.moved_zero : Finding.moved 0 = id := rfl

/-- What stands around a part of a text. -/
structure Surroundings where
  /-- The tokens before it. -/
  tokens : Array Token
  /-- The problems before it. -/
  findings : Array Finding
  /-- Where it begins. -/
  offset : Nat
  /-- The characters behind it. -/
  behind : List Char

namespace Surroundings

open Lexeme (Closed Leaves)
open Scanner

private def place (x : Surroundings) (s : Scanner) : Scanner where
  rest := s.rest ++ x.behind
  offset := s.offset + x.offset
  tokens := x.tokens ++ s.tokens.map (·.moved x.offset)
  findings := x.findings ++ s.findings.map (·.moved x.offset)
  indents := s.indents
  brackets := s.brackets.map fun (mark, offset) => (mark, offset + x.offset)
  atLineStart := s.atLineStart

/-- The part begins a line. -/
def BeginsLine (x : Surroundings) : Prop :=
  ∀ token, x.tokens.back? = some token → token.kind.isLayout = true

variable {x : Surroundings} {s : Scanner} {n : Nat} {c : Char} {cs behind : List Char}

/-! ## Steps -/

private theorem place_skip (h : n ≤ s.rest.length) : (x.place s).skip n = x.place (s.skip n) := by
  simp only [skip, place, List.drop_append_of_le_length h, List.take_append_of_le_length h,
    Nat.add_right_comm]

private theorem place_mark (kind : TokenKind) : (x.place s).mark kind = x.place (s.mark kind) := by
  simp [mark, place, Token.moved, Span.moved]

private theorem place_take (kind : TokenKind) (h : n ≤ s.rest.length) :
    (x.place s).take kind n = x.place (s.take kind n) := by
  simp [take, skip, place, Token.moved, Span.moved, List.drop_append_of_le_length h,
    List.take_append_of_le_length h, Nat.add_right_comm]

private theorem place_note (code : Nat) (h : n ≤ s.rest.length) :
    (x.place s).note code n = x.place (s.note code n) := by
  simp [note, place, Finding.moved, Span.moved, List.take_append_of_le_length h,
    Nat.add_right_comm]

private theorem lineHasTokens_place (hx : x.BeginsLine) :
    (x.place s).lineHasTokens = s.lineHasTokens := by
  simp only [lineHasTokens, place, Array.back?_append, Array.back?_map]
  cases hback : s.tokens.back? with
  | some token => rfl
  | none =>
    cases hbefore : x.tokens.back? with
    | some token => simp [hx token hbefore]
    | none => rfl

private theorem place_closeBlocks (here : Nat) (indents : List Nat) (s : Scanner) :
    closeBlocks here indents (x.place s) = x.place (closeBlocks here indents s) := by
  match indents with
  | [] | [_] => rfl
  | top :: below :: indents =>
    rw [closeBlocks, closeBlocks]
    split
    · rw [place_mark]
      exact place_closeBlocks here (below :: indents) (s.mark .dedent)
    · rfl

private theorem place_layOut (here : Nat) (h : n ≤ s.rest.length) :
    (x.place s).layOut n here = x.place (s.layOut n here) := by
  have hindents : (x.place s).indents = s.indents := rfl
  simp only [layOut, place_skip h, place_take .indent h, hindents, place_closeBlocks]
  have hclosed (r : Scanner) : (x.place r).indents = r.indents := rfl
  simp only [hclosed]
  repeat' split
  · rfl
  · rfl
  · simp [place, Finding.moved, Span.moved]
  · rfl

private theorem place_takeLineEnd (hx : x.BeginsLine) (hclosed : Closed s.rest x.behind) :
    (x.place s).takeLineEnd = x.place s.takeLineEnd := by
  have hcount : lineEnd (x.place s).rest = lineEnd s.rest := lineEnd_append hclosed
  have hbrackets : (x.place s).brackets.isEmpty = s.brackets.isEmpty := List.isEmpty_map
  have hle := lineEnd_le s.rest
  simp only [takeLineEnd, hcount, hbrackets, lineHasTokens_place hx, place_skip hle,
    place_take .newline hle]
  repeat' split
  all_goals rfl

private theorem place_takeString {marks : Nat} (hmarks : marks ≤ s.rest.length)
    (h : x.behind = [] ∨ (s.takeString marks).rest ≠ []) :
    (x.place s).takeString marks = x.place (s.takeString marks) := by
  have hle := Lexeme.quoted_le (s.rest.drop marks)
  have hdrop : (x.place s).rest.drop marks = s.rest.drop marks ++ x.behind :=
    List.drop_append_of_le_length hmarks
  have htake : (x.place s).rest.take marks = s.rest.take marks :=
    List.take_append_of_le_length hmarks
  have hquoted : Lexeme.quoted (s.rest.drop marks ++ x.behind) =
      Lexeme.quoted (s.rest.drop marks) := by
    rcases h with h | h
    · rw [h, List.append_nil]
    · refine Lexeme.quoted_append (Nat.lt_of_le_of_ne hle fun heq => h ?_)
      have hrest : (s.takeString marks).rest =
          s.rest.drop (marks + (Lexeme.quoted (s.rest.drop marks)).1) := by
        simp only [takeString]
        split <;> rfl
      rw [hrest, heq, ← List.drop_drop, List.drop_length]
  have hcount : marks + (Lexeme.quoted (s.rest.drop marks)).1 ≤ s.rest.length := by
    rw [List.length_drop] at hle
    omega
  simp only [takeString, hdrop, htake, hquoted, place_note _ hcount]
  split
  · exact place_take _ hcount
  · exact place_take _ hcount

private theorem place_takeUnknown (h : s.rest ≠ []) :
    (x.place s).takeUnknown = x.place s.takeUnknown := by
  have hle : 1 ≤ s.rest.length := List.length_pos_iff.mpr h
  rw [takeUnknown, takeUnknown, place_note _ hle]
  exact place_take _ hle

private theorem place_takeName (hs : s.rest = c :: cs) (hclosed : Closed cs x.behind) :
    (x.place s).takeName = x.place s.takeName := by
  obtain ⟨hrun, hleaves⟩ := Lexeme.run_append (p := Lexeme.continuesName) hclosed (by decide +kernel)
  have hdrop : (x.place s).rest.drop 1 = cs ++ x.behind :=
    congrArg (·.drop 1) (congrArg (· ++ x.behind) hs)
  have hle : 1 + Lexeme.run Lexeme.continuesName cs ≤ s.rest.length := by
    have := hleaves.le
    rw [hs, List.length_cons]
    omega
  have htake : (x.place s).rest.take (1 + Lexeme.run Lexeme.continuesName cs) =
      s.rest.take (1 + Lexeme.run Lexeme.continuesName cs) := List.take_append_of_le_length hle
  have hdrop' : s.rest.drop 1 = cs := congrArg (·.drop 1) hs
  simp only [takeName, hdrop, hdrop', hrun, htake]
  split
  · exact place_take _ hle
  · exact place_take _ hle

private theorem place_takeSymbol (hs : s.rest ≠ []) (hclosed : Closed s.rest x.behind) :
    (x.place s).takeSymbol = x.place s.takeSymbol := by
  obtain ⟨hmark, hleaves⟩ := Symbol.leading?_append hclosed
  have hrest : (x.place s).rest = s.rest ++ x.behind := rfl
  rw [takeSymbol, takeSymbol, hrest, hmark]
  cases hlead : Symbol.leading? s.rest with
  | none => exact place_takeUnknown hs
  | some entry =>
    obtain ⟨mark, count⟩ := entry
    simp only [place_take _ (hleaves mark count hlead).le]
    repeat' split
    · rfl
    · simp [place]
    · rfl

private theorem startsWithDigit_append (h : Closed cs behind) :
    startsWithDigit (cs ++ behind) = startsWithDigit cs := by
  cases cs with
  | nil => rw [h.of_nil]; rfl
  | cons c cs => rfl

private theorem startsWithLineEnd_append (h : Closed cs behind) :
    startsWithLineEnd (cs ++ behind) = startsWithLineEnd cs := by
  cases cs with
  | nil => rw [h.of_nil]; rfl
  | cons c cs => rfl

private theorem place_takeToken (hx : x.BeginsLine) (hs : s.rest = c :: cs)
    (hclosed : Closed s.rest x.behind) (hstart : s.atLineStart = false)
    (h : x.behind = [] ∨ (s.takeToken c).rest ≠ [] ∨ (s.takeToken c).atLineStart = true) :
    (x.place s).takeToken c = x.place (s.takeToken c) := by
  by_cases hc : c = '\n'
  · subst hc
    exact place_takeLineEnd hx hclosed
  have htail : Closed cs x.behind := (hs ▸ hclosed).tail hc
  have hrest : s.rest ≠ [] := hs ▸ List.cons_ne_nil c cs
  have hone : 1 ≤ s.rest.length := List.length_pos_iff.mpr hrest
  have hdrop : s.rest.drop 1 = cs := congrArg (·.drop 1) hs
  have hdrop' : (s.rest ++ x.behind).drop 1 = cs ++ x.behind :=
    congrArg (·.drop 1) (congrArg (· ++ x.behind) hs)
  have hplace : (x.place s).rest = s.rest ++ x.behind := rfl
  obtain ⟨hnumber, hdigits⟩ := Lexeme.number_append hclosed
  obtain ⟨hcomment, hnote⟩ := comment_append hclosed
  have hstring {marks : Nat} (hmarks : marks ≤ s.rest.length)
      (h : x.behind = [] ∨ (s.takeString marks).rest ≠ [] ∨
        (s.takeString marks).atLineStart = true) :
      (x.place s).takeString marks = x.place (s.takeString marks) := by
    rw [atLineStart_takeString, hstart, or_iff_left Bool.false_ne_true] at h
    exact place_takeString hmarks h
  simp only [takeToken, hdrop, hdrop', startsWithDigit_append htail, startsWithLineEnd_append htail,
    hplace, hcomment, lineEnd_append htail, hnumber, Lexeme.stringMarks?_append hclosed] at h ⊢
  by_cases hmargin : isMargin c = true
  · rw [if_pos hmargin, if_pos hmargin]
    exact place_skip hone
  rw [if_neg hmargin] at h
  rw [if_neg hmargin, if_neg hmargin]
  by_cases hhash : (c == '#') = true
  · rw [if_pos hhash, if_pos hhash]
    exact place_skip hnote.le
  rw [if_neg hhash] at h
  rw [if_neg hhash, if_neg hhash]
  by_cases hline : isLineEnd c = true
  · rw [if_pos hline, if_pos hline]
    exact place_takeLineEnd hx hclosed
  rw [if_neg hline] at h
  rw [if_neg hline, if_neg hline]
  by_cases hjoin : (c == '\\' && startsWithLineEnd cs) = true
  · rw [if_pos hjoin, if_pos hjoin]
    refine place_skip ?_
    have := lineEnd_le cs
    rw [hs, List.length_cons]
    omega
  rw [if_neg hjoin] at h
  rw [if_neg hjoin, if_neg hjoin]
  by_cases hdigit : (Lexeme.isDigit c || (c == '.' && startsWithDigit cs)) = true
  · rw [if_pos hdigit, if_pos hdigit]
    exact place_take _ hdigits.le
  rw [if_neg hdigit] at h
  rw [if_neg hdigit, if_neg hdigit]
  by_cases hquote : Lexeme.isQuote c = true
  · rw [if_pos hquote] at h
    rw [if_pos hquote, if_pos hquote]
    exact hstring (Nat.zero_le _) h
  rw [if_neg hquote] at h
  rw [if_neg hquote, if_neg hquote]
  by_cases hletter : (c == '_' || c.isAlpha || decide (127 < c.toNat)) = true
  · rw [if_pos hletter] at h
    rw [if_pos hletter, if_pos hletter]
    cases hmarks : Lexeme.stringMarks? s.rest with
    | some marks =>
      rw [hmarks] at h
      exact hstring (Lexeme.leaves_stringMarks? hclosed hmarks).le h
    | none =>
      simp only
      split
      · exact place_takeName hs htail
      · exact place_takeUnknown hrest
  · rw [if_neg hletter, if_neg hletter]
    exact place_takeSymbol hrest hclosed

private theorem place_takeLineStart (hx : x.BeginsLine) (hclosed : Closed s.rest x.behind)
    (h : x.behind = [] ∨ s.takeLineStart.rest ≠ [] ∨ s.takeLineStart.atLineStart = true) :
    (x.place s).takeLineStart = x.place s.takeLineStart := by
  obtain ⟨hrun, hmargin⟩ := Lexeme.run_append (p := isMargin) hclosed rfl
  have hplace : (x.place s).rest = s.rest ++ x.behind := rfl
  have htake : (s.rest ++ x.behind).take (Lexeme.run isMargin s.rest) =
      s.rest.take (Lexeme.run isMargin s.rest) := List.take_append_of_le_length hmargin.le
  have hclosed' := hmargin.closed
  have hlength : (s.rest.drop (Lexeme.run isMargin s.rest)).length =
      s.rest.length - Lexeme.run isMargin s.rest := List.length_drop
  have hle := hmargin.le
  simp only [takeLineStart, hplace, hrun, hmargin.drop, htake, place_layOut _ hle] at h ⊢
  cases hrest : s.rest.drop (Lexeme.run isMargin s.rest) with
  | nil =>
    rw [hrest] at hclosed'
    rw [hclosed'.of_nil]
    exact place_skip hle
  | cons c cs =>
    rw [hrest] at h hclosed' hlength
    obtain ⟨hcomment, hnote⟩ := comment_append hclosed'
    rw [List.cons_append] at hcomment
    have hdrop : (c :: (cs ++ x.behind)).drop (comment (c :: cs)) =
        (c :: cs).drop (comment (c :: cs)) ++ x.behind := hnote.drop
    have hend : lineEnd (c :: (cs ++ x.behind)) = lineEnd (c :: cs) := lineEnd_append hclosed'
    simp only [List.cons_append, hcomment, hdrop, lineEnd_append hnote.closed, hend] at h ⊢
    have hle' := hnote.le
    split
    · have hafter := lineEnd_le ((c :: cs).drop (comment (c :: cs)))
      rw [List.length_drop] at hafter
      exact place_skip (by omega)
    rename_i hhash
    rw [if_neg hhash] at h
    split
    · have hafter := lineEnd_le (c :: cs)
      exact place_skip (by omega)
    rename_i hline
    rw [if_neg hline] at h
    have hlaid := (s.rest_layOut (Lexeme.run isMargin s.rest)
      ((s.rest.take (Lexeme.run isMargin s.rest)).foldl column 0)).trans hrest
    exact place_takeToken (s := { s.layOut _ _ with atLineStart := false }) hx hlaid
      (by rw [hlaid]; exact hclosed') rfl h

private theorem place_advance (hx : x.BeginsLine) (hs : s.rest = c :: cs)
    (hclosed : Closed s.rest x.behind)
    (hstart : s.atLineStart = true → s.brackets = [])
    (h : x.behind = [] ∨ (s.advance c).rest ≠ [] ∨ (s.advance c).atLineStart = true) :
    (x.place s).advance c = x.place (s.advance c) := by
  have hbrackets : (x.place s).brackets.isEmpty = s.brackets.isEmpty := List.isEmpty_map
  have hatLineStart : (x.place s).atLineStart = s.atLineStart := rfl
  rw [advance] at h
  rw [advance, advance, hbrackets, hatLineStart]
  cases hline : s.atLineStart with
  | true =>
    rw [hline, hstart hline] at h
    rw [hstart hline]
    exact place_takeLineStart hx hclosed h
  | false =>
    rw [hline] at h
    exact place_takeToken hx hs hclosed hline h

/-! ## Runs -/

private theorem closed_drop (h : Closed cs behind) (n : Nat) :
    cs.drop n = [] ∨ Closed (cs.drop n) behind := by
  rcases h with h | ⟨before, rfl⟩
  · exact .inr (.inl h)
  · rcases Nat.lt_or_ge before.length n with hlt | hle
    · refine .inl (List.drop_eq_nil_of_le ?_)
      rw [List.length_append]
      exact hlt
    · exact .inr (.inr ⟨before.drop n, List.drop_append_of_le_length hle⟩)

private theorem place_run (hx : x.BeginsLine) (hrests : s.Rests)
    (hclosed : s.rest = [] ∨ Closed s.rest x.behind)
    (h : x.behind = [] ∨ s.run.atLineStart = true) :
    (x.place s).run = (x.place s.run).run := by
  fun_induction run s with
  | case1 s hs => rfl
  | case2 s c cs hs ih =>
    have hclosed : Closed s.rest x.behind :=
      hclosed.resolve_left fun hnil => by rw [hs] at hnil; cases hnil
    have hend : x.behind = [] ∨ (s.advance c).rest ≠ [] ∨ (s.advance c).atLineStart = true := by
      refine h.imp_right fun hline => ?_
      by_cases hnil : (s.advance c).rest = []
      · rw [run_of_nil hnil] at hline
        exact .inr hline
      · exact .inl hnil
    obtain ⟨n, hrest, -⟩ := s.skips_advance c
    have hplace : (x.place s).rest = c :: (cs ++ x.behind) := congrArg (· ++ x.behind) hs
    rw [run_of_cons hplace, place_advance hx hs hclosed (fun hline => (hrests hline).1) hend]
    exact ih (rests_advance hrests) (hrest ▸ closed_drop hclosed n) h

private theorem place_finish (hx : x.BeginsLine) : (x.place s).finish = x.place s.finish := by
  have hdedents (indents : List Nat) (s : Scanner) :
      indents.foldl (fun s _ => s.mark .dedent) (x.place s) =
        x.place (indents.foldl (fun s _ => s.mark .dedent) s) := by
    induction indents generalizing s with
    | nil => rfl
    | cons _ indents ih => rw [List.foldl_cons, List.foldl_cons, place_mark, ih]
  have hunclosed : { x.place s with
      findings := (x.place s).findings ++ ((x.place s).brackets.map fun (bracket, offset) =>
        (⟨Code.unclosedBracket, ⟨offset, offset + 1⟩, some bracket.text⟩ : Finding)).toArray } =
      x.place { s with
        findings := s.findings ++ (s.brackets.map fun (bracket, offset) =>
          (⟨Code.unclosedBracket, ⟨offset, offset + 1⟩, some bracket.text⟩ : Finding)).toArray } := by
    simp [place, Finding.moved, Span.moved, Function.comp_def, Nat.add_right_comm]
  simp only [finish, hunclosed, lineHasTokens_place hx]
  have hindents (r : Scanner) : (x.place r).indents = r.indents := rfl
  split
  · rw [place_mark, hindents, hdedents, place_mark]
  · rw [hindents, hdedents, place_mark]

end Surroundings

/-! ## Complete lines -/

namespace Scanner

/-- The text ends where a line of the outermost block may begin. -/
structure CompleteLines (text : String) : Prop where
  closed : text = "" ∨ ∃ before, text = before ++ "\n"
  atLineStart : (start text).run.atLineStart = true
  brackets : (start text).run.brackets = []
  indents : (start text).run.indents = [0]

variable {a : String}

namespace CompleteLines

private theorem lineHasTokens (h : CompleteLines a) : (start a).run.lineHasTokens = false :=
  (rests_run (rests_start a) h.atLineStart).2

/-- The scan reaches the end of the text. -/
theorem offset (a : String) : (start a).run.offset = a.utf8ByteSize := by
  have htotal := (start a).skips_run.total
  have hsize := utf8ByteSize_ofList a.toList
  rw [String.ofList_toList] at hsize
  rw [rest_run] at htotal
  rw [hsize]
  exact htotal.trans (Nat.zero_add _)

/-- The scan of the lines alone. -/
theorem scan_eq (h : CompleteLines a) :
    scan a = ⟨(start a).run.tokens.push
      ⟨.endOfFile, ⟨a.utf8ByteSize, a.utf8ByteSize⟩, ""⟩, (start a).run.findings⟩ := by
  rw [scan, finish_eq h.brackets h.indents, h.lineHasTokens, ← offset a]
  rfl

/-- What stands around the text behind the lines. -/
def before (a : String) : Surroundings :=
  ⟨(start a).run.tokens, (start a).run.findings, a.utf8ByteSize, []⟩

theorem beginsLine_before (h : CompleteLines a) : (before a).BeginsLine := by
  intro token htoken
  have htokens : (start a).run.tokens.back? = some token := htoken
  have hnone := h.lineHasTokens
  rw [Scanner.lineHasTokens, htokens] at hnone
  have hnone : (!token.kind.isLayout) = false := hnone
  cases hlayout : token.kind.isLayout with
  | true => rfl
  | false =>
    rw [hlayout] at hnone
    cases hnone

private theorem run_append (h : CompleteLines a) (b : String) :
    (start (a ++ b)).run = (before a).place (start b).run := by
  have hclosed : (start a).rest = [] ∨ Lexeme.Closed (start a).rest b.toList := by
    rcases h.closed with rfl | ⟨lines, rfl⟩
    · exact .inl rfl
    · exact .inr (.inr ⟨lines.toList, String.toList_append⟩)
  have hlines : (⟨#[], #[], 0, b.toList⟩ : Surroundings).BeginsLine := nofun
  have hrun := Surroundings.place_run hlines (rests_start a) hclosed (.inr h.atLineStart)
  have hstart : (⟨#[], #[], 0, b.toList⟩ : Surroundings).place (start a) = start (a ++ b) := by
    simp [Surroundings.place, start]
  have hb : start b = ⟨b.toList, 0, #[], #[], [0], [], true⟩ := rfl
  have hbehind : (⟨#[], #[], 0, b.toList⟩ : Surroundings).place (start a).run =
      (before a).place (start b) := by
    simp [Surroundings.place, before, hb, rest_run, offset, h.atLineStart, h.brackets, h.indents,
      Token.moved_zero, Finding.moved_zero]
  have hrest := Surroundings.place_run h.beginsLine_before (rests_start b) (.inr (.inl rfl)) (.inl rfl)
  have hnil : ((before a).place (start b).run).rest = [] :=
    congrArg (· ++ []) (rest_run (start b))
  rw [← hstart, hrun, hbehind, hrest, run_of_nil hnil]

end CompleteLines

theorem tokens_scan_append (h : CompleteLines a) (b : String) :
    (scan (a ++ b)).tokens =
      (start a).run.tokens ++ (scan b).tokens.map (·.moved a.utf8ByteSize) := by
  rw [scan, h.run_append b, Surroundings.place_finish h.beginsLine_before]
  rfl

theorem findings_scan_append (h : CompleteLines a) (b : String) :
    (scan (a ++ b)).findings =
      (scan a).findings ++ (scan b).findings.map (·.moved a.utf8ByteSize) := by
  rw [scan, h.run_append b, Surroundings.place_finish h.beginsLine_before, h.scan_eq]
  rfl

end Scanner
end LiveCheck
