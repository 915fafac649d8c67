import LiveCheck.Token.Scan

/-!
# The progress of a scan

A step of a scan takes characters off the rest, and what it adds begins before the place that it
reaches.
-/

namespace LiveCheck

open Text

/-- The problems that the scanner finds. -/
def Code.ofScanner : List Nat :=
  [invalidCharacter, unterminatedString, inconsistentDedent, unclosedBracket]

/-- Layout ends a line. -/
theorem TokenKind.endsLine_of_isLayout {kind : TokenKind} (h : kind.isLayout = true) :
    kind.endsLine = true := by
  cases kind <;> first | rfl | cases h

/-- A text with characters takes bytes. -/
theorem byteLength_pos {cs : List Char} (h : cs ≠ []) : 0 < byteLength cs := by
  cases cs with
  | nil => exact absurd rfl h
  | cons c cs => exact Nat.add_pos_left c.utf8Size_pos _

namespace Scanner

variable {s t r : Scanner} {b n : Nat} {c : Char} {cs : List Char} {kind : TokenKind}

/-! ## The rest -/

/-- The second state has taken characters off the rest of the first. -/
def Skips (s t : Scanner) : Prop :=
  ∃ n, t.rest = s.rest.drop n ∧ t.offset = s.offset + byteLength (s.rest.take n)

theorem skips_skip (s : Scanner) (n : Nat) : s.Skips (s.skip n) := ⟨n, rfl, rfl⟩

private theorem Skips.refl (s : Scanner) : s.Skips s := ⟨0, rfl, rfl⟩

private theorem Skips.trans (h : s.Skips t) (h' : t.Skips r) : s.Skips r := by
  obtain ⟨m, hrest, hoffset⟩ := h
  obtain ⟨n, hrest', hoffset'⟩ := h'
  refine ⟨m + n, by rw [hrest', hrest, List.drop_drop], ?_⟩
  rw [hoffset', hoffset, hrest, List.take_add, byteLength_append, Nat.add_assoc]

/-- What is not about the rest may change at will. -/
theorem Skips.congr (h : s.Skips t) (hrest : r.rest = t.rest) (hoffset : r.offset = t.offset) :
    s.Skips r := by
  obtain ⟨n, hn, hn'⟩ := h
  exact ⟨n, hrest.trans hn, hoffset.trans hn'⟩

/-- The place of the end of the text. -/
theorem Skips.total (h : s.Skips t) :
    t.offset + byteLength t.rest = s.offset + byteLength s.rest := by
  obtain ⟨n, hrest, hoffset⟩ := h
  rw [hrest, hoffset, Nat.add_assoc, ← byteLength_append, List.take_append_drop]

/-- A shorter rest begins later. -/
theorem Skips.offset_lt (h : s.Skips t) (hlt : t.rest.length < s.rest.length) :
    s.offset < t.offset := by
  obtain ⟨n, hrest, hoffset⟩ := h
  rw [hoffset]
  refine Nat.lt_add_of_pos_right (byteLength_pos fun hnil => ?_)
  rcases List.take_eq_nil_iff.mp hnil with rfl | hnil
  · rw [hrest, List.drop_zero] at hlt
    exact Nat.lt_irrefl _ hlt
  · rw [hnil] at hlt
    cases hlt

theorem closeBlocks_offset (here : Nat) (indents : List Nat) (s : Scanner) :
    (closeBlocks here indents s).offset = s.offset := by
  fun_induction closeBlocks here indents s with
  | case1 top below rest s _ ih => exact ih
  | case2 | case3 => rfl

theorem skips_layOut (s : Scanner) (margin here : Nat) : s.Skips (s.layOut margin here) := by
  have hclosed : s.Skips (closeBlocks here s.indents (s.skip margin)) :=
    (s.skips_skip margin).congr (rest_closeBlocks _ _ _) (closeBlocks_offset _ _ _)
  simp only [layOut]
  repeat' split
  · exact (s.skips_skip margin).congr rfl rfl
  · exact hclosed
  · exact hclosed.congr rfl rfl
  · exact s.skips_skip margin

theorem skips_takeString (s : Scanner) (marks : Nat) : s.Skips (s.takeString marks) := by
  simp only [takeString]
  split
  · exact (s.skips_skip _).congr rfl rfl
  · exact (s.skips_skip _).congr rfl rfl

theorem atLineStart_takeString (s : Scanner) (marks : Nat) :
    (s.takeString marks).atLineStart = s.atLineStart := by
  simp only [takeString]
  split <;> rfl

theorem skips_takeLineEnd (s : Scanner) : s.Skips s.takeLineEnd := by
  simp only [takeLineEnd]
  repeat' split
  · exact (s.skips_skip _).congr rfl rfl
  · exact (s.skips_skip _).congr rfl rfl
  · exact s.skips_skip _

theorem skips_takeUnknown (s : Scanner) : s.Skips s.takeUnknown :=
  (s.skips_skip 1).congr rfl rfl

theorem skips_takeName (s : Scanner) : s.Skips s.takeName := by
  simp only [takeName]
  split
  all_goals exact (s.skips_skip _).congr rfl rfl

theorem skips_takeSymbol (s : Scanner) : s.Skips s.takeSymbol := by
  simp only [takeSymbol]
  split
  · repeat' split
    all_goals exact (s.skips_skip _).congr rfl rfl
  · exact s.skips_takeUnknown

/-- What is taken where a token may begin. -/
inductive TokenStep (s : Scanner) : Scanner → Prop
  | skip (n : Nat) : TokenStep s (s.skip n)
  | lineEnd : TokenStep s s.takeLineEnd
  | number : TokenStep s (s.take (Lexeme.number s.rest).1 (Lexeme.number s.rest).2)
  | string (marks : Nat) : TokenStep s (s.takeString marks)
  | name : TokenStep s s.takeName
  | unknown : TokenStep s s.takeUnknown
  | symbol : TokenStep s s.takeSymbol

theorem tokenStep (s : Scanner) (c : Char) : s.TokenStep (s.takeToken c) := by
  unfold takeToken
  dsimp only
  split
  · exact .skip _
  split
  · exact .skip _
  split
  · exact .lineEnd
  split
  · exact .skip _
  split
  · exact .number
  split
  · exact .string 0
  split
  · split
    · exact .string _
    · split
      · exact .name
      · exact .unknown
  · exact .symbol

theorem skips_takeToken (s : Scanner) (c : Char) : s.Skips (s.takeToken c) := by
  have hstep := s.tokenStep c
  generalize s.takeToken c = t at hstep
  cases hstep with
  | skip n => exact s.skips_skip n
  | lineEnd => exact s.skips_takeLineEnd
  | number => exact (s.skips_skip _).congr rfl rfl
  | string marks => exact s.skips_takeString marks
  | name => exact s.skips_takeName
  | unknown => exact s.skips_takeUnknown
  | symbol => exact s.skips_takeSymbol

private theorem skips_takeLineStart (s : Scanner) : s.Skips s.takeLineStart := by
  simp only [takeLineStart]
  repeat' split
  · exact s.skips_skip _
  · exact s.skips_skip _
  · exact s.skips_skip _
  · exact ((s.skips_layOut _ _).congr rfl rfl).trans (skips_takeToken _ _)

theorem skips_advance (s : Scanner) (c : Char) : s.Skips (s.advance c) := by
  rw [advance]
  split
  · exact s.skips_takeLineStart
  · exact s.skips_takeToken c

/-! ## The run -/

/-- A scan ends with its text. -/
theorem run_of_nil (hs : s.rest = []) : s.run = s := by
  rw [run]
  split
  case h_1 => rfl
  case h_2 heq =>
    rw [hs] at heq
    cases heq

/-- A scan goes on behind one step. -/
theorem run_of_cons (hs : s.rest = c :: cs) : s.run = (s.advance c).run := by
  conv => lhs; rw [run]
  split
  case h_1 heq =>
    rw [hs] at heq
    cases heq
  case h_2 heq =>
    rw [hs] at heq
    cases heq
    rfl

theorem skips_run (s : Scanner) : s.Skips s.run := by
  fun_induction run s with
  | case1 s _ => exact .refl s
  | case2 s c cs hs ih => exact (s.skips_advance c).trans ih

theorem rest_run (s : Scanner) : s.run.rest = [] := by
  fun_induction run s with
  | case1 s hs => exact hs
  | case2 s c cs hs ih => exact ih

theorem finish_eq (hbrackets : s.brackets = []) (hindents : s.indents = [0]) :
    s.finish = (if s.lineHasTokens then s.mark .newline else s).mark .endOfFile := by
  obtain ⟨rest, offset, tokens, findings, indents, brackets, atLineStart⟩ := s
  cases hbrackets
  cases hindents
  simp only [finish, List.map_nil, Array.append_empty]
  split <;> rfl

/-! ## What has been added -/

/-- All that has been added begins before the bound, and no block has been closed that was not
opened. -/
structure Settled (b : Nat) (s : Scanner) : Prop where
  tokens : ∀ token ∈ s.tokens, token.span.start < b ∧ token.kind ≠ .endOfFile
  findings : ∀ finding ∈ s.findings, finding.span.start < b ∧ finding.code ∈ Code.ofScanner
  level : (s.indents = [0] ∧ ∀ token ∈ s.tokens, token.kind ≠ .dedent) ∨
    ∃ token ∈ s.tokens, token.kind = .indent

section

variable (h : s.Settled b)
include h

private theorem Settled.mono (hb : b ≤ n) : s.Settled n :=
  ⟨fun token htoken => (h.tokens token htoken).imp_left (Nat.lt_of_lt_of_le · hb),
    fun finding hfinding => (h.findings finding hfinding).imp_left (Nat.lt_of_lt_of_le · hb), h.level⟩

private theorem Settled.congr (htokens : t.tokens = s.tokens) (hfindings : t.findings = s.findings)
    (hindents : t.indents = s.indents) : t.Settled b := by
  refine ⟨?_, ?_, ?_⟩
  · rw [htokens]
    exact h.tokens
  · rw [hfindings]
    exact h.findings
  · rw [htokens, hindents]
    exact h.level

private theorem Settled.push {token : Token} (htokens : t.tokens = s.tokens.push token)
    (hfindings : t.findings = s.findings) (hlt : token.span.start < b)
    (hend : token.kind ≠ .endOfFile)
    (hindents : token.kind ≠ .dedent ∧ t.indents = s.indents ∨ s.indents ≠ [0] ∨
      token.kind = .indent) : t.Settled b := by
  refine ⟨fun other hother => ?_, hfindings ▸ h.findings, ?_⟩
  · rw [htokens] at hother
    rcases Array.mem_push.mp hother with hother | rfl
    · exact h.tokens other hother
    · exact ⟨hlt, hend⟩
  · rw [htokens]
    rcases h.level with ⟨hlevel, hdedent⟩ | ⟨other, hother, hindent⟩
    · rcases hindents with ⟨hkind, hsame⟩ | hblock | hkind
      · refine .inl ⟨hsame.trans hlevel, fun other hother => ?_⟩
        rcases Array.mem_push.mp hother with hother | rfl
        · exact hdedent other hother
        · exact hkind
      · exact absurd hlevel hblock
      · exact .inr ⟨token, Array.mem_push_self, hkind⟩
    · exact .inr ⟨other, Array.mem_push_of_mem token hother, hindent⟩

private theorem Settled.report {finding : Finding}
    (hfindings : t.findings = s.findings.push finding)
    (htokens : t.tokens = s.tokens) (hindents : t.indents = s.indents)
    (hlt : finding.span.start < b) (hcode : finding.code ∈ Code.ofScanner) : t.Settled b := by
  refine ⟨htokens ▸ h.tokens, fun other hother => ?_, by rw [htokens, hindents]; exact h.level⟩
  rw [hfindings] at hother
  rcases Array.mem_push.mp hother with hother | rfl
  · exact h.findings other hother
  · exact ⟨hlt, hcode⟩

private theorem Settled.take (hlt : s.offset < b) (hend : kind ≠ .endOfFile)
    (hdedent : kind ≠ .dedent)
    (n : Nat) : (s.take kind n).Settled b :=
  h.push rfl rfl hlt hend (.inl ⟨hdedent, rfl⟩)

private theorem Settled.note {code : Nat} (hlt : s.offset < b) (hcode : code ∈ Code.ofScanner)
    (n : Nat) :
    (s.note code n).Settled b :=
  h.report rfl rfl rfl hlt hcode

private theorem Settled.opened (hindents : s.indents ≠ [0]) :
    ∃ token ∈ s.tokens, token.kind = .indent :=
  h.level.resolve_left fun hlevel => hindents hlevel.1

end

private theorem settled_closeBlocks (here : Nat) (indents : List Nat) (h : s.Settled b)
    (hlt : s.offset < b) (hindents : s.indents ≠ [0]) : (closeBlocks here indents s).Settled b := by
  fun_induction closeBlocks here indents s with
  | case1 top below rest s _ ih =>
    exact ih (h.push rfl rfl hlt (by simp) (.inr (.inl hindents))) hlt hindents
  | case2 | case3 => exact ⟨h.tokens, h.findings, .inr (h.opened hindents)⟩

private theorem settled_layOut (margin here : Nat) (h : s.Settled b)
    (hlt : (s.layOut margin here).offset < b) : (s.layOut margin here).Settled b := by
  obtain ⟨n, -, hoffset⟩ := s.skips_layOut margin here
  have hlt' : s.offset < b := by omega
  simp only [layOut] at hlt ⊢
  split
  · exact h.push rfl rfl hlt' (by simp) (.inr (.inr rfl))
  rename_i hdeeper
  rw [if_neg hdeeper] at hlt
  split
  · rename_i hless
    rw [if_pos hless] at hlt
    have hindents : s.indents ≠ [0] := fun heq => by
      rw [heq] at hless
      exact Nat.not_lt_zero _ hless
    have hskip : (s.skip margin).offset < b := by
      rw [← closeBlocks_offset here s.indents]
      split at hlt <;> exact hlt
    have hclosed : (closeBlocks here s.indents (s.skip margin)).Settled b :=
      settled_closeBlocks here s.indents (h.congr rfl rfl rfl) hskip hindents
    split
    · exact hclosed
    · have hcode : Code.inconsistentDedent ∈ Code.ofScanner := by decide
      exact hclosed.report rfl rfl rfl hlt' hcode
  · exact h.congr rfl rfl rfl

private theorem settled_takeLineEnd (h : s.Settled b) (hlt : s.offset < b) :
    s.takeLineEnd.Settled b := by
  simp only [takeLineEnd]
  repeat' split
  · exact (h.take hlt (by simp) (by simp) _).congr rfl rfl rfl
  · exact h.congr rfl rfl rfl
  · exact h.congr rfl rfl rfl

private theorem settled_takeString (marks : Nat) (h : s.Settled b) (hlt : s.offset < b) :
    (s.takeString marks).Settled b := by
  have hk (p : Bool) : (if p then TokenKind.bytes else .string) ≠ .endOfFile ∧
      (if p then TokenKind.bytes else .string) ≠ .dedent := by cases p <;> exact ⟨nofun, nofun⟩
  have hcode : Code.unterminatedString ∈ Code.ofScanner := by decide
  simp only [takeString]
  split
  · exact h.take hlt (hk _).1 (hk _).2 _
  · exact (h.note hlt hcode _).take hlt (hk _).1 (hk _).2 _

private theorem settled_takeUnknown (h : s.Settled b) (hlt : s.offset < b) :
    s.takeUnknown.Settled b := by
  have hcode : Code.invalidCharacter ∈ Code.ofScanner := by decide
  exact (h.note hlt hcode 1).take hlt (by simp) (by simp) 1

private theorem settled_takeSymbol (h : s.Settled b) (hlt : s.offset < b) :
    s.takeSymbol.Settled b := by
  simp only [takeSymbol]
  split
  · repeat' split
    all_goals exact (h.take hlt (by simp) (by simp) _).congr rfl rfl rfl
  · exact settled_takeUnknown h hlt

private theorem settled_takeName (h : s.Settled b) (hlt : s.offset < b) : s.takeName.Settled b := by
  simp only [takeName]
  split
  all_goals exact h.take hlt (by simp) (by simp) _

private theorem kind_number (cs : List Char) : (Lexeme.number cs).1 ≠ .endOfFile := by
  simp only [Lexeme.number, Lexeme.decimal]
  repeat' split
  all_goals nofun

private theorem settled_takeToken (c : Char) (h : s.Settled b) (hlt : s.offset < b) :
    (s.takeToken c).Settled b := by
  have hnumber : (Lexeme.number s.rest).1 ≠ .dedent := by
    simp only [Lexeme.number, Lexeme.decimal]
    repeat' split
    all_goals simp
  have hstep := s.tokenStep c
  generalize s.takeToken c = t at hstep
  cases hstep with
  | skip n => exact h.congr rfl rfl rfl
  | lineEnd => exact settled_takeLineEnd h hlt
  | number => exact h.take hlt (kind_number s.rest) hnumber _
  | string marks => exact settled_takeString marks h hlt
  | name => exact settled_takeName h hlt
  | unknown => exact settled_takeUnknown h hlt
  | symbol => exact settled_takeSymbol h hlt

private theorem settled_takeLineStart (h : s.Settled b) (hb : s.takeLineStart.offset ≤ b) :
    s.takeLineStart.Settled b := by
  revert hb
  simp only [takeLineStart]
  repeat' split
  all_goals intro hb
  · exact h.congr rfl rfl rfl
  · exact h.congr rfl rfl rfl
  · exact h.congr rfl rfl rfl
  · rename_i c behind hrest _ _
    generalize (s.rest.take (Lexeme.run isMargin s.rest)).foldl column 0 = here at hb ⊢
    have hlaid := (s.rest_layOut (Lexeme.run isMargin s.rest) here).trans hrest
    have hlt : (s.layOut (Lexeme.run isMargin s.rest) here).offset < b :=
      Nat.lt_of_lt_of_le ((skips_takeToken { s.layOut _ here with atLineStart := false } c).offset_lt
        (takeToken_lt hlaid)) hb
    exact settled_takeToken c ((settled_layOut _ here h hlt).congr rfl rfl rfl) hlt

private theorem settled_advance (h : s.Settled s.offset) (hs : s.rest = c :: cs) :
    (s.advance c).Settled (s.advance c).offset := by
  have hlt := (s.skips_advance c).offset_lt (advance_lt hs)
  have h' := h.mono (Nat.le_of_lt hlt)
  rw [advance] at hlt h' ⊢
  split
  · rename_i hline
    rw [if_pos hline] at h'
    exact settled_takeLineStart h' (Nat.le_refl _)
  · rename_i hline
    rw [if_neg hline] at hlt h'
    exact settled_takeToken c h' hlt

theorem settled_run (h : s.Settled s.offset) : s.run.Settled s.run.offset := by
  fun_induction run s with
  | case1 s _ => exact h
  | case2 s c cs hs ih => exact ih (settled_advance h hs)

theorem settled_start (text : String) : (start text).Settled (start text).offset where
  tokens := by simp [start]
  findings := by simp [start]
  level := .inl ⟨rfl, by simp [start]⟩

/-- The end of the scan finds nothing but open brackets. -/
theorem findings_finish (s : Scanner) : s.finish.findings =
    s.findings ++ (s.brackets.map fun (bracket, offset) =>
      (⟨Code.unclosedBracket, ⟨offset, offset + 1⟩, some bracket.text⟩ : Finding)).toArray := by
  have hdedents (indents : List Nat) (s : Scanner) :
      (indents.foldl (fun s _ => s.mark .dedent) s).findings = s.findings := by
    induction indents generalizing s with
    | nil => rfl
    | cons _ indents ih => exact ih (s.mark .dedent)
  simp only [finish]
  split
  · exact hdedents _ _
  · exact hdedents _ _

theorem code_of_scan {text : String} {finding : Finding} (h : finding ∈ (scan text).findings) :
    finding.code ∈ Code.ofScanner := by
  rw [scan, findings_finish] at h
  rcases Array.mem_append.mp h with h | h
  · exact ((settled_run (settled_start text)).findings finding h).2
  · obtain ⟨bracket, -, rfl⟩ := List.mem_map.mp (List.mem_toArray.mp h)
    have hcode : Code.unclosedBracket ∈ Code.ofScanner := by decide
    exact hcode

/-! ## The beginnings of lines -/

/-- At the beginning of a line no bracket is open and the line has no tokens. -/
def Rests (s : Scanner) : Prop :=
  s.atLineStart = true → s.brackets = [] ∧ s.lineHasTokens = false

/-- What is not about lines, brackets and tokens may change at will. -/
theorem Rests.congr (h : s.Rests) (hline : t.atLineStart = s.atLineStart)
    (hbrackets : t.brackets = s.brackets) (htokens : t.tokens = s.tokens) : t.Rests := by
  have htokens' : t.lineHasTokens = s.lineHasTokens := by rw [lineHasTokens, htokens]; rfl
  rw [Rests, hline, hbrackets, htokens']
  exact h

/-- Inside a line nothing is said. -/
theorem Rests.inside (h : s.atLineStart = false) : s.Rests := fun hline => by
  rw [h] at hline
  cases hline

private theorem rests_takeLineEnd (h : s.Rests) : s.takeLineEnd.Rests := by
  simp only [takeLineEnd]
  repeat' split
  · rename_i hbrackets _
    refine fun _ => ⟨List.isEmpty_iff.mp hbrackets, ?_⟩
    simp [lineHasTokens, Scanner.take, TokenKind.isLayout]
  · rename_i hbrackets htokens
    exact fun _ => ⟨List.isEmpty_iff.mp hbrackets, Bool.eq_false_iff.mpr htokens⟩
  · exact h.congr rfl rfl rfl

private theorem rests_takeToken (h : s.atLineStart = false) : (s.takeToken c).Rests := by
  have hname : s.takeName.atLineStart = s.atLineStart := by
    simp only [takeName]
    split <;> rfl
  have hsymbol : s.takeSymbol.atLineStart = s.atLineStart := by
    simp only [takeSymbol]
    split
    · repeat' split
      all_goals rfl
    · rfl
  have hstep := s.tokenStep c
  generalize s.takeToken c = t at hstep
  cases hstep with
  | lineEnd => exact rests_takeLineEnd (.inside h)
  | string marks => exact .inside ((s.atLineStart_takeString marks).trans h)
  | name => exact .inside (hname.trans h)
  | symbol => exact .inside (hsymbol.trans h)
  | skip | number | unknown => exact .inside h

theorem rests_advance (h : s.Rests) : (s.advance c).Rests := by
  rw [advance]
  cases hline : s.atLineStart with
  | false => exact rests_takeToken hline
  | true =>
    rw [(h hline).1]
    simp only [List.isEmpty_nil, Bool.and_self, if_true, takeLineStart]
    repeat' split
    · exact h.congr rfl rfl rfl
    · exact h.congr rfl rfl rfl
    · exact h.congr rfl rfl rfl
    · exact rests_takeToken rfl

theorem rests_run (h : s.Rests) : s.run.Rests := by
  fun_induction run s with
  | case1 s _ => exact h
  | case2 s c cs hs ih => exact ih (rests_advance h)

/-- The scan of a text begins on a line without tokens. -/
theorem rests_start (text : String) : (start text).Rests := fun _ => ⟨rfl, rfl⟩

end Scanner
end LiveCheck
