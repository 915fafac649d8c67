import LiveCheck.Proofs.Scanning.CarriageReturns
import LiveCheck.Proofs.Scanning.Places
import Mathlib.Data.List.Forall2

/-!
# Line feeds and carriage returns

A text whose lines end with a carriage return and a line feed is scanned like the same text with
line feeds only: the tokens are of the same kinds, and the problems are the same, at the same places.
There is one exception, and only one: a backslash in a string takes the one character behind it
along. In front of a line feed it joins the lines; in front of a carriage return it hides only that,
and the string, unless it is in three quotes, ends before the line feed.
-/

/-!
## Scans in step

Scans of a text and of the same text with carriage returns take the same steps: each state of the
one corresponds to a state of the other at the same place of the text.
-/

namespace LiveCheck

open Text

/-- The offsets are those of the same place of a text and of the text with other line ends. -/
def Text.SamePlace (text : List Char) (o k : Nat) : Prop :=
  ∃ before behind, text = before ++ behind ∧ byteLength before = o ∧ byteLength (crlf before) = k



/-- The two spans stand at the same place. -/
structure Span.Corresponds (text : List Char) (x y : Span) : Prop where
  start : SamePlace text x.start y.start
  stop : SamePlace text x.stop y.stop

/-- The same token, with the line ends of the other text. -/
structure Token.Corresponds (text : List Char) (x y : Token) : Prop where
  kind : y.kind = x.kind
  characters : y.text.toList = crlf x.text.toList
  span : x.span.Corresponds text y.span

/-- The same problem at the same place. -/
structure Finding.Corresponds (text : List Char) (x y : Finding) : Prop where
  code : y.code = x.code
  arg : y.arg = x.arg
  span : x.span.Corresponds text y.span

/-- A string in single quotes that runs over a line feed, which a backslash hides. -/
structure Token.HidesLineFeed (x : Token) : Prop where
  kind : x.kind = .string ∨ x.kind = .bytes
  single : Lexeme.inTripleQuotes x.text.toList = false
  lineFeed : '\n' ∈ x.text.toList

namespace Scanner

private def Plain (s : Scanner) : Prop := ∀ x ∈ s.tokens, ¬x.HidesLineFeed

private theorem Plain.of_grows {s t : Scanner} (h : t.Plain)
    (hgrows : ∃ new, t.tokens.toList = s.tokens.toList ++ new) :
    s.Plain := by
  intro x hx
  obtain ⟨new, hnew⟩ := hgrows
  apply h
  rw [← Array.mem_toList_iff, hnew]
  exact List.mem_append_left _ (Array.mem_toList_iff.mpr hx)

private theorem exists_token_takeString (s : Scanner) (marks : Nat) :
    ∃ x ∈ (s.takeString marks).tokens, (x.kind = .string ∨ x.kind = .bytes) ∧
      x.text.toList = s.rest.take (marks + (Lexeme.quoted (s.rest.drop marks)).1) := by
  have htake (r : Scanner) (kind : TokenKind) (n : Nat) (hr : r.rest = s.rest) :
      ∃ x ∈ (r.take kind n).tokens, x.kind = kind ∧ x.text.toList = s.rest.take n :=
    ⟨_, Array.mem_push_self, rfl, by rw [String.toList_ofList, hr]⟩
  have hkind (b : Bool) (kind : TokenKind) (h : kind = if b then .bytes else .string) :
      kind = .string ∨ kind = .bytes := by
    cases b
    · exact .inl h
    · exact .inr h
  simp only [takeString]
  split
  · obtain ⟨x, hx, hxkind, htext⟩ := htake s (if (s.rest.take marks).any Lexeme.isBytesMark then
      .bytes else .string) _ rfl
    exact ⟨x, hx, hkind _ _ hxkind, htext⟩
  · obtain ⟨x, hx, hxkind, htext⟩ := htake (s.note Code.unterminatedString _)
      (if (s.rest.take marks).any Lexeme.isBytesMark then .bytes else .string) _ rfl
    exact ⟨x, hx, hkind _ _ hxkind, htext⟩

/-- The second state is that of the scan of the text with the other line ends at the same place. -/
private structure Mirrors (text : List Char) (s t : Scanner) : Prop where
  place : ∃ before, text = before ++ s.rest ∧ byteLength before = s.offset ∧
    byteLength (crlf before) = t.offset
  rest : t.rest = crlf s.rest
  tokens : List.Forall₂ (Token.Corresponds text) s.tokens.toList t.tokens.toList
  findings : List.Forall₂ (Finding.Corresponds text) s.findings.toList t.findings.toList
  indents : t.indents = s.indents
  brackets : List.Forall₂ (fun x y => y.1 = x.1 ∧
    Span.Corresponds text ⟨x.2, x.2 + 1⟩ ⟨y.2, y.2 + 1⟩) s.brackets t.brackets
  atLineStart : t.atLineStart = s.atLineStart

namespace Mirrors

variable {text : List Char} {s t : Scanner} {n k : Nat} {c d : Char} {cs ds : List Char}

section

variable (h : s.Mirrors text t)
include h

private theorem samePlace : SamePlace text s.offset t.offset := by
  obtain ⟨before, htext, hs, ht⟩ := h.place
  exact ⟨before, s.rest, htext, hs, ht⟩

private theorem setLine (b : Bool) :
    Mirrors text { s with atLineStart := b } { t with atLineStart := b } :=
  ⟨h.place, h.rest, h.tokens, h.findings, h.indents, h.brackets, rfl⟩

private theorem setIndents (indents : List Nat) :
    Mirrors text { s with indents := indents } { t with indents := indents } :=
  ⟨h.place, h.rest, h.tokens, h.findings, rfl, h.brackets, h.atLineStart⟩

private theorem place_skip (hw : Widens s.rest n k) :
    ∃ before, text = before ++ (s.skip n).rest ∧ byteLength before = (s.skip n).offset ∧
      byteLength (crlf before) = (t.skip k).offset := by
  obtain ⟨before, htext, hs, ht⟩ := h.place
  refine ⟨before ++ s.rest.take n, ?_, ?_, ?_⟩
  · rw [htext, rest_skip, List.append_assoc, List.take_append_drop]
  · rw [byteLength_append, hs]
    rfl
  · rw [crlf_append, byteLength_append, ht, Scanner.skip, h.rest, hw.take]

private theorem samePlace_skip (hw : Widens s.rest n k) :
    SamePlace text (s.skip n).offset (t.skip k).offset := by
  obtain ⟨before, htext, hs, ht⟩ := h.place_skip hw
  exact ⟨before, _, htext, hs, ht⟩

private theorem rest_skip (hw : Widens s.rest n k) :
    (t.skip k).rest = crlf (s.skip n).rest := by
  rw [Scanner.rest_skip, Scanner.rest_skip, h.rest, hw.drop]

private theorem skip (hw : Widens s.rest n k) :
    (s.skip n).Mirrors text (t.skip k) :=
  ⟨h.place_skip hw, h.rest_skip hw, h.tokens, h.findings, h.indents, h.brackets, h.atLineStart⟩

private theorem take (hw : Widens s.rest n k) (kind : TokenKind) :
    (s.take kind n).Mirrors text (t.take kind k) := by
  have htoken : Token.Corresponds text
      ⟨kind, ⟨s.offset, (s.skip n).offset⟩, String.ofList (s.rest.take n)⟩
      ⟨kind, ⟨t.offset, (t.skip k).offset⟩, String.ofList (t.rest.take k)⟩ := by
    refine ⟨rfl, ?_, h.samePlace, h.samePlace_skip hw⟩
    rw [String.toList_ofList, String.toList_ofList, h.rest, hw.take]
  refine ⟨h.place_skip hw, h.rest_skip hw, ?_, h.findings, h.indents, h.brackets, h.atLineStart⟩
  simp only [Scanner.take, Array.toList_push]
  exact List.rel_append h.tokens (.cons htoken .nil)

private theorem mark (kind : TokenKind) : (s.mark kind).Mirrors text (t.mark kind) := by
  have htake := h.take (widens_zero s.rest) kind
  have heq (r : Scanner) : r.mark kind = r.take kind 0 := by
    simp [Scanner.mark, Scanner.take, Scanner.skip, byteLength]
  rw [heq, heq]
  exact htake

private theorem report {x y : Finding} (hxy : x.Corresponds text y) :
    Mirrors text { s with findings := s.findings.push x } { t with findings := t.findings.push y } := by
  refine ⟨h.place, h.rest, h.tokens, ?_, h.indents, h.brackets, h.atLineStart⟩
  simp only [Array.toList_push]
  exact List.rel_append h.findings (.cons hxy .nil)

private theorem note (hw : Widens s.rest n k) (code : Nat) :
    (s.note code n).Mirrors text (t.note code k) :=
  h.report ⟨rfl, rfl, h.samePlace, h.samePlace_skip hw⟩

private theorem lineHasTokens : t.lineHasTokens = s.lineHasTokens := by
  have hrev := List.forall₂_reverse_iff.mpr h.tokens
  rw [Scanner.lineHasTokens, Scanner.lineHasTokens, ← Array.getLast?_toList,
    ← Array.getLast?_toList, List.getLast?_eq_head?_reverse, List.getLast?_eq_head?_reverse]
  generalize s.tokens.toList.reverse = xs at hrev ⊢
  generalize t.tokens.toList.reverse = ys at hrev ⊢
  cases hrev with
  | nil => rfl
  | cons hxy _ => simp only [List.head?_cons, hxy.kind]

private theorem isEmpty_brackets : t.brackets.isEmpty = s.brackets.isEmpty := by
  have hbrackets := h.brackets
  generalize s.brackets = xs at hbrackets ⊢
  generalize t.brackets = ys at hbrackets ⊢
  cases hbrackets with
  | nil => rfl
  | cons _ _ => rfl

end

/-! ### Layout -/

private theorem closeBlocks {s t : Scanner} (h : s.Mirrors text t) (here : Nat)
    (indents : List Nat) :
    (Scanner.closeBlocks here indents s).Mirrors text (Scanner.closeBlocks here indents t) := by
  match indents with
  | [] | [_] => exact h.setIndents _
  | top :: below :: indents =>
    rw [Scanner.closeBlocks, Scanner.closeBlocks]
    split
    · exact (h.mark .dedent).closeBlocks here (below :: indents)
    · exact h.setIndents _

section

variable (h : s.Mirrors text t)
include h

private theorem layOut (hw : Widens s.rest n k) (here : Nat) :
    (s.layOut n here).Mirrors text (t.layOut k here) := by
  have hclosed := (h.skip hw).closeBlocks here s.indents
  simp only [Scanner.layOut, h.indents]
  split
  · exact (h.take hw .indent).setIndents _
  split
  · by_cases hsame : (Scanner.closeBlocks here s.indents (s.skip n)).indents.headD 0 = here
    · rw [if_pos hsame, if_pos (by rw [hclosed.indents, hsame])]
      exact hclosed
    · rw [if_neg hsame, if_neg (by rw [hclosed.indents]; exact hsame)]
      refine hclosed.report ?_
      exact ⟨rfl, rfl, h.samePlace, hclosed.samePlace⟩
  · exact h.skip hw

private theorem takeLineEnd (hcr : '\r' ∉ s.rest) :
    s.takeLineEnd.Mirrors text t.takeLineEnd := by
  have hw := widens_lineEnd hcr
  rw [← h.rest] at hw
  simp only [Scanner.takeLineEnd, h.isEmpty_brackets, h.lineHasTokens]
  split
  · apply setLine
    split
    · exact h.take hw .newline
    · exact h.skip hw
  · exact h.skip hw

/-! ### Tokens -/

private theorem takeUnknown (hw : Widens s.rest 1 1) :
    s.takeUnknown.Mirrors text t.takeUnknown :=
  (h.note hw _).take hw .unknown

private theorem takeName (hs : s.rest = c :: cs) (hc : c ≠ '\n') :
    s.takeName.Mirrors text t.takeName := by
  have hbehind : s.rest.drop 1 = cs := by simp [hs]
  have hbehind' : t.rest.drop 1 = crlf cs := by simp [h.rest, hs, crlf_cons_of_ne hc]
  have hrun : Lexeme.run Lexeme.continuesName (crlf cs) = Lexeme.run Lexeme.continuesName cs :=
    eq_crlf (fun line behind hb => Lexeme.run_within hb continuesName_lineEnd) cs
  have hle := Lexeme.run_le_firstLine continuesName_lineEnd cs
  have hw : Widens s.rest (1 + Lexeme.run Lexeme.continuesName cs)
      (1 + Lexeme.run Lexeme.continuesName cs) := by
    rw [hs, Nat.add_comm]
    exact widens_cons hc (widens_of_le hle)
  have hword : t.rest.take (1 + Lexeme.run Lexeme.continuesName cs) =
      s.rest.take (1 + Lexeme.run Lexeme.continuesName cs) := by
    have hplain : '\n' ∉ s.rest.take (1 + Lexeme.run Lexeme.continuesName cs) := by
      rw [hs, Nat.add_comm, List.take_succ_cons, List.mem_cons, not_or]
      refine ⟨Ne.symm hc, fun hmem => ?_⟩
      have hline := Lexeme.not_mem_take_of_le hle _ hmem
      cases hline
    rw [h.rest, hw.take, crlf_eq_self hplain]
  simp only [Scanner.takeName, hbehind, hbehind', hrun, hword]
  split
  · exact h.take hw _
  · exact h.take hw _

private theorem takeSymbol (hs : s.rest = c :: cs) (hc : c ≠ '\n') :
    s.takeSymbol.Mirrors text t.takeSymbol := by
  have hmark : Symbol.leading? t.rest = Symbol.leading? s.rest := by
    rw [h.rest]
    exact eq_crlf (fun line behind hb => Symbol.leading?_within hb) s.rest
  have hone : Widens s.rest 1 1 := by
    rw [hs]
    exact widens_cons hc (widens_zero cs)
  simp only [Scanner.takeSymbol, hmark]
  split
  case h_2 => exact h.takeUnknown hone
  case h_1 mark n hlead =>
    obtain ⟨behind, hrest, hbehind⟩ := Lexeme.exists_firstLine s.rest
    have hle : n ≤ (Lexeme.firstLine s.rest).length := by
      rw [hrest, Symbol.leading?_within hbehind] at hlead
      exact Symbol.leading?_le hlead
    have htake := h.take (widens_of_le hle) mark
    split
    case isTrue hopens =>
      obtain ⟨rfl, hbyte⟩ := Symbol.leading?_bracket hlead (.inl hopens)
      have hstop := h.samePlace_skip hone
      have hfirst : t.rest.take 1 = s.rest.take 1 := by simp [h.rest, hs, crlf_cons_of_ne hc]
      rw [Scanner.skip, Scanner.skip, hfirst, hbyte] at hstop
      exact ⟨htake.place, htake.rest, htake.tokens, htake.findings, htake.indents,
        .cons ⟨rfl, h.samePlace, hstop⟩ h.brackets, htake.atLineStart⟩
    split
    · refine ⟨htake.place, htake.rest, htake.tokens, htake.findings, htake.indents, ?_,
        htake.atLineStart⟩
      rw [← List.drop_one, ← List.drop_one]
      exact List.forall₂_drop 1 h.brackets
    · exact htake

private theorem takeString {marks : Nat} (hliteral : Lexeme.Literal s.rest marks)
    (hplain : (s.takeString marks).Plain) :
    (s.takeString marks).Mirrors text (t.takeString marks) := by
  have hsingle (hone : Lexeme.inTripleQuotes
      (s.rest.take (marks + (Lexeme.quoted (s.rest.drop marks)).1)) = false) :
      '\n' ∉ s.rest.take (marks + (Lexeme.quoted (s.rest.drop marks)).1) := by
    intro hmem
    obtain ⟨x, hx, hkind, htext⟩ := exists_token_takeString s marks
    rw [← htext] at hone hmem
    exact hplain x hx ⟨hkind, hone, hmem⟩
  obtain ⟨hw, hclosed⟩ := hliteral.widens hsingle
  have hmarks : t.rest.take marks = s.rest.take marks := by
    rw [h.rest, hliteral.widens_letters.take]
    apply crlf_eq_self
    intro hmem
    cases (hliteral.letters _ hmem).2
  rw [← h.rest] at hw hclosed
  simp only [Scanner.takeString, hclosed, hmarks]
  split
  · exact h.take hw _
  · exact (h.note hw _).take hw _

end

private theorem ite {p : Prop} [Decidable p] {s₁ s₂ t₁ t₂ : Scanner}
    (h₁ : p → s₁.Plain → s₁.Mirrors text t₁) (h₂ : ¬p → s₂.Plain → s₂.Mirrors text t₂) :
    (if p then s₁ else s₂).Plain → Mirrors text (if p then s₁ else s₂) (if p then t₁ else t₂) := by
  by_cases hp : p
  · rw [if_pos hp, if_pos hp]
    exact h₁ hp
  · rw [if_neg hp, if_neg hp]
    exact h₂ hp

private theorem takeToken (h : s.Mirrors text t) (hcr : '\r' ∉ s.rest) (hs : s.rest = c :: cs)
    (ht : t.rest = d :: ds) :
    (s.takeToken c).Plain → (s.takeToken c).Mirrors text (t.takeToken d) := by
  have hrest : crlf (c :: cs) = d :: ds := by rw [← hs, ← h.rest, ht]
  obtain ⟨rfl, rfl⟩ | ⟨hc, rfl, rfl⟩ := crlf_cons hrest
  · exact fun _ => h.takeLineEnd hcr
  have hone : Widens s.rest 1 1 := by
    rw [hs]
    exact widens_cons hc (widens_zero cs)
  have hjoin : Widens s.rest (1 + lineEnd cs) (1 + lineEnd (crlf cs)) := by
    rw [hs, Nat.add_comm, Nat.add_comm 1]
    exact widens_cons hc (widens_lineEnd fun hmem => hcr (hs ▸ List.mem_cons_of_mem d hmem))
  have hbehind : s.rest.drop 1 = cs := by simp [hs]
  have hbehind' : t.rest.drop 1 = crlf cs := by simp [ht]
  have hnumber : Lexeme.number t.rest = Lexeme.number s.rest := by
    rw [h.rest]
    exact eq_crlf (fun line behind hb => Lexeme.number_within hb) s.rest
  have hmarks : Lexeme.stringMarks? t.rest = Lexeme.stringMarks? s.rest := by
    rw [h.rest]
    exact eq_crlf (fun line behind hb => Lexeme.stringMarks?_within hb) s.rest
  obtain ⟨hcomment, hwide⟩ := comment_crlf s.rest
  rw [← h.rest] at hcomment
  simp only [Scanner.takeToken, hbehind, hbehind', startsWith_crlf,
    hnumber, hmarks, hcomment]
  apply ite fun _ _ => h.skip hone
  intro _
  apply ite fun _ _ => h.skip hwide
  intro _
  apply ite fun _ _ => h.takeLineEnd hcr
  intro _
  apply ite fun _ _ => h.skip hjoin
  intro _
  apply ite fun _ _ => h.take (widens_of_le (Lexeme.number_le_firstLine s.rest)) _
  intro _
  apply ite fun hquote => h.takeString (hs ▸ Lexeme.literal_of_isQuote hquote)
  intro _
  apply ite
  · intro _
    cases hliteral : Lexeme.stringMarks? s.rest with
    | some marks => exact h.takeString (Lexeme.literal_of_stringMarks? hliteral)
    | none => exact ite (fun _ _ => h.takeName hs hc) fun _ _ => h.takeUnknown hone
  · exact fun _ _ => h.takeSymbol hs hc

private theorem takeLineStart (h : s.Mirrors text t) (hcr : '\r' ∉ s.rest) :
    s.takeLineStart.Plain → s.takeLineStart.Mirrors text t.takeLineStart := by
  have hends (c : Char) (hc : isLineEnd c = true) : isMargin c = false := by
    rcases Lexeme.isLineEnd_cases hc with rfl | rfl <;> rfl
  have hmargin : Lexeme.run isMargin t.rest = Lexeme.run isMargin s.rest := by
    rw [h.rest]
    exact eq_crlf (fun line behind hb => Lexeme.run_within hb hends) s.rest
  have hle := Lexeme.run_le_firstLine hends s.rest
  have hw := widens_of_le hle
  have htake : t.rest.take (Lexeme.run isMargin s.rest) =
      s.rest.take (Lexeme.run isMargin s.rest) := by
    rw [h.rest, hw.take]
    apply crlf_eq_self
    intro hmem
    cases Lexeme.not_mem_take_of_le hle _ hmem
  have hdrop : t.rest.drop (Lexeme.run isMargin s.rest) =
      crlf (s.rest.drop (Lexeme.run isMargin s.rest)) := by
    rw [h.rest, hw.drop]
  have hcr' : '\r' ∉ s.rest.drop (Lexeme.run isMargin s.rest) :=
    fun hmem => hcr (List.mem_of_mem_drop hmem)
  have hlaid (here : Nat) := (h.layOut hw here).setLine false
  simp only [Scanner.takeLineStart, hmargin, htake]
  generalize Lexeme.run isMargin s.rest = margin at *
  generalize (s.rest.take margin).foldl column 0 = here
  cases hbehind : s.rest.drop margin with
  | nil =>
    rw [hdrop, hbehind]
    exact fun _ => h.skip hw
  | cons c behind =>
    obtain ⟨d, ds, hd⟩ := exists_crlf_cons c behind
    have hsame : (d == '#') = (c == '#') ∧ isLineEnd d = isLineEnd c := by
      obtain ⟨rfl, rfl⟩ | ⟨-, rfl, -⟩ := crlf_cons hd
      · exact ⟨rfl, rfl⟩
      · exact ⟨rfl, rfl⟩
    obtain ⟨hcomment, hwide⟩ := comment_crlf (c :: behind)
    rw [hbehind] at hdrop hcr'
    rw [hdrop, hd]
    rw [hd] at hdrop hcomment
    have hline := hwide.add (widens_lineEnd fun hmem => hcr' (List.mem_of_mem_drop hmem))
    rw [← hwide.drop, hd] at hline
    simp only [hsame, hcomment, Nat.add_assoc]
    apply ite
    · exact fun _ _ => h.skip (hw.add (hbehind ▸ hline))
    intro _
    apply ite
    · rw [← hd]
      have hend := widens_lineEnd hcr'
      rw [← hbehind] at hend ⊢
      exact fun _ _ => h.skip (hw.add hend)
    · intro _
      have hrest : (s.layOut margin here).rest = c :: behind := by rw [rest_layOut, hbehind]
      have hrest' : (t.layOut margin here).rest = d :: ds := by rw [rest_layOut, hdrop]
      exact (hlaid here).takeToken (hrest ▸ hcr') hrest hrest'

private theorem advance (h : s.Mirrors text t) (hcr : '\r' ∉ s.rest) (hs : s.rest = c :: cs)
    (ht : t.rest = d :: ds) :
    (s.advance c).Plain → (s.advance c).Mirrors text (t.advance d) := by
  simp only [Scanner.advance, h.atLineStart, h.isEmpty_brackets]
  exact ite (fun _ => h.takeLineStart hcr) fun _ => h.takeToken hcr hs ht

private theorem run {s t : Scanner} (h : s.Mirrors text t) (hrests : s.Rests)
    (hcr : '\r' ∉ s.rest) (hplain : s.run.Plain) :
    s.run.Mirrors text t.run := by
  fun_induction Scanner.run s generalizing t with
  | case1 s hs =>
    have ht : t.rest = [] := by rw [h.rest, hs]; rfl
    rw [run_of_nil ht]
    exact h
  | case2 s c cs hs ih =>
    obtain ⟨d, ds, hd⟩ := exists_crlf_cons c cs
    have ht : t.rest = d :: ds := by rw [h.rest, hs, hd]
    obtain ⟨n, hrest, -⟩ := s.skips_advance c
    obtain ⟨new, hnew, -⟩ := (grows_run (rests_advance (c := c) hrests)).tokens
    have hcr' : '\r' ∉ (s.advance c).rest := by
      rw [hrest]
      exact fun hmem => hcr (List.mem_of_mem_drop hmem)
    rw [run_of_cons ht]
    exact ih (h.advance hcr hs ht (hplain.of_grows ⟨new, hnew⟩)) (rests_advance hrests) hcr' hplain

private theorem start (text : String) :
    Mirrors text.toList (start text) (start (String.ofList (crlf text.toList))) := by
  refine ⟨⟨[], rfl, rfl, rfl⟩, String.toList_ofList, .nil, .nil, rfl, .nil, rfl⟩

private theorem dedents (h : s.Mirrors text t) (indents : List Nat) :
    Mirrors text (indents.foldl (fun s _ => s.mark .dedent) s)
      (indents.foldl (fun s _ => s.mark .dedent) t) := by
  induction indents generalizing s t with
  | nil => exact h
  | cons _ indents ih => exact ih (h.mark .dedent)

private theorem endLine (h : s.Mirrors text t) :
    Mirrors text (if s.lineHasTokens then s.mark .newline else s)
      (if t.lineHasTokens then t.mark .newline else t) := by
  rw [h.lineHasTokens]
  split
  · exact h.mark .newline
  · exact h

private theorem closeAll (h : s.Mirrors text t) :
    Mirrors text (s.indents.dropLast.foldl (fun s _ => s.mark .dedent) s)
      (t.indents.dropLast.foldl (fun s _ => s.mark .dedent) t) := by
  rw [h.indents]
  exact h.dedents s.indents.dropLast

private theorem finish (h : s.Mirrors text t) : s.finish.Mirrors text t.finish := by
  have hunclosed : Mirrors text { s with
        findings := s.findings ++ (s.brackets.map fun entry =>
          (⟨Code.unclosedBracket, ⟨entry.2, entry.2 + 1⟩, some entry.1.text⟩ : Finding)).toArray }
      { t with
        findings := t.findings ++ (t.brackets.map fun entry =>
          (⟨Code.unclosedBracket, ⟨entry.2, entry.2 + 1⟩, some entry.1.text⟩ : Finding)).toArray } := by
    refine ⟨h.place, h.rest, h.tokens, ?_, h.indents, h.brackets, h.atLineStart⟩
    simp only [Array.toList_append]
    apply List.rel_append h.findings
    simp only [List.forall₂_map_left_iff, List.forall₂_map_right_iff]
    exact h.brackets.imp fun x y hxy => ⟨rfl, by rw [hxy.1], hxy.2⟩
  simp only [Scanner.finish]
  exact hunclosed.endLine.closeAll.mark .endOfFile

end Mirrors
end Scanner

end LiveCheck

namespace LiveCheck

open Text

namespace Scanner

variable {s t : Scanner}

/-! ## Strings in single quotes -/

private def Hides (s : Scanner) : Prop :=
  ∀ x ∈ s.tokens, x.kind = .string ∨ x.kind = .bytes →
    Lexeme.inTripleQuotes x.text.toList = false → Lexeme.Hidden x.text.toList

namespace Hides

private theorem push {x : Token} (h : s.Hides) (htokens : t.tokens = s.tokens.push x)
    (hx : x.kind = .string ∨ x.kind = .bytes → Lexeme.inTripleQuotes x.text.toList = false →
      Lexeme.Hidden x.text.toList) : t.Hides := by
  intro y hy
  rw [htokens] at hy
  rcases Array.mem_push.mp hy with hy | rfl
  · exact h y hy
  · exact hx

private theorem pushOther {x : Token} (h : s.Hides) (htokens : t.tokens = s.tokens.push x)
    (hx : ¬(x.kind = .string ∨ x.kind = .bytes)) : t.Hides :=
  h.push htokens fun hkind => absurd hkind hx

private theorem action (h : s.Hides) (hact : s.Action t) : t.Hides := by
  cases hact with
  | skip | note | turn | enter => exact h
  | newline | indent | dedent | opening | closing => exact h.pushOther rfl (by simp)
  | token kind n _ _ _ hliteral =>
    apply h.push rfl
    intro hkind hsingle
    obtain ⟨marks, hbegins, rfl⟩ := hliteral hkind
    rw [String.toList_ofList] at hsingle ⊢
    exact hbegins.hidden hsingle

private theorem acts (h : s.Hides) (hacts : s.Acts t) : t.Hides := by
  induction hacts with
  | refl => exact h
  | tail _ hact ih => exact ih.action hact

private theorem dedents (h : s.Hides) (indents : List Nat) :
    (indents.foldl (fun s _ => s.mark .dedent) s).Hides := by
  induction indents generalizing s with
  | nil => exact h
  | cons _ indents ih => exact ih (h.pushOther rfl (by simp))

private theorem finish (h : s.Hides) : s.finish.Hides := by
  simp only [Scanner.finish]
  apply pushOther _ rfl (by simp)
  apply dedents
  split
  · exact pushOther (s := s) h rfl (by simp)
  · exact h

end Hides

private theorem hides_scan (text : String) : (start text).run.finish.Hides := by
  have hstart : (start text).Hides := by
    intro x hx
    simp [start] at hx
  exact (hstart.acts (acts_run (rests_start text))).finish

end Scanner

/-! ## Both scans -/

/-- A text with carriage returns and line feeds instead of line feeds. -/
def withCarriageReturns (text : String) : String := String.ofList (crlf text.toList)

/-- The same tokens and the same problems, with the line ends of the other text. -/
structure Scan.Corresponds (text : List Char) (x y : Scan) : Prop where
  tokens : List.Forall₂ (Token.Corresponds text) x.tokens.toList y.tokens.toList
  findings : List.Forall₂ (Finding.Corresponds text) x.findings.toList y.findings.toList

private theorem corresponds_of_plain {text : String} (hcr : '\r' ∉ text.toList)
    (h : ∀ x ∈ (scan text).tokens, ¬x.HidesLineFeed) :
    (scan text).Corresponds text.toList (scan (withCarriageReturns text)) := by
  have hplain : (Scanner.start text).run.Plain := by
    obtain ⟨t, hgrows, hfinish⟩ := (Scanner.start text).run.grows_finish
    obtain ⟨new, hnew, -⟩ := hgrows.tokens
    apply Scanner.Plain.of_grows h
    refine ⟨new ++ [⟨.endOfFile, ⟨t.offset, t.offset⟩, ""⟩], ?_⟩
    rw [hfinish, Scanner.mark, Array.toList_push, hnew, List.append_assoc]
  have hmirrors := ((Scanner.Mirrors.start text).run (Scanner.rests_start text) hcr hplain).finish
  exact ⟨hmirrors.tokens, hmirrors.findings⟩

private theorem exists_mem_of_forall₂ {α β : Type} {R : α → β → Prop} {xs : List α} {ys : List β}
    {x : α}
    (h : List.Forall₂ R xs ys) (hx : x ∈ xs) : ∃ y ∈ ys, R x y := by
  induction h with
  | nil => cases hx
  | cons hxy _ ih =>
    rcases List.mem_cons.mp hx with rfl | hx
    · exact ⟨_, List.mem_cons_self, hxy⟩
    · obtain ⟨y, hy, hxy⟩ := ih hx
      exact ⟨y, List.mem_cons_of_mem _ hy, hxy⟩

private theorem not_corresponds_of_hidesLineFeed {text : String} {x : Token}
    (hx : x ∈ (scan text).tokens)
    (h : x.HidesLineFeed) :
    ¬(scan text).Corresponds text.toList (scan (withCarriageReturns text)) := by
  intro hcorresponds
  obtain ⟨y, hy, hxy⟩ := exists_mem_of_forall₂ hcorresponds.tokens (Array.mem_toList_iff.mpr hx)
  have hkind : y.kind = .string ∨ y.kind = .bytes := by rw [hxy.kind]; exact h.kind
  have hsingle : Lexeme.inTripleQuotes y.text.toList = false := by
    rw [hxy.characters, Lexeme.inTripleQuotes_crlf, h.single]
  have hhidden := Scanner.hides_scan _ y (Array.mem_toList_iff.mp hy) hkind hsingle
  rw [hxy.characters] at hhidden
  exact Lexeme.not_hidden_crlf h.lineFeed hhidden

/-- The scans correspond exactly if no string in single quotes has a line feed. -/
theorem corresponds_iff {text : String} (hcr : '\r' ∉ text.toList) :
    (scan text).Corresponds text.toList (scan (withCarriageReturns text)) ↔
      ∀ x ∈ (scan text).tokens, ¬x.HidesLineFeed := by
  constructor
  · exact fun h x hx hides => not_corresponds_of_hidesLineFeed hx hides h
  · exact corresponds_of_plain hcr

/-- A string in three quotes may run over several lines. -/
theorem corresponds_multiline :
    (scan "if x:\n\ty = '''a\n'''").Corresponds "if x:\n\ty = '''a\n'''".toList
      (scan (withCarriageReturns "if x:\n\ty = '''a\n'''")) := by
  apply (corresponds_iff (by decide)).mpr
  have hstrings : ((scan "if x:\n\ty = '''a\n'''").tokens.toList.filter fun x =>
      x.kind == .string || x.kind == .bytes).map (·.text) = ["'''a\n'''"] := by decide +kernel
  intro x hx h
  have htext : x.text ∈ ["'''a\n'''"] := by
    rw [← hstrings]
    apply List.mem_map_of_mem
    exact List.mem_filter.mpr ⟨Array.mem_toList_iff.mpr hx, by simpa using h.kind⟩
  have hsingle := h.single
  rw [List.mem_singleton.mp htext] at hsingle
  cases hsingle

/-- A backslash takes a line feed along, but of a carriage return and a line feed the first only:
with carriage returns there are two strings without their second quotes. -/
theorem not_corresponds_backslash :
    '\r' ∉ "'\\\n'".toList ∧
      ¬(scan "'\\\n'").Corresponds "'\\\n'".toList (scan (withCarriageReturns "'\\\n'")) := by
  have hfeeds : (scan "'\\\n'").findings.toList.length = 0 := by decide +kernel
  have hreturns : (scan (withCarriageReturns "'\\\n'")).findings.toList.length = 2 := by decide +kernel
  refine ⟨by decide, fun h => ?_⟩
  have hlength := h.findings.length_eq
  rw [hfeeds, hreturns] at hlength
  cases hlength

end LiveCheck
