import LiveCheck.Proofs.LayoutDiscipline
import LiveCheck.Proofs.Coverage
import LiveCheck.Proofs.Parsing.Run

/-!
# What stands between tokens

Tokens of a line have characters, and so has the end of a line unless the text ends with it. So
two tokens of which one ends a line never touch, and tokens of a line touch only their neighbours.
-/

namespace LiveCheck

open Text

namespace Scanner

variable {s t : Scanner} {c : Char} {cs : List Char} {kind : TokenKind} {n : Nat}

private def LineBreaks (s : Scanner) : Prop :=
  ∀ token ∈ s.tokens, token.kind = .newline → token.span.start < token.span.stop

private theorem LineBreaks.congr (h : s.LineBreaks) (htokens : t.tokens = s.tokens) :
    t.LineBreaks := by
  rw [LineBreaks, htokens]
  exact h

private theorem LineBreaks.push {token : Token} (h : s.LineBreaks)
    (htokens : t.tokens = s.tokens.push token)
    (htoken : token.kind = .newline → token.span.start < token.span.stop) : t.LineBreaks := by
  intro other hother
  rw [htokens] at hother
  rcases Array.mem_push.mp hother with hother | rfl
  · exact h other hother
  · exact htoken

private theorem TokenStep.tokens (h : s.TokenStep t) : t.tokens = s.tokens ∨
    ∃ kind text, t.tokens = s.tokens.push ⟨kind, ⟨s.offset, t.offset⟩, text⟩ := by
  cases h with
  | skip n => exact .inl rfl
  | lineEnd =>
    simp only [takeLineEnd]
    repeat' split
    · exact .inr ⟨_, _, rfl⟩
    · exact .inl rfl
    · exact .inl rfl
  | number => exact .inr ⟨_, _, rfl⟩
  | string marks =>
    simp only [takeString]
    split <;> exact .inr ⟨_, _, rfl⟩
  | name =>
    simp only [takeName]
    split <;> exact .inr ⟨_, _, rfl⟩
  | unknown => exact .inr ⟨_, _, rfl⟩
  | symbol =>
    simp only [takeSymbol]
    split
    · repeat' split
      all_goals exact .inr ⟨_, _, rfl⟩
    · exact .inr ⟨_, _, rfl⟩

private theorem lineBreaks_takeToken (h : s.LineBreaks) (hs : s.rest = c :: cs) :
    (s.takeToken c).LineBreaks := by
  have hlt := (s.skips_takeToken c).offset_lt (takeToken_lt hs)
  rcases (s.tokenStep c).tokens with htokens | ⟨kind, text, htokens⟩
  · exact h.congr htokens
  · exact h.push htokens fun _ => hlt

private theorem lineBreaks_closeBlocks (here : Nat) (indents : List Nat) (h : s.LineBreaks) :
    (closeBlocks here indents s).LineBreaks := by
  fun_induction closeBlocks here indents s with
  | case1 top below rest s _ ih => exact ih (h.push rfl fun hk => by cases hk)
  | case2 | case3 => exact h.congr rfl

private theorem lineBreaks_layOut (h : s.LineBreaks) (margin here : Nat) :
    (s.layOut margin here).LineBreaks := by
  have hskip : (s.skip margin).LineBreaks := h.congr rfl
  simp only [layOut]
  repeat' split
  · exact h.push rfl fun hk => by cases hk
  · exact lineBreaks_closeBlocks _ _ hskip
  · exact (lineBreaks_closeBlocks _ _ hskip).congr rfl
  · exact hskip

private theorem lineBreaks_takeLineStart (h : s.LineBreaks) : s.takeLineStart.LineBreaks := by
  simp only [takeLineStart]
  split
  · exact h.congr rfl
  · rename_i d behind hrest
    repeat' split
    · exact h.congr rfl
    · exact h.congr rfl
    · have hlaid := lineBreaks_layOut h (Lexeme.run isMargin s.rest)
        ((s.rest.take (Lexeme.run isMargin s.rest)).foldl column 0)
      exact lineBreaks_takeToken (hlaid.congr rfl) ((s.rest_layOut _ _).trans hrest)

private theorem lineBreaks_run (h : s.LineBreaks) : s.run.LineBreaks := by
  fun_induction run s with
  | case1 s _ => exact h
  | case2 s c cs hs ih =>
    refine ih ?_
    rw [advance]
    split
    · exact lineBreaks_takeLineStart h
    · exact lineBreaks_takeToken h hs

private theorem newline_finish (h : s.LineBreaks) {token : Token} (htoken : token ∈ s.finish.tokens)
    (hk : token.kind = .newline) :
    token.span.start < token.span.stop ∨ token.span.start = s.offset := by
  have hdedents (indents : List Nat) (r : Scanner)
      (hmem : token ∈ (indents.foldl (fun s _ => s.mark .dedent) r).tokens) : token ∈ r.tokens := by
    induction indents generalizing r with
    | nil => exact hmem
    | cons _ indents ih =>
      rcases Array.mem_push.mp (ih (r.mark .dedent) hmem) with hmem | rfl
      · exact hmem
      · cases hk
  simp only [finish] at htoken
  rcases Array.mem_push.mp htoken with htoken | rfl
  · have hmem := hdedents _ _ htoken
    split at hmem
    · rcases Array.mem_push.mp hmem with hmem | rfl
      · exact .inl (h token hmem hk)
      · exact .inr rfl
    · exact .inl (h token hmem hk)
  · cases hk

end Scanner

/-- How far the tokens of a text are apart. -/
structure Token.Spaced (text : List Char) (tokens : Array Token) : Prop where
  ended : ParseState.Ended tokens
  /-- A token stands in the text. -/
  lies : ∀ token ∈ tokens, token.span.Lies text
  /-- No token begins before the one before it ends. -/
  apart : ∀ {i x y}, tokens[i]? = some x → tokens[i + 1]? = some y → x.span.stop ≤ y.span.start
  /-- Tokens of a line have characters. -/
  size : ∀ token ∈ tokens, token.kind.endsLine = false → token.span.start < token.span.stop
  /-- Line ends have characters, except at the end of the text. -/
  newline : ∀ token ∈ tokens, token.kind = .newline →
    token.span.start < token.span.stop ∨ token.span.start = byteLength text
  /-- Blocks begin and end behind layout. -/
  block : ∀ {i x y}, tokens[i]? = some x → tokens[i + 1]? = some y →
    y.kind = .indent ∨ y.kind = .dedent → x.kind.isLayout = true
  /-- The end of the text stands there. -/
  last : ∀ token ∈ tokens, token.kind = .endOfFile → token.span.start = byteLength text

theorem spaced_scan (text : String) : Token.Spaced text.toList (scan text).tokens := by
  have hcovers := Scanner.covers_scan text
  have hordered := ordered_scan text
  obtain ⟨hlayout, -, -⟩ := (Scanner.Disciplined.run text).finish
  have hbytes : byteLength text.toList = text.utf8ByteSize := by
    rw [← utf8ByteSize_ofList, String.ofList_toList]
  have hoffset : (Scanner.start text).run.offset = byteLength text.toList := by
    rw [Scanner.CompleteLines.offset, hbytes]
  have hended : ParseState.Ended (scan text).tokens := by
    obtain ⟨before, stop, hlast, -⟩ := hordered.last
    rw [ParseState.Ended, ← Array.getLast?_toList, hlast, List.getLast?_concat]
    rfl
  refine ⟨hended, fun token htoken => ?_, fun {i x y} hx hy => ?_, hordered.size, fun token htoken hk => ?_,
    fun {i x y} hx hy hk => ?_, fun token htoken hk => ?_⟩
  · exact Option.isSome_of_mem (hcovers.tokens token htoken)
  · rw [← Array.getElem?_toList] at hx hy
    have hlt := (List.getElem?_eq_some_iff.mp hy).1
    have hpairwise := List.pairwise_iff_getElem.mp hordered.ordered i (i + 1) (by omega) hlt (by omega)
    rw [(List.getElem?_eq_some_iff.mp hx).2, (List.getElem?_eq_some_iff.mp hy).2] at hpairwise
    exact hpairwise
  · have hbreaks : (Scanner.start text).run.LineBreaks :=
      Scanner.lineBreaks_run fun token htoken => by simp [Scanner.start] at htoken
    rw [← hoffset]
    exact Scanner.newline_finish hbreaks htoken hk
  · rw [← Array.getElem?_toList] at hx hy
    have hprefix : (scan text).tokens.toList.take (i + 1) ++ [y] <+: (scan text).tokens.toList := by
      rw [← Option.toList_some (a := y), ← hy, ← List.take_add_one]
      exact List.take_prefix _ _
    refine hlayout.block _ y hprefix hk x ?_
    rw [List.take_add_one, hx, Option.toList_some, List.getLast?_concat]
  · have hlast : (scan text).tokens.back? = _ := Scanner.back?_finish (Scanner.start text).run
    obtain ⟨before, stop, htokens, hbefore⟩ := hordered.last
    rw [← Array.getLast?_toList, htokens, List.getLast?_concat] at hlast
    rw [← Array.mem_toList_iff, htokens] at htoken
    rcases List.mem_append.mp htoken with htoken | htoken
    · exact absurd hk (hbefore token htoken)
    · rw [List.mem_singleton.mp htoken, Option.some.inj hlast, ← hoffset]

end LiveCheck
