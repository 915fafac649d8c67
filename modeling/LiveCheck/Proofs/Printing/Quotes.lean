import LiveCheck.Proofs.Scanning.Lexemes

/-!
# Texts between quotes

A text that is written between quotes of either kind is one string to the scanner, and its value is
the text.
-/

namespace LiveCheck

/-- How a character is written between two quotes. -/
def StringLiteral.escapedIn (quote c : Char) : List Char :=
  if c = '\\' then ['\\', '\\']
  else if c = quote then ['\\', quote]
  else if c = '\n' then ['\\', 'n']
  else if c = '\r' then ['\\', 'r']
  else [c]

/-- A text that is to be written between quotes. -/
structure QuotedText where
  /-- The quote on either side. -/
  quote : Char
  /-- It is a single or a double one. -/
  isQuote : Lexeme.isQuote quote = true
  /-- What stands between them. -/
  value : String

/-- The characters of the text with its quotes. -/
def QuotedText.chars (w : QuotedText) : List Char :=
  w.quote :: (w.value.toList.flatMap (StringLiteral.escapedIn w.quote) ++ [w.quote])

/-- The text with its quotes. -/
def QuotedText.text (w : QuotedText) : String := String.ofList w.chars

@[simp] theorem QuotedText.toList_text (w : QuotedText) : w.text.toList = w.chars :=
  String.toList_ofList

namespace Lexeme

theorem ne_of_isQuote {quote d : Char} (hquote : isQuote quote = true) (hd : isQuote d = false) :
    d ≠ quote := by
  rintro rfl
  rw [hd] at hquote
  cases hquote

end Lexeme

namespace StringLiteral

open Lexeme

variable {quote c : Char} {cs ds : List Char}

private theorem escape_of_isQuote (h : isQuote quote = true) : escape quote = [quote] := by
  rcases isQuote_iff.mp h with rfl | rfl <;> rfl

private theorem escapedIn_cases (hquote : isQuote quote = true) (c : Char) :
    (c ≠ '\\' ∧ c ≠ quote ∧ c ≠ '\n' ∧ c ≠ '\r' ∧ escapedIn quote c = [c]) ∨
      ∃ d, escapedIn quote c = ['\\', d] ∧ escape d = [c] := by
  unfold escapedIn
  split
  case isTrue h => exact .inr ⟨'\\', rfl, by rw [h]; rfl⟩
  split
  case isTrue h => exact .inr ⟨quote, rfl, by rw [h, escape_of_isQuote hquote]⟩
  split
  case isTrue h => exact .inr ⟨'n', rfl, by rw [h]; rfl⟩
  split
  case isTrue h => exact .inr ⟨'r', rfl, by rw [h]; rfl⟩
  case isFalse hback hne hfeed hreturn => exact .inl ⟨hback, hne, hfeed, hreturn, rfl⟩

private theorem unescape_of_ne (hc : c ≠ '\\') (cs : List Char) :
    unescape (c :: cs) = c :: unescape cs := by
  cases cs with
  | nil => simp [unescape, hc]
  | cons d ds => simp [unescape, hc]

private theorem unescape_escapedIn (hquote : isQuote quote = true) (cs : List Char) :
    unescape (cs.flatMap (escapedIn quote)) = cs := by
  induction cs with
  | nil => rfl
  | cons c cs ih =>
    rw [List.flatMap_cons]
    obtain ⟨hc, -, -, -, hesc⟩ | ⟨d, hesc, hd⟩ := escapedIn_cases hquote c
    · rw [hesc, List.singleton_append, unescape_of_ne hc, ih]
    · rw [hesc]
      show escape d ++ unescape (cs.flatMap (escapedIn quote)) = c :: cs
      rw [hd, ih]
      rfl

private theorem head_escapedIn (hquote : isQuote quote = true)
    (h : cs.flatMap (escapedIn quote) = c :: ds) : c ≠ quote := by
  cases cs with
  | nil => cases h
  | cons d cs =>
    rw [List.flatMap_cons] at h
    obtain ⟨-, hd, -, -, hesc⟩ | ⟨e, hesc, -⟩ := escapedIn_cases hquote d
    · rw [hesc] at h
      cases h
      exact hd
    · rw [hesc] at h
      cases h
      exact ne_of_isQuote hquote rfl

private theorem quoteSize_of_ne (h : ∀ ds, cs ≠ quote :: quote :: ds) :
    quoteSize (quote :: cs) = 1 := by
  refine if_neg fun htriple => ?_
  rw [Bool.or_eq_true, List.isPrefixOf_iff_prefix, List.isPrefixOf_iff_prefix] at htriple
  obtain ⟨ds, hds⟩ | ⟨ds, hds⟩ := htriple
  all_goals
    cases hds
    exact h ds rfl

private theorem body_chars (w : QuotedText) :
    body w.chars = w.value.toList.flatMap (escapedIn w.quote) := by
  have hsize : quoteSize w.chars = 1 := by
    refine quoteSize_of_ne fun ds heq => ?_
    cases h : w.value.toList.flatMap (escapedIn w.quote) with
    | nil =>
      rw [h] at heq
      cases heq
    | cons c cs =>
      rw [h] at heq
      exact head_escapedIn w.isQuote h (List.cons.inj heq).1
  unfold body
  rw [hsize]
  simp [QuotedText.chars]

/-- The value of a text between quotes is the text. -/
theorem decode_text (w : QuotedText) : decode w.text = w.value := by
  have hmarks : w.chars.takeWhile (fun c => !Lexeme.isQuote c) = [] :=
    List.takeWhile_cons_of_neg (by simp [w.isQuote])
  simp [decode, hmarks, body_chars, unescape_escapedIn w.isQuote]

end StringLiteral

namespace Lexeme

open StringLiteral

variable {quote c : Char} {ds : List Char}

private theorem singleBody_escapedIn (hquote : isQuote quote = true) (value : List Char) :
    singleBody quote (value.flatMap (escapedIn quote) ++ quote :: ds) =
      ((value.flatMap (escapedIn quote)).length + 1, true) := by
  have hback : '\\' ≠ quote := ne_of_isQuote hquote rfl
  induction value with
  | nil =>
    rw [List.flatMap_nil, List.nil_append, singleBody_cons hback.symm,
      if_pos (beq_self_eq_true quote)]
    rfl
  | cons c value ih =>
    rw [List.flatMap_cons, List.append_assoc]
    obtain ⟨hc, hne, hfeed, hreturn, hesc⟩ | ⟨d, hesc, -⟩ := escapedIn_cases hquote c
    · rw [hesc, List.singleton_append, singleBody_cons hc, if_neg (by simpa using hne),
        if_neg (by simp [hfeed, hreturn]), ih]
      rfl
    · rw [hesc]
      show ((singleBody quote (value.flatMap (escapedIn quote) ++ quote :: ds)).1 + 2,
        (singleBody quote (value.flatMap (escapedIn quote) ++ quote :: ds)).2) = _
      rw [ih]
      rfl

/-- What stands between quotes is one string, if no other quote follows. -/
theorem quoted_chars (w : QuotedText) (hds : ∀ d ∈ ds.head?, d ≠ w.quote) :
    quoted (w.chars ++ ds) = (w.chars.length, true) := by
  have hprefix : [w.quote, w.quote].isPrefixOf
      (w.value.toList.flatMap (escapedIn w.quote) ++ w.quote :: ds) = false := by
    cases h : w.value.toList.flatMap (escapedIn w.quote) with
    | nil =>
      cases ds with
      | nil => simp [List.isPrefixOf]
      | cons d ds => simp [List.isPrefixOf, (hds d rfl).symm]
    | cons c cs => simp [List.isPrefixOf, (head_escapedIn w.isQuote h).symm]
  rw [QuotedText.chars, List.cons_append, List.append_assoc, List.singleton_append,
    quoted_single hprefix, singleBody_escapedIn w.isQuote]
  simp

end Lexeme
end LiveCheck
