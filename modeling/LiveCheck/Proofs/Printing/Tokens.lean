import Mathlib.Data.List.Find
import LiveCheck.Proofs.Printing.Expr

/-!
# Taking tokens

What the scanner takes where a word, a number, a string or a symbol begins and nothing behind it goes
on with it.
-/

namespace LiveCheck

/-! ## Characters of the ASCII range -/

namespace Lexeme

private theorem startsName_ascii (n : Fin 128) : startsName (Char.ofNat n) =
    (Char.ofNat n == '_' || (Char.ofNat n).isAlpha) := by
  decide +revert +kernel

private theorem mayName_of_startsName {c : Char} (h : startsName c = true) :
    (c == '_' || c.isAlpha || 127 < c.toNat) = true := by
  by_cases hlt : c.toNat < 128
  · have heq := startsName_ascii ⟨c.toNat, hlt⟩
    simp only [Char.ofNat_toNat] at heq
    rw [← heq, h, Bool.true_or]
  · rw [decide_eq_true (by omega), Bool.or_true]

/-- What holds of the digits holds of every character that is one. -/
theorem forall_isDigit {P : Char → Prop} (h : ∀ n : Fin 10, P (Char.ofNat (48 + n))) {c : Char}
    (hc : isDigit c = true) : P c := by
  simp only [isDigit, Bool.and_eq_true, decide_eq_true_eq] at hc
  have hlow : 48 ≤ c.toNat := hc.1
  have hhigh : c.toNat ≤ 57 := hc.2
  have heq := h ⟨c.toNat - 48, by omega⟩
  rwa [Nat.add_sub_cancel' hlow, Char.ofNat_toNat] at heq

private theorem continuesName_of_isDigit {c : Char} (h : isDigit c = true) :
    continuesName c = true :=
  forall_isDigit (P := fun c => continuesName c = true) (by decide +kernel) h

end Lexeme

namespace Scanner

open Lexeme

/-- The characters that begin something other than a name, a number, a string or a symbol. -/
def isSpecial (c : Char) : Bool := isMargin c || c == '#' || isLineEnd c || c == '\\'

theorem mem_of_isSpecial {c : Char} (h : isSpecial c = true) :
    c ∈ [' ', '\t', '\x0c', '#', '\n', '\r', '\\'] := by
  simpa [isSpecial, isMargin, isLineEnd, or_assoc] using h

theorem isSpecial_of_startsName {c : Char} (h : startsName c = true) : isSpecial c = false := by
  refine Bool.eq_false_iff.mpr fun hc => ?_
  have hnone : [' ', '\t', '\x0c', '#', '\n', '\r', '\\'].all (!startsName ·) = true := by
    decide +kernel
  have hnot := List.all_eq_true.mp hnone c (mem_of_isSpecial hc)
  rw [h] at hnot
  cases hnot

private theorem isDigit_of_startsName {c : Char} (h : startsName c = true) :
    (isDigit c || c == '.') = false := by
  refine Bool.eq_false_iff.mpr fun hc => absurd h ?_
  rw [Bool.or_eq_true, beq_iff_eq] at hc
  rcases hc with hc | rfl
  · exact forall_isDigit (P := fun c => ¬startsName c = true) (by decide +kernel) hc
  · decide +kernel

private theorem isQuote_of_continuesName {c : Char} (h : continuesName c = true) :
    isQuote c = false := by
  refine Bool.eq_false_iff.mpr fun hc => absurd h ?_
  rcases isQuote_iff.mp hc with rfl | rfl <;> decide +kernel

theorem continuesName_of_startsName {c : Char} (h : startsName c = true) :
    continuesName c = true := by
  simp only [startsName, continuesName, Text.isAlphanumeric, Bool.or_eq_true] at h ⊢
  exact h.imp_right .inl

/-- The scanner takes a name, a keyword or a symbol where nothing else begins. -/
theorem takeToken_eq {s : Scanner} {c : Char} (hspecial : isSpecial c = false)
    (hdigit : (isDigit c || (c == '.' && startsWithDigit (s.rest.drop 1))) = false)
    (hquote : isQuote c = false) :
    s.takeToken c =
      if c == '_' || c.isAlpha || 127 < c.toNat then
        match stringMarks? s.rest with
        | some marks => s.takeString marks
        | none => if startsName c then s.takeName else s.takeUnknown
      else s.takeSymbol := by
  simp only [isSpecial, Bool.or_eq_false_iff] at hspecial
  obtain ⟨⟨⟨hmargin, hcomment⟩, hline⟩, hback⟩ := hspecial
  simp only [takeToken, hmargin, hcomment, hline, hback, hdigit, hquote, Bool.false_and]
  rfl

/-! ## Names and keywords -/

/-- The row of characters is a word: it begins as a name does and goes on so. -/
structure IsWord (c : Char) (cs : List Char) : Prop where
  starts : startsName c = true
  continues : ∀ d ∈ cs, continuesName d = true

/-- Nothing at the beginning of the text goes on with a word. -/
def EndsWord (cs : List Char) : Prop :=
  ∀ d ∈ cs.head?, continuesName d = false ∧ isQuote d = false

variable {s : Scanner} {c : Char} {cs ds : List Char}

theorem IsWord.all (h : IsWord c cs) : ∀ d ∈ c :: cs, continuesName d = true := by
  intro d hd
  rcases List.mem_cons.mp hd with rfl | hd
  · exact continuesName_of_startsName h.starts
  · exact h.continues d hd

private theorem marks_le (cs : List Char) : marks cs ≤ 2 := by
  unfold marks
  repeat' split
  all_goals omega

private theorem continuesName_of_marks {d : Char} (h : 2 ≤ marks (c :: d :: ds)) :
    continuesName d = true := by
  have hletters : ['r', 'R', 'b', 'B', 'f', 'F'].all continuesName = true := by decide +kernel
  apply List.all_eq_true.mp hletters
  simp only [marks] at h
  split at h
  case isTrue hmarks =>
    simp only [isRawMark, isBytesMark, isFormatMark, isLetter, Bool.or_eq_true, Bool.and_eq_true,
      beq_iff_eq] at hmarks
    simp only [List.mem_cons, List.not_mem_nil, or_false]
    grind
  case isFalse =>
    split at h <;> omega

private theorem stringMarks?_word (hw : IsWord c cs) (hds : EndsWord ds) :
    stringMarks? (c :: cs ++ ds) = none := by
  -- the letters that could be marks belong to the word, so no quote stands behind them
  have hle : marks (c :: cs ++ ds) ≤ (c :: cs).length := by
    have htwo := marks_le (c :: cs ++ ds)
    cases cs with
    | cons d cs =>
      simp only [List.length_cons]
      omega
    | nil =>
      cases ds with
      | nil =>
        show (if _ then 1 else 0) ≤ 1
        split <;> decide
      | cons d ds =>
        refine Nat.le_of_not_lt fun hlt => ?_
        have := continuesName_of_marks hlt
        rw [(hds d rfl).1] at this
        cases this
  unfold stringMarks?
  simp only
  split
  case h_2 => rfl
  case h_1 d rest hdrop =>
    have hquote : isQuote d = false := by
      rw [List.drop_append_of_le_length hle] at hdrop
      cases hword : (c :: cs).drop (marks (c :: cs ++ ds)) with
      | nil =>
        rw [hword] at hdrop
        exact (hds d (by rw [← List.nil_append ds, hdrop]; rfl)).2
      | cons e es =>
        rw [hword, List.cons_append, List.cons.injEq] at hdrop
        have hmem : d ∈ (c :: cs).drop (marks (c :: cs ++ ds)) := by
          rw [hword, hdrop.1]
          exact .head es
        exact isQuote_of_continuesName (hw.all d (List.mem_of_mem_drop hmem))
    rw [hquote]
    rfl

theorem run_append {p : Char → Bool} (hcs : ∀ d ∈ cs, p d = true) (hds : ∀ d ∈ ds.head?, p d = false) :
    Lexeme.run p (cs ++ ds) = cs.length := by
  unfold Lexeme.run
  rw [List.takeWhile_append_of_pos hcs, List.length_append]
  cases ds with
  | nil => rfl
  | cons d ds => rw [List.takeWhile_cons, hds d rfl]; rfl

/-- The kind of the token that a word is. -/
def wordKind (word : String) : TokenKind :=
  match Keyword.ofText? word with
  | some word => word
  | none => .name

theorem takeToken_word (hw : IsWord c cs) (hds : EndsWord ds) (hs : s.rest = c :: cs ++ ds) :
    s.takeToken c = s.take (wordKind (String.ofList (c :: cs))) (c :: cs).length := by
  have hdigit := isDigit_of_startsName hw.starts
  rw [Bool.or_eq_false_iff] at hdigit
  rw [takeToken_eq (isSpecial_of_startsName hw.starts)
    (by rw [hdigit.1, hdigit.2]; rfl)
    (isQuote_of_continuesName (continuesName_of_startsName hw.starts)),
    if_pos (mayName_of_startsName hw.starts), hs, stringMarks?_word hw hds]
  have hrun : Lexeme.run continuesName (cs ++ ds) = cs.length :=
    run_append hw.continues fun d hd => (hds d hd).1
  have htake : (c :: (cs ++ ds)).take (1 + cs.length) = c :: cs := by
    rw [Nat.add_comm]
    simp
  simp only [hw.starts, if_true, takeName, hs, List.cons_append, List.drop_one, List.tail_cons,
    hrun, htake, wordKind]
  rw [Nat.add_comm]
  cases Keyword.ofText? (String.ofList (c :: cs)) <;> rfl

/-! ## Numbers -/

/-- Nothing at the beginning of the text goes on with a whole number. -/
def EndsNumber (cs : List Char) : Prop :=
  ∀ d ∈ cs.head?, continuesName d = false ∧ d ≠ '.'

private theorem hasBase_of_second {d : Char} (h : d ∉ ['x', 'X', 'o', 'O', 'b', 'B']) :
    hasBase (c :: d :: ds) = false := by
  unfold hasBase
  split
  case h_1 heq =>
    cases heq
    simpa [and_assoc] using h
  case h_2 => rfl

private theorem ne_of_continuesName {d x : Char} (hd : continuesName d = false)
    (hx : continuesName x = true) : d ≠ x := by
  rintro rfl
  rw [hd] at hx
  cases hx

private theorem hasBase_digits (hcs : ∀ d ∈ c :: cs, isDigit d = true) (hds : EndsNumber ds) :
    hasBase (c :: cs ++ ds) = false := by
  -- the second character is a digit or stands behind the number
  cases cs with
  | cons d cs =>
    refine hasBase_of_second ?_
    have hd := hcs d (.tail _ (.head _))
    exact forall_isDigit (P := fun d => d ∉ ['x', 'X', 'o', 'O', 'b', 'B']) (by decide) hd
  | nil =>
    cases ds with
    | nil =>
      show hasBase [c] = false
      unfold hasBase
      split
      · rename_i heq
        cases heq
      · rfl
    | cons d ds =>
      have hletters : ['x', 'X', 'o', 'O', 'b', 'B'].all continuesName = true := by decide +kernel
      refine hasBase_of_second fun hd => ?_
      exact ne_of_continuesName (hds d rfl).1 (List.all_eq_true.mp hletters d hd) rfl

private theorem fraction_of_ends (hds : EndsNumber ds) : fraction ds = 0 := by
  unfold fraction
  split
  · exact absurd rfl (hds _ rfl).2
  · rfl

private theorem exponent_of_ends (hds : EndsNumber ds) : exponent ds = 0 := by
  unfold exponent
  split
  · rename_i e d cs
    have he := (hds e rfl).1
    have hlower : (e == 'e') = false :=
      beq_eq_false_iff_ne.mpr (ne_of_continuesName he (by decide +kernel))
    have hupper : (e == 'E') = false :=
      beq_eq_false_iff_ne.mpr (ne_of_continuesName he (by decide +kernel))
    simp [hlower, hupper]
  · rfl

private theorem hasImaginaryMark_of_ends (hds : EndsNumber ds) : hasImaginaryMark ds = false := by
  cases ds with
  | nil => rfl
  | cons d ds =>
    have hd := (hds d rfl).1
    rw [hasImaginaryMark, Bool.or_eq_false_iff]
    exact ⟨beq_eq_false_iff_ne.mpr (ne_of_continuesName hd (by decide +kernel)),
      beq_eq_false_iff_ne.mpr (ne_of_continuesName hd (by decide +kernel))⟩

private theorem number_digits (hcs : ∀ d ∈ c :: cs, isDigit d = true) (hds : EndsNumber ds) :
    number (c :: cs ++ ds) = (.int, (c :: cs).length) := by
  have hrun : Lexeme.run inDigits (c :: cs ++ ds) = (c :: cs).length := by
    refine run_append (fun d hd => ?_) fun d hd => ?_
    · rw [inDigits, hcs d hd, Bool.true_or]
    · have hd := (hds d hd).1
      rw [inDigits, Bool.or_eq_false_iff]
      refine ⟨Bool.eq_false_iff.mpr fun hdigit => ?_,
        beq_eq_false_iff_ne.mpr (ne_of_continuesName hd (by decide +kernel))⟩
      rw [continuesName_of_isDigit hdigit] at hd
      cases hd
  rw [number, hasBase_digits hcs hds, if_neg Bool.false_ne_true, decimal, hrun, List.drop_left]
  simp only [fraction_of_ends hds, Nat.add_zero, List.drop_left, exponent_of_ends hds,
    hasImaginaryMark_of_ends hds]
  rfl

theorem takeToken_digits (hcs : ∀ d ∈ c :: cs, isDigit d = true) (hds : EndsNumber ds)
    (hs : s.rest = c :: cs ++ ds) : s.takeToken c = s.take .int (c :: cs).length := by
  have hdigit := hcs c (.head cs)
  have hspecial : isSpecial c = false :=
    forall_isDigit (P := fun c => isSpecial c = false) (by decide) hdigit
  simp only [isSpecial, Bool.or_eq_false_iff] at hspecial
  obtain ⟨⟨⟨hmargin, hcomment⟩, hline⟩, hback⟩ := hspecial
  simp only [takeToken, hmargin, hcomment, hline, hback, hdigit, hs, number_digits hcs hds,
    Bool.false_and, Bool.true_or, if_true]
  rfl

/-! ## Strings -/

theorem takeToken_quoted {w : QuotedText} (hds : ∀ d ∈ ds.head?, d ≠ w.quote)
    (hs : s.rest = w.chars ++ ds) : s.takeToken w.quote = s.take .string w.chars.length := by
  have hstring : s.takeToken w.quote = s.takeString 0 := by
    rcases isQuote_iff.mp w.isQuote with hquote | hquote <;> rw [hquote] <;> rfl
  rw [hstring]
  simp only [takeString, List.drop_zero, hs, quoted_chars w hds]
  rw [Nat.zero_add]
  rfl

/-! ## Symbols -/

private theorem isPrefixOf_append {entry : List Char}
    (hds : ∀ d ∈ ds.head?, (cs ++ [d]).isPrefixOf entry = false) :
    entry.isPrefixOf (cs ++ ds) = entry.isPrefixOf cs := by
  rw [Bool.eq_iff_iff, List.isPrefixOf_iff_prefix, List.isPrefixOf_iff_prefix]
  refine ⟨fun h => ?_, fun h => h.trans (List.prefix_append cs ds)⟩
  rcases List.prefix_or_prefix_of_prefix h (List.prefix_append cs ds) with hprefix | ⟨others, rfl⟩
  · exact hprefix
  · cases others with
    | nil => exact ⟨[], by simp⟩
    | cons d others =>
      obtain ⟨rest, rfl⟩ := (List.prefix_append_right_inj cs).mp h
      have hgoes : (cs ++ [d]).isPrefixOf (cs ++ d :: others) = true :=
        List.isPrefixOf_iff_prefix.mpr ⟨others, by simp⟩
      rw [hds d rfl] at hgoes
      cases hgoes

theorem leading?_symbol (mark : Symbol) :
    Symbol.leading? mark.text.toList = some (mark, mark.text.toList.length) := by
  cases mark <;> decide

/-- The longest symbol that fits is the one that is written. -/
theorem leading?_append {mark : Symbol} (hds : ∀ d ∈ ds.head?,
      Symbol.spellings.any (fun entry => (mark.text.toList ++ [d]).isPrefixOf entry.1) = false) :
    Symbol.leading? (mark.text.toList ++ ds) = some (mark, mark.text.toList.length) := by
  have hfind : Symbol.spellings.find? (fun entry => entry.1.isPrefixOf (mark.text.toList ++ ds)) =
      Symbol.spellings.find? (fun entry => entry.1.isPrefixOf mark.text.toList) := by
    refine List.find?_congr fun entry hentry => isPrefixOf_append fun d hd => ?_
    have hnone := hds d hd
    rw [List.any_eq_false] at hnone
    exact Bool.eq_false_iff.mpr (hnone entry hentry)
  rw [Symbol.leading?, hfind]
  exact leading?_symbol mark

end Scanner
end LiveCheck
