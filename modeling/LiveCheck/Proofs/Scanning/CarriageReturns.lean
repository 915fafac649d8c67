import LiveCheck.Proofs.Scanning.Actions

/-!
# Texts with carriage returns

When every line feed of a text becomes a carriage return and a line feed, a lexeme that lies within
its line stays as it is, and one that runs over line ends becomes longer, but ends at the same place
of the text. The exception is a string in single quotes in which a backslash hides a line feed: then
the backslash hides the carriage return only.
-/

/-!
## Lexemes end where their line ends

Names, numbers, symbols and the marks before a string lie within one line, so it does not matter to
them how the line ends and what stands behind it.
-/

namespace LiveCheck

/-- What may stand behind the characters of a line: nothing, or a line end and anything. -/
def EndsLine (cs : List Char) : Prop := ∀ c, cs.head? = some c → Scanner.isLineEnd c = true

private theorem endsLine_cons {c : Char} {cs : List Char} (h : Scanner.isLineEnd c = true) :
    EndsLine (c :: cs) := by
  intro d hd
  cases hd
  exact h

namespace Lexeme

variable {c d : Char} {line behind : List Char} {p : Char → Bool} {n : Nat}

private theorem eq_nil_or_cons (h : EndsLine behind) :
    behind = [] ∨ ∃ c cs, behind = c :: cs ∧ (c = '\n' ∨ c = '\r') := by
  cases behind with
  | nil => exact .inl rfl
  | cons c cs =>
    have hc := h c rfl
    rw [Scanner.isLineEnd, Bool.or_eq_true, beq_iff_eq, beq_iff_eq] at hc
    exact .inr ⟨c, cs, rfl, hc⟩

theorem run_within (h : EndsLine behind) (hp : ∀ c, Scanner.isLineEnd c = true → p c = false) :
    run p (line ++ behind) = run p line := by
  induction line with
  | nil =>
    cases behind with
    | nil => rfl
    | cons c cs => exact run_cons_of_neg (hp c (h c rfl))
  | cons c line ih =>
    cases hc : p c with
    | false => rw [List.cons_append, run_cons_of_neg hc, run_cons_of_neg hc]
    | true => rw [List.cons_append, run_cons_of_pos hc, run_cons_of_pos hc, ih]

theorem isLineEnd_cases (hc : Scanner.isLineEnd c = true) : c = '\n' ∨ c = '\r' := by
  simpa [Scanner.isLineEnd] using hc

private theorem inDigits_lineEnd (hc : Scanner.isLineEnd c = true) : inDigits c = false := by
  rcases isLineEnd_cases hc with rfl | rfl <;> rfl

private theorem inHexDigits_lineEnd (hc : Scanner.isLineEnd c = true) : inHexDigits c = false := by
  rcases isLineEnd_cases hc with rfl | rfl <;> rfl

section

variable (h : EndsLine behind)
include h

private theorem fraction_within : fraction (line ++ behind) = fraction line := by
  match line with
  | [] =>
    rcases eq_nil_or_cons h with rfl | ⟨c, cs, rfl, rfl | rfl⟩
    all_goals rfl
  | c :: line =>
    by_cases hc : c = '.'
    · subst hc
      simp only [List.cons_append, fraction, run_within h fun _ => inDigits_lineEnd]
    · simp [fraction, hc]

private theorem exponent_within : exponent (line ++ behind) = exponent line := by
  match line with
  | [] =>
    rcases eq_nil_or_cons h with rfl | ⟨c, cs, rfl, rfl | rfl⟩
    · rfl
    all_goals exact exponent_of_ne rfl
  | e :: line =>
    cases he : e == 'e' || e == 'E' with
    | false => rw [List.cons_append, exponent_of_ne he, exponent_of_ne he]
    | true =>
      match line with
      | [] =>
        rcases eq_nil_or_cons h with rfl | ⟨c, cs, rfl, rfl | rfl⟩
        · rfl
        all_goals simp [exponent, isDigit]
      | [d] =>
        rcases eq_nil_or_cons h with rfl | ⟨c, cs, rfl, rfl | rfl⟩
        · rfl
        all_goals simp [exponent, isDigit, run, inDigits]
      | d :: x :: line =>
        have hrun : run inDigits (x :: line ++ behind) = run inDigits (x :: line) :=
          run_within h fun _ => inDigits_lineEnd
        simp only [List.cons_append, exponent] at hrun ⊢
        rw [hrun]

private theorem hasImaginaryMark_within :
    hasImaginaryMark (line ++ behind) = hasImaginaryMark line := by
  cases line with
  | nil => rcases eq_nil_or_cons h with rfl | ⟨c, cs, rfl, rfl | rfl⟩ <;> rfl
  | cons c line => rfl

private theorem decimal_within : decimal (line ++ behind) = decimal line := by
  obtain ⟨-, hwhole⟩ := run_append (p := inDigits) (.inl rfl : Closed line []) rfl
  obtain ⟨-, hfraction⟩ := fraction_append hwhole.closed
  obtain ⟨-, hexponent⟩ := exponent_append (hwhole.add hfraction).closed
  have hsize := ((hwhole.add hfraction).add hexponent).le
  simp only [decimal, run_within h fun _ => inDigits_lineEnd,
    List.drop_append_of_le_length hwhole.le, fraction_within h,
    List.drop_append_of_le_length (hwhole.add hfraction).le, exponent_within h,
    List.drop_append_of_le_length hsize, hasImaginaryMark_within h]

private theorem hasBase_within : hasBase (line ++ behind) = hasBase line := by
  match line with
  | [] =>
    rcases eq_nil_or_cons h with rfl | ⟨c, cs, rfl, rfl | rfl⟩
    · rfl
    all_goals cases cs <;> rfl
  | [c] =>
    rcases eq_nil_or_cons h with rfl | ⟨d, cs, rfl, rfl | rfl⟩
    · rfl
    all_goals
      by_cases hc : c = '0'
      · subst hc
        rfl
      · simp [hasBase, hc]
  | c :: d :: line => exact hasBase_cons_cons.trans hasBase_cons_cons.symm

theorem number_within : number (line ++ behind) = number line := by
  simp only [number, hasBase_within h, decimal_within h]
  cases hbase : hasBase line with
  | false => rfl
  | true =>
    have hle := (leaves_base (.inl rfl : Closed line []) hbase).le
    rw [List.drop_append_of_le_length hle, run_within h fun _ => inHexDigits_lineEnd]

private theorem marks_within : marks (line ++ behind) = marks line := by
  match line with
  | [] =>
    rcases eq_nil_or_cons h with rfl | ⟨c, cs, rfl, rfl | rfl⟩
    · rfl
    all_goals cases cs <;> rfl
  | [c] =>
    rcases eq_nil_or_cons h with rfl | ⟨d, cs, rfl, rfl | rfl⟩
    · rfl
    all_goals simp [marks, isRawMark, isBytesMark, isFormatMark, isLetter]
  | c :: d :: line => rfl

theorem stringMarks?_within :
    stringMarks? (line ++ behind) = stringMarks? line := by
  have hle := (marks_append (.inl rfl : Closed line [])).2.le
  simp only [stringMarks?, marks_within h, List.drop_append_of_le_length hle]
  cases line.drop (marks line) with
  | nil => rcases eq_nil_or_cons h with rfl | ⟨c, cs, rfl, rfl | rfl⟩ <;> rfl
  | cons c line => rfl

private theorem isPrefixOf_within {marks : List Char}
    (hmarks : ∀ c ∈ marks, Scanner.isLineEnd c = false) :
    marks.isPrefixOf (line ++ behind) = marks.isPrefixOf line := by
  induction marks generalizing line with
  | nil => rfl
  | cons m marks ih =>
    have hm := hmarks m List.mem_cons_self
    cases line with
    | nil =>
      rcases eq_nil_or_cons h with rfl | ⟨c, cs, rfl, hc⟩
      · rfl
      · have hne : (m == c) = false := by
          apply beq_eq_false_iff_ne.mpr
          rintro rfl
          rw [h m rfl] at hm
          cases hm
        change (m == c && marks.isPrefixOf cs) = false
        rw [hne, Bool.false_and]
    | cons c line =>
      have hmarks' : ∀ c ∈ marks, Scanner.isLineEnd c = false :=
        fun c hc => hmarks c (List.mem_cons_of_mem m hc)
      rw [List.cons_append, List.isPrefixOf, List.isPrefixOf, ih hmarks']

end

/-- The characters before the first line end. -/
def firstLine (cs : List Char) : List Char := cs.takeWhile (!Scanner.isLineEnd ·)

theorem not_mem_take_of_le {cs : List Char} (h : n ≤ (firstLine cs).length) :
    ∀ c ∈ cs.take n, Scanner.isLineEnd c = false := by
  intro c hc
  have hfront : cs.take n <+: firstLine cs :=
    List.prefix_of_prefix_length_le (List.take_prefix n cs) (List.takeWhile_prefix _)
      (Nat.le_trans (List.length_take_le n cs) h)
  simpa using List.all_eq_true.mp List.all_takeWhile c (hfront.subset hc)

/-- A text is its first line and what a line end begins. -/
theorem exists_firstLine (cs : List Char) :
    ∃ behind, cs = firstLine cs ++ behind ∧ EndsLine behind := by
  refine ⟨cs.dropWhile (!Scanner.isLineEnd ·), List.takeWhile_append_dropWhile.symm, fun c hc => ?_⟩
  have hnot := List.head?_dropWhile_not (!Scanner.isLineEnd ·) cs
  rw [hc] at hnot
  simpa using hnot

end Lexeme

theorem Symbol.leading?_within {line behind : List Char} (h : EndsLine behind) :
    leading? (line ++ behind) = leading? line := by
  have hspelled : ∀ entry ∈ spellings, ∀ c ∈ entry.1, Scanner.isLineEnd c = false := by
    have hall : spellings.all (·.1.all (!Scanner.isLineEnd ·)) = true := by decide
    simpa using hall
  have hfind : spellings.find? (·.1.isPrefixOf (line ++ behind)) =
      spellings.find? (·.1.isPrefixOf line) := by
    rw [← List.head?_filter, ← List.head?_filter,
      List.filter_congr fun entry hentry => Lexeme.isPrefixOf_within h (hspelled entry hentry)]
  rw [leading?, hfind]
  rfl

end LiveCheck

namespace LiveCheck

namespace Text

variable {a b : List Char} {c : Char}

/-- A text with a carriage return before every line feed. -/
def crlf (cs : List Char) : List Char := cs.flatMap fun c => if c = '\n' then ['\r', '\n'] else [c]

theorem crlf_append (a b : List Char) : crlf (a ++ b) = crlf a ++ crlf b := List.flatMap_append

theorem crlf_cons_of_ne (h : c ≠ '\n') : crlf (c :: a) = c :: crlf a := by
  simp [crlf, h]

private theorem crlf_lineFeed (a : List Char) : crlf ('\n' :: a) = '\r' :: '\n' :: crlf a := rfl

theorem crlf_eq_self (h : '\n' ∉ a) : crlf a = a := by
  induction a with
  | nil => rfl
  | cons c a ih =>
    rw [List.mem_cons, not_or] at h
    rw [crlf_cons_of_ne (Ne.symm h.1), ih h.2]

private theorem endsLine_crlf (h : EndsLine a) : EndsLine (crlf a) := by
  cases a with
  | nil => exact h
  | cons c a =>
    by_cases hc : c = '\n'
    · subst hc
      exact endsLine_cons rfl
    · rw [crlf_cons_of_ne hc]
      exact endsLine_cons (h c rfl)

/-- What does not look past a line end finds the same. -/
theorem eq_crlf {β : Type} {f : List Char → β}
    (hf : ∀ line behind, EndsLine behind → f (line ++ behind) = f line) (a : List Char) :
    f (crlf a) = f a := by
  obtain ⟨behind, ha, hbehind⟩ := Lexeme.exists_firstLine a
  have hline : '\n' ∉ Lexeme.firstLine a := by
    intro hmem
    have := List.all_eq_true.mp List.all_takeWhile _ hmem
    simp [Scanner.isLineEnd] at this
  rw [ha, crlf_append, crlf_eq_self hline, hf _ _ (endsLine_crlf hbehind), hf _ _ hbehind]

/-- The first `n` characters become the first `k`. -/
structure Widens (cs : List Char) (n k : Nat) : Prop where
  le : n ≤ cs.length
  eq : k = (crlf (cs.take n)).length

theorem Widens.take {n k : Nat} (h : Widens a n k) : (crlf a).take k = crlf (a.take n) := by
  have hsplit := crlf_append (a.take n) (a.drop n)
  rw [List.take_append_drop] at hsplit
  rw [hsplit, h.eq, List.take_left]

theorem Widens.drop {n k : Nat} (h : Widens a n k) : (crlf a).drop k = crlf (a.drop n) := by
  have hsplit := crlf_append (a.take n) (a.drop n)
  rw [List.take_append_drop] at hsplit
  rw [hsplit, h.eq, List.drop_left]

theorem Widens.add {m n j k : Nat} (h : Widens a m j) (h' : Widens (a.drop m) n k) :
    Widens a (m + n) (j + k) := by
  have hle := h.le
  have hle' := h'.le
  rw [List.length_drop] at hle'
  refine ⟨by omega, ?_⟩
  rw [List.take_add, crlf_append, List.length_append, h.eq, h'.eq]

theorem widens_zero (a : List Char) : Widens a 0 0 := ⟨Nat.zero_le _, rfl⟩

private theorem widens_of_not_mem {n : Nat} (hle : n ≤ a.length) (h : '\n' ∉ a.take n) :
    Widens a n n := by
  refine ⟨hle, ?_⟩
  rw [crlf_eq_self h, List.length_take, Nat.min_eq_left hle]

theorem widens_of_le {n : Nat} (h : n ≤ (Lexeme.firstLine a).length) : Widens a n n := by
  refine widens_of_not_mem (Nat.le_trans h (List.takeWhile_sublist _).length_le) fun hmem => ?_
  have hline := Lexeme.not_mem_take_of_le h _ hmem
  cases hline

theorem widens_cons {n k : Nat} (hc : c ≠ '\n') (h : Widens a n k) :
    Widens (c :: a) (n + 1) (k + 1) := by
  refine ⟨Nat.succ_le_succ h.le, ?_⟩
  rw [List.take_succ_cons, crlf_cons_of_ne hc, List.length_cons, h.eq]

private theorem widens_lineFeed {n k : Nat} (h : Widens a n k) :
    Widens ('\n' :: a) (n + 1) (k + 1 + 1) := by
  refine ⟨Nat.succ_le_succ h.le, ?_⟩
  rw [List.take_succ_cons, crlf_lineFeed, List.length_cons, List.length_cons, h.eq]

/-- A line end becomes a longer one. -/
theorem widens_lineEnd (h : '\r' ∉ a) :
    Widens a (Scanner.lineEnd a) (Scanner.lineEnd (crlf a)) := by
  cases a with
  | nil => exact widens_zero _
  | cons c a =>
    by_cases hc : c = '\n'
    · subst hc
      exact ⟨Nat.le_add_left 1 _, rfl⟩
    · have hc' : c ≠ '\r' := fun heq => h (heq ▸ List.mem_cons_self)
      have hzero (cs : List Char) : Scanner.lineEnd (c :: cs) = 0 := by
        unfold Scanner.lineEnd
        split <;> simp_all
      rw [crlf_cons_of_ne hc, hzero, hzero]
      exact widens_zero _

theorem exists_crlf_cons (c : Char) (cs : List Char) : ∃ d ds, crlf (c :: cs) = d :: ds := by
  by_cases hc : c = '\n'
  · exact ⟨_, _, by rw [hc, crlf_lineFeed]⟩
  · exact ⟨_, _, crlf_cons_of_ne hc⟩

theorem crlf_cons {c d : Char} {cs ds : List Char} (h : crlf (c :: cs) = d :: ds) :
    c = '\n' ∧ d = '\r' ∨ c ≠ '\n' ∧ d = c ∧ ds = crlf cs := by
  by_cases hc : c = '\n'
  · subst hc
    cases h
    exact .inl ⟨rfl, rfl⟩
  · rw [crlf_cons_of_ne hc] at h
    cases h
    exact .inr ⟨hc, rfl, rfl⟩

end Text

open Text

namespace Lexeme

variable {c quote : Char} {cs : List Char} {marks : Nat}

private theorem isPrefixOf_crlf (hquote : isQuote quote = true) (cs : List Char) :
    [quote, quote].isPrefixOf (crlf cs) = [quote, quote].isPrefixOf cs := by
  have hends : ∀ c ∈ [quote, quote], Scanner.isLineEnd c = false := by
    simp [not_isLineEnd_of_isQuote hquote]
  exact eq_crlf (fun line behind hb => isPrefixOf_within hb hends) cs

private theorem tripleBody_lineEnd (hquote : isQuote quote = true) (hc : Scanner.isLineEnd c = true)
    (cs : List Char) :
    tripleBody quote (c :: cs) = ((tripleBody quote cs).1 + 1, (tripleBody quote cs).2) := by
  have hne : c ≠ quote := by
    rintro rfl
    rw [not_isLineEnd_of_isQuote hquote] at hc
    cases hc
  have hback : c ≠ '\\' := by
    rintro rfl
    cases hc
  rw [tripleBody_cons hback, beq_eq_false_iff_ne.mpr hne, Bool.false_and, if_neg Bool.false_ne_true]

private theorem tripleBody_crlf (hquote : isQuote quote = true) (cs : List Char) :
    Widens cs (tripleBody quote cs).1 (tripleBody quote (crlf cs)).1 ∧
      (tripleBody quote (crlf cs)).2 = (tripleBody quote cs).2 := by
  have hlineFeed (cs : List Char) := tripleBody_lineEnd (c := '\n') hquote rfl cs
  have hreturn (cs : List Char) := tripleBody_lineEnd (c := '\r') hquote rfl cs
  fun_induction tripleBody quote cs with
  | case1 => exact ⟨widens_zero [], rfl⟩
  | case2 => exact ⟨widens_cons (by decide) (widens_zero []), rfl⟩
  | case3 c cs size closed hbody ih =>
    rw [hbody] at ih
    rw [crlf_cons_of_ne (by decide)]
    by_cases hc : c = '\n'
    · subst hc
      rw [crlf_lineFeed, tripleBody, hlineFeed]
      exact ⟨widens_cons (by decide) (widens_lineFeed ih.1), ih.2⟩
    · rw [crlf_cons_of_ne hc, tripleBody]
      exact ⟨widens_cons (by decide) (widens_cons hc ih.1), ih.2⟩
  | case4 c cs hlast hnext hclose =>
    have hback := ne_backslash hlast hnext
    rw [Bool.and_eq_true, beq_iff_eq] at hclose
    obtain ⟨rfl, hquotes⟩ := hclose
    have hlf := ne_lineFeed_of_isQuote hquote
    have hclose' : (c == c && [c, c].isPrefixOf (crlf cs)) = true := by
      rw [isPrefixOf_crlf hquote, hquotes, beq_self_eq_true, Bool.and_self]
    obtain ⟨behind, rfl⟩ := List.isPrefixOf_iff_prefix.mp hquotes
    rw [crlf_cons_of_ne hlf, tripleBody_cons hback, if_pos hclose']
    exact ⟨widens_cons hlf (widens_cons hlf (widens_cons hlf (widens_zero _))), rfl⟩
  | case5 c cs hlast hnext hopen size closed hbody ih =>
    rw [hbody] at ih
    by_cases hc : c = '\n'
    · subst hc
      rw [crlf_lineFeed, hreturn, hlineFeed]
      exact ⟨widens_lineFeed ih.1, ih.2⟩
    · rw [crlf_cons_of_ne hc, tripleBody_cons (ne_backslash hlast hnext), isPrefixOf_crlf hquote,
        if_neg hopen]
      exact ⟨widens_cons hc ih.1, ih.2⟩

private theorem singleBody_crlf (hquote : isQuote quote = true)
    (h : '\n' ∉ cs.take (singleBody quote cs).1) :
    singleBody quote (crlf cs) = singleBody quote cs := by
  fun_induction singleBody quote cs with
  | case1 => rfl
  | case2 => rfl
  | case3 d cs size closed hbody ih =>
    rw [hbody] at ih
    rw [List.take_succ_cons, List.take_succ_cons, List.mem_cons, List.mem_cons, not_or, not_or] at h
    obtain ⟨-, hd, hcs⟩ := h
    rw [crlf_cons_of_ne (by decide), crlf_cons_of_ne (Ne.symm hd), singleBody, ih hcs]
  | case4 c cs hlast hnext hclose =>
    have hc : c ≠ '\n' := by
      rintro rfl
      rw [← beq_iff_eq.mp hclose] at hquote
      cases hquote
    rw [crlf_cons_of_ne hc, singleBody_cons (ne_backslash hlast hnext), if_pos hclose]
  | case5 c cs hlast hnext hclose hline =>
    by_cases hc : c = '\n'
    · subst hc
      have hne : ¬('\r' == quote) = true := by
        rw [beq_iff_eq]
        rintro rfl
        cases hquote
      rw [crlf_lineFeed, singleBody_cons (by decide), if_neg hne]
      rfl
    · rw [crlf_cons_of_ne hc, singleBody_cons (ne_backslash hlast hnext), if_neg hclose,
        if_pos hline]
  | case6 c cs hlast hnext hclose hline size closed hbody ih =>
    rw [hbody] at ih
    rw [List.take_succ_cons, List.mem_cons, not_or] at h
    rw [crlf_cons_of_ne (Ne.symm h.1), singleBody_cons (ne_backslash hlast hnext), if_neg hclose,
      if_neg hline, ih h.2]

/-- The letters before a string have no line ends. -/
theorem Literal.widens_letters (h : Literal cs marks) : Widens cs marks marks := by
  obtain ⟨quote, behind, hbehind, -⟩ := h.opened
  have hlt : marks < cs.length := by
    have hlength := congrArg List.length hbehind
    simp at hlength
    omega
  apply widens_of_not_mem (Nat.le_of_lt hlt)
  intro hmem
  cases (h.letters _ hmem).2

/-- A string ends at the same place, unless it is in single quotes and has a line feed. -/
theorem Literal.widens (h : Literal cs marks)
    (hsingle : inTripleQuotes (cs.take (marks + (quoted (cs.drop marks)).1)) = false →
      '\n' ∉ cs.take (marks + (quoted (cs.drop marks)).1)) :
    Widens cs (marks + (quoted (cs.drop marks)).1) (marks + (quoted ((crlf cs).drop marks)).1) ∧
      (quoted ((crlf cs).drop marks)).2 = (quoted (cs.drop marks)).2 := by
  have hletters : ∀ c ∈ cs.take marks, isQuote c = false := fun c hc => (h.letters c hc).1
  suffices hquoted : Widens (cs.drop marks) (quoted (cs.drop marks)).1
      (quoted (crlf (cs.drop marks))).1 ∧
        (quoted (crlf (cs.drop marks))).2 = (quoted (cs.drop marks)).2 by
    rw [h.widens_letters.drop]
    exact ⟨h.widens_letters.add hquoted.1, hquoted.2⟩
  rw [List.take_add] at hsingle
  obtain ⟨quote, behind, hquote, hbehind⟩ | ⟨quote, behind, hquote, hbehind, hone⟩ := h.cases
  · have hlf := ne_lineFeed_of_isQuote hquote
    obtain ⟨hbody, hclosed⟩ := tripleBody_crlf hquote behind
    rw [hbehind, crlf_cons_of_ne hlf, crlf_cons_of_ne hlf, crlf_cons_of_ne hlf, quoted_triple,
      quoted_triple]
    exact ⟨widens_cons hlf (widens_cons hlf (widens_cons hlf hbody)), hclosed⟩
  · have hlf := ne_lineFeed_of_isQuote hquote
    have hone' : [quote, quote].isPrefixOf (crlf behind) = false := by
      rw [isPrefixOf_crlf hquote, hone]
    have hprefix : [quote, quote].isPrefixOf (behind.take (singleBody quote behind).1) = false := by
      rw [Bool.eq_false_iff, ne_eq, List.isPrefixOf_iff_prefix] at hone ⊢
      exact fun hshort => hone (hshort.trans (List.take_prefix _ _))
    rw [hbehind, quoted_single hone, List.take_succ_cons, inTripleQuotes_append hletters hquote]
      at hsingle
    have hplain : '\n' ∉ behind.take (singleBody quote behind).1 := fun hmem =>
      hsingle hprefix (List.mem_append_right _ (List.mem_cons_of_mem _ hmem))
    have hbody := widens_of_not_mem (Nat.le_of_lt_succ ?_) hplain
    · rw [hbehind, crlf_cons_of_ne hlf, quoted_single hone, quoted_single hone',
        singleBody_crlf hquote hplain]
      exact ⟨widens_cons hlf hbody, rfl⟩
    · have hle := quoted_le (quote :: behind)
      rw [quoted_single hone] at hle
      exact hle

/-- The other line ends do not matter to how a string is quoted. -/
theorem inTripleQuotes_crlf (cs : List Char) : inTripleQuotes (crlf cs) = inTripleQuotes cs := by
  have hdrop : (crlf cs).dropWhile (!isQuote ·) = crlf (cs.dropWhile (!isQuote ·)) := by
    induction cs with
    | nil => rfl
    | cons c cs ih =>
      by_cases hc : c = '\n'
      · subst hc
        exact ih
      · rw [crlf_cons_of_ne hc, List.dropWhile_cons, List.dropWhile_cons, ih]
        split
        · rfl
        · rw [crlf_cons_of_ne hc]
  have hhead := List.head?_dropWhile_not (!isQuote ·) cs
  rw [inTripleQuotes, inTripleQuotes, hdrop]
  cases hbehind : cs.dropWhile (!isQuote ·) with
  | nil => rfl
  | cons quote behind =>
    have hquote : isQuote quote = true := by
      rw [hbehind] at hhead
      simpa using hhead
    rw [crlf_cons_of_ne (ne_lineFeed_of_isQuote hquote)]
    exact isPrefixOf_crlf hquote behind

/-- A line feed with a carriage return before it is not hidden. -/
theorem not_hidden_crlf (h : '\n' ∈ cs) : ¬Hidden (crlf cs) := by
  intro hhidden
  obtain ⟨a, b, rfl⟩ := List.append_of_mem h
  have hlast := hhidden (crlf a ++ ['\r']) (crlf b) (by simp [crlf_append, crlf_lineFeed])
  simp at hlast

/-- A name lies within its line. -/
theorem run_le_firstLine {p : Char → Bool} (hp : ∀ c, Scanner.isLineEnd c = true → p c = false)
    (cs : List Char) : run p cs ≤ (firstLine cs).length := by
  obtain ⟨behind, hcs, hbehind⟩ := exists_firstLine cs
  have hrun : run p cs = run p (firstLine cs) := by
    conv => lhs; rw [hcs, run_within hbehind hp]
  rw [hrun]
  exact run_le p _

/-- A number lies within its line. -/
theorem number_le_firstLine (cs : List Char) :
    (number cs).2 ≤ (firstLine cs).length := by
  obtain ⟨behind, hcs, hbehind⟩ := exists_firstLine cs
  have hnumber : number cs = number (firstLine cs) := by
    conv => lhs; rw [hcs, number_within hbehind]
  rw [hnumber]
  exact number_le _

end Lexeme

namespace Scanner

theorem continuesName_lineEnd (c : Char) (hc : isLineEnd c = true) :
    Lexeme.continuesName c = false := by
  rcases Lexeme.isLineEnd_cases hc with rfl | rfl <;> decide +kernel

/-- A carriage return is as little a digit as a line feed, and as much a line end. -/
theorem startsWith_crlf (cs : List Char) :
    startsWithLineEnd (crlf cs) = startsWithLineEnd cs ∧
      startsWithDigit (crlf cs) = startsWithDigit cs := by
  cases cs with
  | nil => exact ⟨rfl, rfl⟩
  | cons c cs =>
    by_cases hc : c = '\n'
    · subst hc
      exact ⟨rfl, rfl⟩
    · rw [crlf_cons_of_ne hc]
      exact ⟨rfl, rfl⟩

/-- A comment lies within its line. -/
theorem comment_crlf (cs : List Char) :
    comment (crlf cs) = comment cs ∧ Widens cs (comment cs) (comment cs) := by
  have hends (c : Char) (hc : isLineEnd c = true) : (!isLineEnd c) = false := by rw [hc]; rfl
  exact ⟨eq_crlf (fun line behind hb => Lexeme.run_within hb hends) cs,
    widens_of_le (Lexeme.run_le_firstLine hends cs)⟩

end Scanner
end LiveCheck
