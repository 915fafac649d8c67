import LiveCheck.Token.Scan

/-!
# Lexemes do not look past a line feed

What follows a line feed has no influence on the lengths of the lexemes before it, unless a string
runs over it.
-/

namespace LiveCheck.Lexeme

/-- What stands behind the characters does not matter: there is nothing, or they end with a line
feed. -/
def Closed (cs behind : List Char) : Prop := behind = [] ∨ ∃ before, cs = before ++ ['\n']

variable {c d : Char} {cs ds behind : List Char} {p : Char → Bool} {n : Nat}

theorem Closed.tail (h : Closed (c :: cs) behind) (hc : c ≠ '\n') : Closed cs behind := by
  rcases h with h | ⟨before, h⟩
  · exact .inl h
  · cases before with
    | nil => exact absurd (List.cons.inj h).1 hc
    | cons b before => exact .inr ⟨before, (List.cons.inj h).2⟩

/-- Where nothing is left, nothing follows. -/
theorem Closed.of_nil (h : Closed [] behind) : behind = [] := by
  rcases h with h | ⟨before, h⟩
  · exact h
  · cases before <;> cases h

private theorem Closed.of_singleton (h : Closed [c] behind) (hc : c ≠ '\n') : behind = [] :=
  (h.tail hc).of_nil

/-- The first characters leave something closed. -/
structure Leaves (cs behind : List Char) (n : Nat) : Prop where
  le : n ≤ cs.length
  closed : Closed (cs.drop n) behind

private theorem Leaves.zero (h : Closed cs behind) : Leaves cs behind 0 := ⟨Nat.zero_le _, h⟩

private theorem Leaves.cons (h : Leaves cs behind n) : Leaves (c :: cs) behind (n + 1) :=
  ⟨Nat.succ_le_succ h.le, h.closed⟩

theorem Leaves.add {m : Nat} (h : Leaves cs behind m) (h' : Leaves (cs.drop m) behind n) :
    Leaves cs behind (m + n) := by
  obtain ⟨hm, -⟩ := h
  obtain ⟨hn, hclosed⟩ := h'
  rw [List.length_drop] at hn
  exact ⟨by omega, by rwa [List.drop_drop] at hclosed⟩

theorem Leaves.drop (h : Leaves cs behind n) : (cs ++ behind).drop n = cs.drop n ++ behind :=
  List.drop_append_of_le_length h.le

/-! ## Runs and numbers -/

theorem run_cons_of_pos (hc : p c = true) : run p (c :: cs) = run p cs + 1 := by
  rw [run, List.takeWhile_cons_of_pos hc]
  rfl

theorem run_cons_of_neg (hc : p c = false) : run p (c :: cs) = 0 := by
  rw [run, List.takeWhile_cons_of_neg (Bool.eq_false_iff.mp hc)]
  rfl

/-- A run of characters that a line feed ends. -/
theorem run_append (h : Closed cs behind) (hp : p '\n' = false) :
    run p (cs ++ behind) = run p cs ∧ Leaves cs behind (run p cs) := by
  induction cs with
  | nil =>
    rw [h.of_nil]
    exact ⟨rfl, .zero (.inl rfl)⟩
  | cons c cs ih =>
    cases hc : p c with
    | false =>
      rw [List.cons_append, run_cons_of_neg hc, run_cons_of_neg hc]
      exact ⟨rfl, .zero h⟩
    | true =>
      have hne : c ≠ '\n' := fun heq => by rw [heq, hp] at hc; cases hc
      obtain ⟨heq, hleaves⟩ := ih (h.tail hne)
      rw [List.cons_append, run_cons_of_pos hc, run_cons_of_pos hc, heq]
      exact ⟨rfl, hleaves.cons⟩

theorem fraction_append (h : Closed cs behind) :
    fraction (cs ++ behind) = fraction cs ∧ Leaves cs behind (fraction cs) := by
  match cs with
  | [] =>
    rw [h.of_nil]
    exact ⟨rfl, .zero (.inl rfl)⟩
  | c :: cs =>
    by_cases hc : c = '.'
    · subst hc
      obtain ⟨heq, hleaves⟩ := run_append (p := inDigits) (h.tail (by decide)) rfl
      simp only [List.cons_append, fraction, heq, Nat.add_comm 1]
      exact ⟨trivial, hleaves.cons⟩
    · have hnone (ds : List Char) : fraction (c :: ds) = 0 := by
        unfold fraction
        split
        · rename_i heq
          exact absurd (List.cons.inj heq).1 hc
        · rfl
      rw [List.cons_append, hnone, hnone]
      exact ⟨rfl, .zero h⟩

theorem exponent_of_ne (hc : (c == 'e' || c == 'E') = false) : exponent (c :: cs) = 0 := by
  cases cs with
  | nil => rfl
  | cons d cs => simp only [exponent, hc, Bool.false_eq_true, if_false]

theorem exponent_append (h : Closed cs behind) :
    exponent (cs ++ behind) = exponent cs ∧ Leaves cs behind (exponent cs) := by
  match cs with
  | [] =>
    rw [h.of_nil]
    exact ⟨rfl, .zero (.inl rfl)⟩
  | e :: cs =>
    cases he : e == 'e' || e == 'E' with
    | false =>
      rw [List.cons_append, exponent_of_ne he, exponent_of_ne he]
      exact ⟨rfl, .zero h⟩
    | true =>
      have h' := h.tail fun heq => by rw [heq] at he; cases he
      match cs with
      | [] =>
        rw [h'.of_nil]
        exact ⟨rfl, .zero (.inl rfl)⟩
      | d :: cs =>
        simp only [List.cons_append, exponent, he, if_true]
        cases hd : isDigit d with
        | true =>
          obtain ⟨heq, hleaves⟩ := run_append (p := inDigits)
            (h'.tail fun heq => by rw [heq] at hd; cases hd) rfl
          simp only [if_true, heq, Nat.add_comm 2]
          exact ⟨trivial, hleaves.cons.cons⟩
        | false =>
          cases hsign : d == '+' || d == '-' with
          | false => exact ⟨rfl, .zero h⟩
          | true =>
            have h'' := h'.tail fun heq => by rw [heq] at hsign; cases hsign
            match cs with
            | [] =>
              rw [h''.of_nil]
              exact ⟨rfl, .zero (.inl rfl)⟩
            | x :: cs =>
              obtain ⟨heq, hleaves⟩ := run_append (p := inDigits) h'' rfl
              rw [List.cons_append] at heq
              simp only [Bool.false_eq_true, if_true, if_false, List.cons_append, heq,
                Nat.add_comm 2]
              cases isDigit x with
              | true => exact ⟨trivial, hleaves.cons.cons⟩
              | false => exact ⟨trivial, .zero h⟩

private theorem hasImaginaryMark_append (h : Closed cs behind) :
    hasImaginaryMark (cs ++ behind) = hasImaginaryMark cs := by
  cases cs with
  | nil => rw [h.of_nil]; rfl
  | cons c cs => rfl

private theorem Leaves.one (h : Closed (c :: cs) behind) (hc : c ≠ '\n') :
    Leaves (c :: cs) behind 1 :=
  (Leaves.zero (h.tail hc)).cons

private theorem decimal_append (h : Closed cs behind) :
    decimal (cs ++ behind) = decimal cs ∧ Leaves cs behind (decimal cs).2 := by
  obtain ⟨hrun, hwhole⟩ := run_append (p := inDigits) h rfl
  obtain ⟨hpoint, hfraction⟩ := fraction_append hwhole.closed
  obtain ⟨hletter, hexponent⟩ := exponent_append (hwhole.add hfraction).closed
  have hsize := (hwhole.add hfraction).add hexponent
  have hmark := hasImaginaryMark_append hsize.closed
  simp only [decimal, hrun, hwhole.drop, hpoint, (hwhole.add hfraction).drop, hletter, hsize.drop,
    hmark]
  refine ⟨trivial, ?_⟩
  split
  · rename_i hj
    refine hsize.add ?_
    cases hrest : cs.drop (run inDigits cs + fraction (cs.drop (run inDigits cs)) +
        exponent (cs.drop (run inDigits cs + fraction (cs.drop (run inDigits cs))))) with
    | nil => rw [hrest] at hj; cases hj
    | cons c cs =>
      rw [hrest] at hj
      have hclosed := hsize.closed
      rw [hrest] at hclosed
      exact .one hclosed fun heq => by rw [heq] at hj; cases hj
  · split <;> exact hsize

theorem hasBase_cons_cons : hasBase (c :: d :: cs) = hasBase [c, d] := by
  by_cases hc : c = '0'
  · rw [hc]
    rfl
  · simp [hasBase, hc]

section

variable (h : Closed cs behind)
include h

private theorem hasBase_append : hasBase (cs ++ behind) = hasBase cs := by
  match cs with
  | [] => rw [h.of_nil]; rfl
  | [c] =>
    by_cases hc : c = '\n'
    · rw [hc]
      rfl
    · rw [h.of_singleton hc]
      rfl
  | c :: d :: cs => exact hasBase_cons_cons.trans hasBase_cons_cons.symm

/-- The mark of a base is a zero and a letter. -/
theorem leaves_base (hbase : hasBase cs = true) : Leaves cs behind 2 := by
  match cs with
  | [] => cases hbase
  | [c] => simp [hasBase] at hbase
  | c :: d :: cs =>
    have hc : c = '0' := Classical.byContradiction fun hc => by simp [hasBase, hc] at hbase
    subst hc
    have hd : d ≠ '\n' := fun hd => by rw [hd] at hbase; cases hbase
    exact (Leaves.one (h.tail (by decide)) hd).cons

theorem number_append :
    number (cs ++ behind) = number cs ∧ Leaves cs behind (number cs).2 := by
  simp only [number, hasBase_append h]
  cases hbase : hasBase cs with
  | false => exact decimal_append h
  | true =>
    have hmark := leaves_base h hbase
    obtain ⟨hrun, hdigits⟩ := run_append (p := inHexDigits) hmark.closed rfl
    simp only [if_true, hmark.drop, hrun]
    exact ⟨trivial, hmark.add hdigits⟩

/-! ## Strings -/

theorem marks_append :
    marks (cs ++ behind) = marks cs ∧ Leaves cs behind (marks cs) := by
  match cs with
  | [] =>
    rw [h.of_nil]
    exact ⟨rfl, .zero (.inl rfl)⟩
  | [c] =>
    by_cases hc : c = '\n'
    · subst hc
      cases behind with
      | nil => exact ⟨rfl, .zero h⟩
      | cons d ds => exact ⟨rfl, .zero h⟩
    · rw [h.of_singleton hc, List.append_nil]
      refine ⟨rfl, ?_⟩
      simp only [marks]
      split
      · exact .one (.inl rfl) hc
      · exact .zero (.inl rfl)
  | c :: d :: cs =>
    refine ⟨rfl, ?_⟩
    simp only [marks]
    repeat' split
    · rename_i hmarks
      have hc : c ≠ '\n' := fun hc => by rw [hc] at hmarks; cases hmarks
      have hd : d ≠ '\n' := fun hd => by
        rw [hd, show isBytesMark '\n' = false from rfl, show isFormatMark '\n' = false from rfl,
          show isRawMark '\n' = false from rfl] at hmarks
        simp at hmarks
      exact (Leaves.one (h.tail hc) hd).cons
    · rename_i hmark
      exact .one h fun hc => by rw [hc] at hmark; cases hmark
    · exact .zero h

theorem stringMarks?_append :
    stringMarks? (cs ++ behind) = stringMarks? cs := by
  obtain ⟨heq, hleaves⟩ := marks_append h
  simp only [stringMarks?, heq, hleaves.drop]
  cases hrest : cs.drop (marks cs) with
  | nil =>
    have hclosed := hleaves.closed
    rw [hrest] at hclosed
    rw [hclosed.of_nil]
    rfl
  | cons c cs => rfl

theorem leaves_stringMarks? (hn : stringMarks? cs = some n) :
    Leaves cs behind n := by
  simp only [stringMarks?] at hn
  repeat' split at hn
  all_goals cases hn
  exact (marks_append h).2

end

section

variable {quote : Char}

/-- A string in single quotes, one character on. -/
theorem singleBody_cons (hc : c ≠ '\\') :
    singleBody quote (c :: cs) =
      if c == quote then (1, true)
      else if c == '\n' || c == '\r' then (0, false)
      else ((singleBody quote cs).1 + 1, (singleBody quote cs).2) := by
  rw [singleBody]
  · exact fun hc' => absurd hc' hc
  · exact fun _ _ hc' => absurd hc' hc

theorem tripleBody_cons (hc : c ≠ '\\') :
    tripleBody quote (c :: cs) =
      if c == quote && [quote, quote].isPrefixOf cs then (3, true)
      else ((tripleBody quote cs).1 + 1, (tripleBody quote cs).2) := by
  rw [tripleBody]
  · exact fun hc' => absurd hc' hc
  · exact fun _ _ hc' => absurd hc' hc

theorem ne_backslash (hlast : c = '\\' → cs = [] → False)
    (hnext : ∀ d ds, c = '\\' → cs = d :: ds → False) : c ≠ '\\' := by
  intro hc
  cases cs with
  | nil => exact hlast hc rfl
  | cons d ds => exact hnext d ds hc rfl

private theorem singleBody_append (h : (singleBody quote cs).1 < cs.length) :
    singleBody quote (cs ++ behind) = singleBody quote cs := by
  fun_induction singleBody quote cs with
  | case1 => cases h
  | case2 => exact absurd h (Nat.lt_irrefl 1)
  | case3 d cs size closed hbody ih =>
    rw [hbody] at ih
    have hsize : size < cs.length := Nat.lt_of_add_lt_add_right (n := 2) h
    simp only [List.cons_append, singleBody, ih hsize]
  | case4 c cs hlast hnext hquote =>
    rw [List.cons_append, singleBody_cons (ne_backslash hlast hnext), if_pos hquote]
  | case5 c cs hlast hnext hquote hline =>
    rw [List.cons_append, singleBody_cons (ne_backslash hlast hnext), if_neg hquote, if_pos hline]
  | case6 c cs hlast hnext hquote hline size closed hbody ih =>
    rw [hbody] at ih
    have hsize : size < cs.length := Nat.lt_of_add_lt_add_right (n := 1) h
    rw [List.cons_append, singleBody_cons (ne_backslash hlast hnext), if_neg hquote, if_neg hline,
      ih hsize]

private theorem isPrefixOf_append (h : 2 ≤ cs.length) :
    [quote, quote].isPrefixOf (cs ++ behind) = [quote, quote].isPrefixOf cs := by
  match cs with
  | _ :: _ :: _ => rfl

private theorem length_le_tripleBody_singleton (quote c : Char) : 1 ≤ (tripleBody quote [c]).1 := by
  by_cases hc : c = '\\'
  · rw [hc]
    exact Nat.le_refl 1
  · rw [tripleBody_cons hc]
    split <;> simp

private theorem length_le_tripleBody (quote : Char) (h : cs.length ≤ 2) :
    cs.length ≤ (tripleBody quote cs).1 := by
  match cs with
  | [] => exact Nat.le_refl 0
  | [c] => exact length_le_tripleBody_singleton quote c
  | [c, d] =>
    by_cases hc : c = '\\'
    · rw [hc]
      exact Nat.le_refl 2
    · rw [tripleBody_cons hc]
      split
      · exact Nat.le_succ 2
      · exact Nat.succ_le_succ (length_le_tripleBody_singleton quote d)

private theorem tripleBody_append (h : (tripleBody quote cs).1 < cs.length) :
    tripleBody quote (cs ++ behind) = tripleBody quote cs := by
  have hlength : 2 < cs.length :=
    Nat.not_le.mp fun hle => absurd h (Nat.not_lt.mpr (length_le_tripleBody quote hle))
  fun_induction tripleBody quote cs with
  | case1 => cases h
  | case2 => exact absurd h (Nat.lt_irrefl 1)
  | case3 d cs size closed hbody ih =>
    rw [hbody] at ih
    have hsize : size < cs.length := Nat.lt_of_add_lt_add_right (n := 2) h
    have hlength : 2 < cs.length := Nat.not_le.mp fun hle => by
      have hshort := length_le_tripleBody quote hle
      rw [hbody] at hshort
      exact absurd hsize (Nat.not_lt.mpr hshort)
    simp only [List.cons_append, tripleBody, ih hsize hlength]
  | case4 c cs hlast hnext hquote =>
    rw [List.cons_append, tripleBody_cons (ne_backslash hlast hnext),
      isPrefixOf_append (Nat.le_of_lt_succ hlength), if_pos hquote]
  | case5 c cs hlast hnext hquote size closed hbody ih =>
    rw [hbody] at ih
    have hsize : size < cs.length := Nat.lt_of_add_lt_add_right (n := 1) h
    have hlength' : 2 < cs.length := Nat.not_le.mp fun hle => by
      have hshort := length_le_tripleBody quote hle
      rw [hbody] at hshort
      exact absurd hsize (Nat.not_lt.mpr hshort)
    rw [List.cons_append, tripleBody_cons (ne_backslash hlast hnext),
      isPrefixOf_append (Nat.le_of_lt_succ hlength), if_neg hquote, ih hsize hlength']

private theorem isPrefixOf_append_of_single (h : (singleBody quote cs).1 < cs.length)
    (hsingle : [quote, quote].isPrefixOf cs = false) :
    [quote, quote].isPrefixOf (cs ++ behind) = false := by
  match cs with
  | [] => cases h
  | [c] =>
    refine Bool.eq_false_iff.mpr fun hmark => Nat.not_le.mpr h ?_
    have hc : quote = c := by
      rw [List.singleton_append, List.isPrefixOf, Bool.and_eq_true, beq_iff_eq] at hmark
      exact hmark.1
    subst hc
    by_cases hc : quote = '\\'
    · rw [hc]
      exact Nat.le_refl 1
    · rw [singleBody_cons hc, if_pos (beq_self_eq_true quote)]
      exact Nat.le_refl 1
  | c :: d :: cs => exact (isPrefixOf_append (Nat.le_add_left 2 _)).trans hsingle

private theorem singleBody_le (quote : Char) (cs : List Char) :
    (singleBody quote cs).1 ≤ cs.length := by
  fun_induction singleBody quote cs with
  | case1 | case2 => exact Nat.le_refl _
  | case3 d cs size closed hbody ih =>
    rw [hbody] at ih
    exact Nat.add_le_add_right ih 2
  | case4 => exact Nat.le_add_left 1 _
  | case5 => exact Nat.zero_le _
  | case6 c cs _ _ _ _ size closed hbody ih =>
    rw [hbody] at ih
    exact Nat.succ_le_succ ih

private theorem tripleBody_le (quote : Char) (cs : List Char) :
    (tripleBody quote cs).1 ≤ cs.length := by
  fun_induction tripleBody quote cs with
  | case1 | case2 => exact Nat.le_refl _
  | case3 d cs size closed hbody ih =>
    rw [hbody] at ih
    exact Nat.add_le_add_right ih 2
  | case4 c cs _ _ hquote =>
    have hmark := ((Bool.and_eq_true _ _).mp hquote).2
    exact Nat.succ_le_succ (List.isPrefixOf_iff_prefix.mp hmark).length_le
  | case5 c cs _ _ _ size closed hbody ih =>
    rw [hbody] at ih
    exact Nat.succ_le_succ ih

/-- A string is no longer than the text. -/
theorem quoted_le (cs : List Char) : (quoted cs).1 ≤ cs.length := by
  match cs with
  | [] => exact Nat.le_refl 0
  | quote :: cs =>
    rw [quoted]
    split
    · rename_i hmark
      have hlength : 2 ≤ cs.length := (List.isPrefixOf_iff_prefix.mp hmark).length_le
      have hbody := tripleBody_le quote (cs.drop 2)
      rw [List.length_drop] at hbody
      simp only [List.length_cons]
      omega
    · exact Nat.succ_le_succ (singleBody_le quote cs)

/-- A string that ends before the characters do. -/
theorem quoted_append (h : (quoted cs).1 < cs.length) : quoted (cs ++ behind) = quoted cs := by
  match cs with
  | [] => cases h
  | quote :: cs =>
    rw [List.cons_append, quoted, quoted]
    cases hmark : [quote, quote].isPrefixOf cs with
    | true =>
      have hlength : 2 ≤ cs.length := (List.isPrefixOf_iff_prefix.mp hmark).length_le
      rw [quoted, if_pos hmark] at h
      have hsize : (tripleBody quote (cs.drop 2)).1 < (cs.drop 2).length := by
        rw [List.length_drop]
        simp only [List.length_cons] at h
        omega
      rw [(isPrefixOf_append hlength).trans hmark, List.drop_append_of_le_length hlength,
        tripleBody_append hsize]
      rfl
    | false =>
      rw [quoted, hmark] at h
      have hsize : (singleBody quote cs).1 < cs.length := Nat.lt_of_add_lt_add_right (n := 1) h
      rw [isPrefixOf_append_of_single hsize hmark, singleBody_append hsize]
      rfl

end

end LiveCheck.Lexeme

namespace LiveCheck

open Lexeme (Closed Leaves)

variable {c : Char} {cs behind : List Char}

/-! ## Symbols and line ends -/

private theorem Lexeme.isPrefixOf_closed {mark : List Char} (h : Closed cs behind)
    (hmark : '\n' ∉ mark) :
    mark.isPrefixOf (cs ++ behind) = mark.isPrefixOf cs ∧
      (mark.isPrefixOf cs = true → Leaves cs behind mark.length) := by
  induction mark generalizing cs with
  | nil => exact ⟨rfl, fun _ => .zero h⟩
  | cons d mark ih =>
    have hd : d ≠ '\n' := fun hd => hmark (hd ▸ List.mem_cons_self)
    cases cs with
    | nil =>
      rw [h.of_nil]
      exact ⟨rfl, nofun⟩
    | cons c cs =>
      simp only [List.cons_append, List.isPrefixOf]
      by_cases hc : d = c
      · subst hc
        obtain ⟨heq, hleaves⟩ := ih (h.tail hd) fun hmem => hmark (List.mem_cons_of_mem _ hmem)
        rw [heq]
        exact ⟨rfl, fun htrue => (hleaves ((Bool.and_eq_true _ _).mp htrue).2).cons⟩
      · rw [beq_eq_false_iff_ne.mpr hc]
        exact ⟨rfl, nofun⟩

namespace Symbol

theorem leading?_append (h : Closed cs behind) :
    leading? (cs ++ behind) = leading? cs ∧
      ∀ mark n, leading? cs = some (mark, n) → Leaves cs behind n := by
  have hspelled : ∀ entry ∈ spellings, '\n' ∉ entry.1 := by decide
  have hfits (entry : List Char × Symbol) (hentry : entry ∈ spellings) :=
    Lexeme.isPrefixOf_closed h (hspelled entry hentry)
  have hfind : spellings.find? (·.1.isPrefixOf (cs ++ behind)) =
      spellings.find? (·.1.isPrefixOf cs) := by
    have hsame : ∀ entry ∈ spellings,
        entry.1.isPrefixOf (cs ++ behind) = entry.1.isPrefixOf cs :=
      fun entry hentry => (hfits entry hentry).1
    rw [← List.head?_filter, ← List.head?_filter, List.filter_congr hsame]
  refine ⟨by rw [leading?, hfind]; rfl, fun mark n hmark => ?_⟩
  obtain ⟨entry, hentry, heq⟩ := Option.map_eq_some_iff.mp hmark
  have hfound : entry.1.isPrefixOf cs = true :=
    List.find?_some (p := fun e : List Char × Symbol => e.1.isPrefixOf cs) hentry
  cases heq
  exact (hfits entry (List.mem_of_find?_eq_some hentry)).2 hfound

end Symbol

namespace Scanner

theorem lineEnd_append (h : Closed cs behind) : lineEnd (cs ++ behind) = lineEnd cs := by
  match cs with
  | [] => rw [h.of_nil]; rfl
  | [c] =>
    by_cases hc : c = '\n'
    · rw [hc]
      rfl
    · rw [h.of_singleton hc]
      rfl
  | c :: d :: cs =>
    have hboth (ds : List Char) : lineEnd (c :: d :: ds) = lineEnd [c, d] := by
      by_cases hc : c = '\r'
      · by_cases hd : d = '\n' <;> simp [lineEnd, hc, hd]
      · by_cases hc' : c = '\n' <;> simp [lineEnd, hc, hc']
    exact (hboth (cs ++ behind)).trans (hboth cs).symm

theorem lineEnd_le (cs : List Char) : lineEnd cs ≤ cs.length := by
  unfold lineEnd
  split <;> simp

theorem comment_append (h : Closed cs behind) :
    comment (cs ++ behind) = comment cs ∧ Leaves cs behind (comment cs) :=
  Lexeme.run_append h rfl

end Scanner

end LiveCheck

/-!
## Strings over several lines

A string in three quotes may run over several lines. A string in single quotes goes on behind a line
feed only if a backslash hides the line feed, and then it matters that a line feed is one character.
-/

namespace LiveCheck

namespace Lexeme

variable {c d quote : Char} {cs ds behind : List Char}

/-- Whether the first quote of a literal is the first of three. -/
def inTripleQuotes (cs : List Char) : Bool :=
  match cs.dropWhile (!isQuote ·) with
  | quote :: behind => [quote, quote].isPrefixOf behind
  | [] => false

/-- A backslash stands directly before every line feed. -/
def Hidden (cs : List Char) : Prop := ∀ a b, cs = a ++ '\n' :: b → a.getLast? = some '\\'

private theorem hidden_nil : Hidden [] := fun a _ h => by cases a <;> cases h

private theorem Hidden.cons (h : Hidden cs) (hc : c ≠ '\n') : Hidden (c :: cs) := by
  intro a b heq
  cases a with
  | nil => exact absurd (List.cons.inj heq).1 hc
  | cons x a =>
    have hlast := h a b (List.cons.inj heq).2
    rw [List.getLast?_cons, hlast]
    rfl

private theorem Hidden.backslash (h : Hidden cs) : Hidden ('\\' :: c :: cs) := by
  by_cases hc : c = '\n'
  · subst hc
    intro a b heq
    match a with
    | [] => cases heq
    | [x] =>
      rw [(List.cons.inj heq).1]
      rfl
    | x :: y :: a =>
      have hlast := h a b (List.cons.inj (List.cons.inj heq).2).2
      rw [List.getLast?_cons_cons, List.getLast?_cons, hlast]
      rfl
  · exact (h.cons hc).cons (by decide)

private theorem Hidden.append (h : Hidden ds) (hcs : '\n' ∉ cs) : Hidden (cs ++ ds) := by
  induction cs with
  | nil => exact h
  | cons c cs ih =>
    rw [List.mem_cons, not_or] at hcs
    exact (ih hcs.2).cons (Ne.symm hcs.1)

/-- There are two kinds of quotes. -/
theorem isQuote_iff : isQuote c = true ↔ c = '"' ∨ c = '\'' := by
  rw [isQuote, Bool.or_eq_true, beq_iff_eq, beq_iff_eq]

theorem not_isLineEnd_of_isQuote (h : isQuote quote = true) : Scanner.isLineEnd quote = false := by
  rcases isQuote_iff.mp h with rfl | rfl <;> rfl

theorem ne_lineFeed_of_isQuote (h : isQuote quote = true) : quote ≠ '\n' := by
  rintro rfl
  cases h

/-! ### The body of a string -/

private theorem hidden_singleBody (hquote : isQuote quote = true) (cs : List Char) :
    Hidden (cs.take (singleBody quote cs).1) := by
  fun_induction singleBody quote cs with
  | case1 => exact hidden_nil
  | case2 => exact hidden_nil.cons (by decide)
  | case3 d cs size closed hbody ih =>
    rw [hbody] at ih
    exact ih.backslash
  | case4 c cs hlast hnext hclose =>
    rw [beq_iff_eq] at hclose
    exact hidden_nil.cons (hclose ▸ ne_lineFeed_of_isQuote hquote)
  | case5 => exact hidden_nil
  | case6 c cs hlast hnext hclose hline size closed hbody ih =>
    rw [hbody] at ih
    refine ih.cons ?_
    rintro rfl
    exact hline rfl

/-! ### Literals -/

/-- A string literal stands at the beginning of a text, behind some letters. -/
structure Literal (cs : List Char) (marks : Nat) : Prop where
  letters : ∀ c ∈ cs.take marks, isQuote c = false ∧ Scanner.isLineEnd c = false
  opened : ∃ quote behind, cs.drop marks = quote :: behind ∧ isQuote quote = true

theorem literal_of_isQuote (h : isQuote c = true) : Literal (c :: cs) 0 :=
  ⟨nofun, c, cs, rfl, h⟩

private theorem plain_of_mark
    (h : (isRawMark c || isBytesMark c || isLetter 'u' 'U' c || isFormatMark c) = true) :
    isQuote c = false ∧ Scanner.isLineEnd c = false := by
  simp only [isRawMark, isBytesMark, isFormatMark, isLetter, Bool.or_eq_true, beq_iff_eq] at h
  rcases h with ((((rfl | rfl) | (rfl | rfl)) | (rfl | rfl)) | (rfl | rfl)) <;> decide

private theorem plain_of_mem_marks (h : c ∈ cs.take (marks cs)) :
    isQuote c = false ∧ Scanner.isLineEnd c = false := by
  match cs with
  | [] => cases h
  | [x] =>
    simp only [marks] at h
    split at h
    case isTrue hx =>
      rw [List.mem_singleton.mp h]
      exact plain_of_mark hx
    case isFalse => cases h
  | x :: y :: cs =>
    simp only [marks] at h
    split at h
    case isTrue hxy =>
      rcases List.mem_cons.mp h with rfl | h
      · exact plain_of_mark (by grind)
      · rw [List.mem_singleton.mp h]
        exact plain_of_mark (by grind)
    split at h
    case isTrue hx =>
      rw [List.mem_singleton.mp h]
      exact plain_of_mark hx
    case isFalse => cases h

theorem literal_of_stringMarks? {marks : Nat} (h : stringMarks? cs = some marks) :
    Literal cs marks := by
  simp only [stringMarks?] at h
  split at h
  case h_2 => cases h
  case h_1 quote behind hbehind =>
    by_cases hquote : isQuote quote = true
    · rw [if_pos hquote] at h
      cases h
      exact ⟨fun c hc => plain_of_mem_marks hc, quote, behind, hbehind, hquote⟩
    · rw [if_neg hquote] at h
      cases h

/-- A string in three quotes is its body and these. -/
theorem quoted_triple (quote : Char) (cs : List Char) :
    quoted (quote :: quote :: quote :: cs) =
      ((tripleBody quote cs).1 + 3, (tripleBody quote cs).2) := by
  simp [quoted]

/-- A string in one quote is its body and this. -/
theorem quoted_single (h : [quote, quote].isPrefixOf cs = false) :
    quoted (quote :: cs) = ((singleBody quote cs).1 + 1, (singleBody quote cs).2) := by
  simp [quoted, h]

/-- A string is in three quotes or not. -/
theorem Literal.cases {marks : Nat} (h : Literal cs marks) :
    (∃ quote behind, isQuote quote = true ∧ cs.drop marks = quote :: quote :: quote :: behind) ∨
      ∃ quote behind, isQuote quote = true ∧ cs.drop marks = quote :: behind ∧
        [quote, quote].isPrefixOf behind = false := by
  obtain ⟨quote, behind, hbehind, hquote⟩ := h.opened
  cases htriple : [quote, quote].isPrefixOf behind with
  | false => exact .inr ⟨quote, behind, hquote, hbehind, htriple⟩
  | true =>
    obtain ⟨rest, rfl⟩ := List.isPrefixOf_iff_prefix.mp htriple
    exact .inl ⟨quote, rest, hquote, hbehind⟩

/-- The letters before a string do not matter to how it is quoted. -/
theorem inTripleQuotes_append {letters : List Char} (hletters : ∀ c ∈ letters, isQuote c = false)
    (hquote : isQuote quote = true) (cs : List Char) :
    inTripleQuotes (letters ++ quote :: cs) = [quote, quote].isPrefixOf cs := by
  have hdrop : (letters ++ quote :: cs).dropWhile (!isQuote ·) = quote :: cs := by
    rw [List.dropWhile_append_of_pos fun c hc => by rw [hletters c hc]; rfl]
    exact List.dropWhile_cons_of_neg (by simp [hquote])
  rw [inTripleQuotes, hdrop]

/-- In single quotes every line feed is hidden. -/
theorem Literal.hidden {marks : Nat} (h : Literal cs marks)
    (hsingle : inTripleQuotes (cs.take (marks + (quoted (cs.drop marks)).1)) = false) :
    Hidden (cs.take (marks + (quoted (cs.drop marks)).1)) := by
  rw [List.take_add] at hsingle ⊢
  obtain ⟨quote, behind, hquote, hbehind⟩ | ⟨quote, behind, hquote, hbehind, hone⟩ := h.cases
  · rw [hbehind, quoted_triple, List.take_succ_cons, List.take_succ_cons, List.take_succ_cons,
      inTripleQuotes_append (fun c hc => (h.letters c hc).1) hquote] at hsingle
    simp at hsingle
  · rw [hbehind, quoted_single hone, List.take_succ_cons]
    apply Hidden.append
    · exact (hidden_singleBody hquote behind).cons (ne_lineFeed_of_isQuote hquote)
    · intro hmem
      cases (h.letters _ hmem).2

end Lexeme
end LiveCheck
