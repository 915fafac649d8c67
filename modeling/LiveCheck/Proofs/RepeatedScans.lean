import LiveCheck.Proofs.Printing.Scanning
import LiveCheck.Proofs.Scanning.Actions

/-!
# Scanning a token again

Where a token of a line is the whole text, the scan of it gives this token and closes the line. So
what a token is does not depend on what stands before it or behind it.
-/

/-!
## Lexemes do not look past themselves

What a lexeme is and how long it is depend on its own characters alone: where a text is cut off
behind a lexeme, or further on, the same lexeme begins it.
-/

namespace LiveCheck.Lexeme

variable {c d quote : Char} {cs : List Char} {p : Char → Bool} {n : Nat}

/-! ### Runs and numbers -/

private theorem run_take (h : run p cs ≤ n) : run p (cs.take n) = run p cs := by
  induction cs generalizing n with
  | nil => rw [List.take_nil]
  | cons c cs ih =>
    cases n with
    | zero => exact (Nat.le_zero.mp h).symm
    | succ n =>
      rw [List.take_succ_cons]
      cases hc : p c with
      | false => rw [run_cons_of_neg hc, run_cons_of_neg hc]
      | true =>
        rw [run_cons_of_pos hc] at h ⊢
        rw [run_cons_of_pos hc, ih (Nat.le_of_succ_le_succ h)]

private theorem fraction_take (h : fraction cs ≤ n) : fraction (cs.take n) = fraction cs := by
  cases n with
  | zero => exact (Nat.le_zero.mp h).symm
  | succ n =>
    unfold fraction at h ⊢
    split at h
    · rename_i cs
      rw [List.take_succ_cons]
      show 1 + run inDigits (cs.take n) = 1 + run inDigits cs
      rw [run_take (by omega)]
    · rename_i hpoint
      cases cs with
      | nil => rfl
      | cons c cs =>
        rw [List.take_succ_cons]
        split
        · rename_i heq
          exact absurd (congrArg (· :: cs) (List.cons.inj heq).1) (hpoint cs)
        · rfl

private theorem exponent_take (h : exponent cs ≤ n) : exponent (cs.take n) = exponent cs := by
  match cs, n with
  | [], _ => rw [List.take_nil]
  | _ :: _, 0 => exact (Nat.le_zero.mp h).symm
  | [_], n + 1 => rw [List.take_succ_cons, List.take_nil]
  | e :: d :: cs, 1 =>
    refine (Nat.le_zero.mp (Nat.le_of_lt_succ (Nat.lt_of_le_of_ne h fun heq => ?_))).symm
    simp only [exponent] at heq
    repeat' split at heq
    all_goals omega
  | e :: d :: cs, n + 2 =>
    simp only [List.take_succ_cons, exponent] at h ⊢
    cases he : e == 'e' || e == 'E' with
    | false => rfl
    | true =>
      rw [he] at h
      cases hd : isDigit d with
      | true =>
        rw [hd] at h
        simp only [if_true] at h ⊢
        rw [run_take (by omega)]
      | false =>
        rw [hd] at h
        cases hsign : d == '+' || d == '-' with
        | false => rfl
        | true =>
          rw [hsign] at h
          simp only [if_true, Bool.false_eq_true, if_false] at h ⊢
          cases cs with
          | nil => rw [List.take_nil]
          | cons x cs =>
            cases hx : isDigit x with
            | false =>
              cases n with
              | zero => simp [hx]
              | succ n => simp [hx]
            | true =>
              simp only [hx, if_true] at h ⊢
              have hpos : 0 < run inDigits (x :: cs) := run_pos (by rw [inDigits, hx]; rfl)
              have hrun : run inDigits ((x :: cs).take n) = run inDigits (x :: cs) := run_take (by omega)
              cases n with
              | zero => omega
              | succ n =>
                rw [List.take_succ_cons] at hrun ⊢
                simp only [hx, if_true, hrun]

private theorem hasImaginaryMark_take (h : hasImaginaryMark cs = true → 0 < n) :
    hasImaginaryMark (cs.take n) = hasImaginaryMark cs := by
  cases cs with
  | nil => rw [List.take_nil]
  | cons c cs =>
    cases n with
    | zero => exact (Bool.eq_false_iff.mpr fun hc => Nat.lt_irrefl 0 (h hc)).symm
    | succ n => rfl

private theorem decimal_take (h : (decimal cs).2 ≤ n) : decimal (cs.take n) = decimal cs := by
  simp only [decimal] at h ⊢
  generalize hwhole : run inDigits cs = whole at h ⊢
  generalize hfraction : whole + fraction (cs.drop whole) = size at h ⊢
  generalize hexponent : size + exponent (cs.drop size) = total at h ⊢
  have htotal : total ≤ n := by
    split at h
    · exact Nat.le_of_succ_le h
    · split at h <;> exact h
  have hmark : hasImaginaryMark (cs.drop total) = true → 0 < n - total := by
    intro hmark
    rw [if_pos hmark] at h
    omega
  have hbehind : fraction ((cs.take n).drop whole) = fraction (cs.drop whole) := by
    rw [List.drop_take, fraction_take (by omega)]
  have hend : exponent ((cs.take n).drop size) = exponent (cs.drop size) := by
    rw [List.drop_take, exponent_take (by omega)]
  rw [run_take (by omega), hwhole, hbehind, hfraction, hend, hexponent, List.drop_take,
    hasImaginaryMark_take hmark]

private theorem hasBase_of_length (h : cs.length < 2) : hasBase cs = false := by
  unfold hasBase
  split
  · exact absurd h (by simp)
  · rfl

private theorem hasBase_take (h : hasBase cs = true → 2 ≤ n) :
    hasBase (cs.take n) = hasBase cs := by
  match cs, n with
  | [], _ => rw [List.take_nil]
  | [_], n + 1 => rw [List.take_succ_cons, List.take_nil]
  | c :: d :: cs, n + 2 =>
    have hbase : hasBase (c :: d :: cs) = hasBase [c, d] := hasBase_cons_cons
    rw [List.take_succ_cons, List.take_succ_cons, hasBase_cons_cons, hbase]
  | c :: cs, 0 | c :: d :: cs, 1 =>
    rw [Bool.eq_false_iff.mpr fun hbase => absurd (h hbase) (by decide)]
    exact hasBase_of_length (by simp)

private theorem number_take (h : (number cs).2 ≤ n) : number (cs.take n) = number cs := by
  unfold number at h ⊢
  cases hbase : hasBase cs with
  | true =>
    rw [hbase] at h
    simp only [if_true] at h
    rw [hasBase_take fun _ => by omega, hbase, List.drop_take, run_take (by omega)]
    rfl
  | false =>
    rw [hbase] at h
    rw [hasBase_take (fun hb => absurd (hbase.symm.trans hb) Bool.false_ne_true), hbase]
    exact decimal_take h

/-! ### Strings -/

private theorem singleBody_take (h : (singleBody quote cs).1 ≤ n) :
    singleBody quote (cs.take n) = singleBody quote cs := by
  fun_induction singleBody quote cs generalizing n with
  | case1 => rw [List.take_nil]; rfl
  | case2 =>
    rw [List.take_of_length_le h]
    rfl
  | case3 d cs size closed hbody ih =>
    rw [hbody] at ih
    obtain ⟨n, rfl⟩ := Nat.exists_eq_add_of_le' (Nat.le_trans (Nat.le_add_left 2 size) h)
    simp only [List.take_succ_cons, singleBody, ih (Nat.le_of_add_le_add_right h)]
  | case4 c cs hlast hnext hquote =>
    obtain ⟨n, rfl⟩ := Nat.exists_eq_add_of_le' h
    rw [List.take_succ_cons, singleBody_cons (ne_backslash hlast hnext), if_pos hquote]
  | case5 c cs hlast hnext hquote hline =>
    cases n with
    | zero => rfl
    | succ n =>
      rw [List.take_succ_cons, singleBody_cons (ne_backslash hlast hnext), if_neg hquote,
        if_pos hline]
  | case6 c cs hlast hnext hquote hline size closed hbody ih =>
    rw [hbody] at ih
    obtain ⟨n, rfl⟩ := Nat.exists_eq_add_of_le' (Nat.le_trans (Nat.le_add_left 1 size) h)
    rw [List.take_succ_cons, singleBody_cons (ne_backslash hlast hnext), if_neg hquote,
      if_neg hline, ih (Nat.le_of_succ_le_succ h)]

private theorem isPrefixOf_take (h : [quote, quote].isPrefixOf cs = true → 2 ≤ n) :
    [quote, quote].isPrefixOf (cs.take n) = [quote, quote].isPrefixOf cs := by
  rw [Bool.eq_iff_iff, List.isPrefixOf_iff_prefix, List.isPrefixOf_iff_prefix]
  refine ⟨fun hmark => hmark.trans (List.take_prefix n cs), fun hmark => ?_⟩
  exact List.prefix_take_iff.mpr ⟨hmark, h (List.isPrefixOf_iff_prefix.mpr hmark)⟩

private theorem tripleBody_take (h : (tripleBody quote cs).1 ≤ n) :
    tripleBody quote (cs.take n) = tripleBody quote cs := by
  fun_induction tripleBody quote cs generalizing n with
  | case1 => rw [List.take_nil]; rfl
  | case2 =>
    rw [List.take_of_length_le h]
    rfl
  | case3 d cs size closed hbody ih =>
    rw [hbody] at ih
    obtain ⟨n, rfl⟩ := Nat.exists_eq_add_of_le' (Nat.le_trans (Nat.le_add_left 2 size) h)
    simp only [List.take_succ_cons, tripleBody, ih (Nat.le_of_add_le_add_right h)]
  | case4 c cs hlast hnext hquote =>
    have hthree : 3 ≤ n := h
    obtain ⟨n, rfl⟩ : ∃ m, n = m + 1 := Nat.exists_eq_add_of_le' (by omega)
    rw [List.take_succ_cons, tripleBody_cons (ne_backslash hlast hnext),
      isPrefixOf_take fun _ => Nat.le_of_succ_le_succ h, if_pos hquote]
  | case5 c cs hlast hnext hquote size closed hbody ih =>
    rw [hbody] at ih
    obtain ⟨n, rfl⟩ := Nat.exists_eq_add_of_le' (Nat.le_trans (Nat.le_add_left 1 size) h)
    have hmark : ¬(c == quote && [quote, quote].isPrefixOf (cs.take n)) = true := by
      rw [Bool.and_eq_true, List.isPrefixOf_iff_prefix] at hquote ⊢
      exact fun hmark => hquote ⟨hmark.1, hmark.2.trans (List.take_prefix n cs)⟩
    rw [List.take_succ_cons, tripleBody_cons (ne_backslash hlast hnext), if_neg hmark,
      ih (Nat.le_of_succ_le_succ h)]

theorem quoted_take (h : (quoted cs).1 ≤ n) : quoted (cs.take n) = quoted cs := by
  cases cs with
  | nil => rw [List.take_nil]
  | cons quote cs =>
    cases htriple : [quote, quote].isPrefixOf cs with
    | false =>
      rw [quoted_single htriple] at h ⊢
      obtain ⟨n, rfl⟩ := Nat.exists_eq_add_of_le' (Nat.le_trans (Nat.le_add_left 1 _) h)
      have hmark : [quote, quote].isPrefixOf (cs.take n) = false := by
        rw [isPrefixOf_take fun hmark => by rw [htriple] at hmark; cases hmark]
        exact htriple
      rw [List.take_succ_cons, quoted_single hmark, singleBody_take (Nat.le_of_succ_le_succ h)]
    | true =>
      obtain ⟨ds, rfl⟩ := List.isPrefixOf_iff_prefix.mp htriple
      rw [List.cons_append, List.cons_append, List.nil_append, quoted_triple] at h ⊢
      obtain ⟨n, rfl⟩ := Nat.exists_eq_add_of_le' (Nat.le_trans (Nat.le_add_left 3 _) h)
      simp only [List.take_succ_cons]
      rw [quoted_triple, tripleBody_take (Nat.le_of_add_le_add_right h)]

private theorem marks_take (h : marks cs < n) : marks (cs.take n) = marks cs := by
  match cs, n with
  | [], _ => rw [List.take_nil]
  | [_], n + 1 => rw [List.take_succ_cons, List.take_nil]
  | c :: d :: cs, n + 2 => rfl
  | c :: d :: cs, 1 =>
    have hnone := Nat.lt_one_iff.mp h
    rw [hnone]
    simp only [marks] at hnone
    split at hnone
    · cases hnone
    split at hnone
    · cases hnone
    rename_i hmark
    exact if_neg hmark

private theorem stringMarks?_take {m : Nat} (h : stringMarks? cs = some m) (hn : m < n) :
    stringMarks? (cs.take n) = some m := by
  have hmarks : marks cs = m := by
    simp only [stringMarks?] at h
    repeat' split at h
    all_goals cases h
    rfl
  have hdrop : (cs.take n).drop m = (cs.drop m).take (n - m - 1 + 1) := by
    rw [List.drop_take]
    congr 1
    omega
  simp only [stringMarks?, marks_take (hmarks ▸ hn), hmarks, hdrop] at h ⊢
  cases hrest : cs.drop m with
  | nil => rw [hrest] at h; cases h
  | cons quote behind =>
    rw [hrest] at h
    exact h

end LiveCheck.Lexeme

namespace LiveCheck.Symbol

open Lexeme

variable {c : Char} {cs : List Char} {mark : Symbol} {n : Nat}

/-! ### Symbols -/

private theorem take_of_leading? (h : leading? cs = some (mark, n)) :
    cs.take n = mark.text.toList := by
  obtain ⟨entry, hentry, heq⟩ := Option.map_eq_some_iff.mp h
  have hfits : entry.1.isPrefixOf cs = true :=
    List.find?_some (p := fun e : List Char × Symbol => e.1.isPrefixOf cs) hentry
  obtain ⟨other, -, rfl⟩ := List.mem_map.mp (List.mem_of_find?_eq_some hentry)
  cases heq
  exact (List.prefix_iff_eq_take.mp (List.isPrefixOf_iff_prefix.mp hfits)).symm

private theorem leading?_singleton (h : leading? (c :: cs) = none) : leading? [c] = none := by
  rw [leading?, Option.map_eq_none_iff, List.find?_eq_none] at h ⊢
  intro entry hentry hfits
  rw [List.isPrefixOf_iff_prefix] at hfits
  exact h entry hentry (List.isPrefixOf_iff_prefix.mpr (hfits.trans ⟨cs, rfl⟩))

end LiveCheck.Symbol

namespace LiveCheck

open Text

namespace Scanner

open Lexeme

variable {s t : Scanner} {c : Char} {cs : List Char} {kind : TokenKind} {n marks : Nat}
  {token : Token}

/-! ## Tokens that stand alone -/

/-- A text that ends with these characters ends with one token, which is of the kind and has all of
them. -/
structure Alone (kind : TokenKind) (cs : List Char) : Prop where
  inLine : kind.endsLine = false
  visible : ∃ c ds, cs = c :: ds ∧ (isMargin c || c == '#' || isLineEnd c) = false
  takes : ∀ (s : Scanner) (c : Char) (ds : List Char), cs = c :: ds → s.rest = c :: ds →
    ∃ findings brackets, s.takeToken c =
      { s.take kind cs.length with findings := findings, brackets := brackets }

private theorem Alone.of_take (hkind : kind.endsLine = false)
    (hc : (isMargin c || c == '#' || isLineEnd c) = false) (hpos : 0 < n)
    (hle : n ≤ (c :: cs).length)
    (htakes : ∀ s : Scanner, s.rest = (c :: cs).take n → ∃ findings brackets, s.takeToken c =
      { s.take kind n with findings := findings, brackets := brackets }) :
    Alone kind ((c :: cs).take n) := by
  obtain ⟨m, rfl⟩ := Nat.exists_eq_add_of_le' hpos
  refine ⟨hkind, ⟨c, cs.take m, List.take_succ_cons, hc⟩, fun s d ds hds hs => ?_⟩
  have hd : c = d := (List.cons.inj (List.take_succ_cons.symm.trans hds)).1
  rw [← hd, List.length_take_of_le hle]
  exact htakes s (hs.trans hds.symm)

private theorem tokens_finish (hindents : s.indents = [0]) (hline : s.lineHasTokens = true) :
    s.finish.tokens = ((s.mark .newline).mark .endOfFile).tokens := by
  obtain ⟨rest, offset, tokens, findings, indents, brackets, atLineStart⟩ := s
  cases hindents
  simp only [finish]
  split
  · rfl
  · rename_i hnone
    exact absurd hline hnone

theorem Alone.tokens_scan {text : String} (h : Alone kind text.toList) :
    (scan text).tokens = #[⟨kind, ⟨0, text.utf8ByteSize⟩, text⟩,
      ⟨.newline, ⟨text.utf8ByteSize, text.utf8ByteSize⟩, ""⟩,
      ⟨.endOfFile, ⟨text.utf8ByteSize, text.utf8ByteSize⟩, ""⟩] := by
  obtain ⟨c, ds, htext, hvisible⟩ := h.visible
  let begun : Scanner := { (start text).skip 0 with atLineStart := false }
  obtain ⟨findings, brackets, htake⟩ := h.takes begun c ds htext htext
  have hrun : (start text).run =
      { begun.take kind text.toList.length with findings := findings, brackets := brackets } := by
    rw [run_of_cons (s := start text) htext, advance_start htext hvisible, htake]
    exact run_of_nil List.drop_length
  have hkind : kind.isLayout = false := Bool.eq_false_iff.mpr fun hlayout =>
    absurd (TokenKind.endsLine_of_isLayout hlayout) (Bool.eq_false_iff.mp h.inLine)
  have hline : (start text).run.lineHasTokens = true := by
    rw [hrun]
    simp [lineHasTokens, Scanner.take, hkind]
  have hbytes : byteLength text.toList = text.utf8ByteSize := by
    rw [← utf8ByteSize_ofList, String.ofList_toList]
  show (start text).run.finish.tokens = _
  rw [tokens_finish (by rw [hrun]; rfl) hline, hrun]
  simp [begun, start, mark, Scanner.take, Scanner.skip, byteLength, ← hbytes]

/-! ## Numbers -/

private theorem takeToken_number
    (hc : (isDigit c || (c == '.' && startsWithDigit (s.rest.drop 1))) = true)
    :
    s.takeToken c = s.take (number s.rest).1 (number s.rest).2 := by
  have hspecial : isSpecial c = false := by
    rw [Bool.or_eq_true, Bool.and_eq_true, beq_iff_eq] at hc
    rcases hc with hc | ⟨rfl, -⟩
    · exact forall_isDigit (P := fun c => isSpecial c = false) (by decide) hc
    · rfl
  simp only [isSpecial, Bool.or_eq_false_iff] at hspecial
  obtain ⟨⟨⟨hmargin, hcomment⟩, hline⟩, hback⟩ := hspecial
  simp only [takeToken, hmargin, hcomment, hline, hback, hc, Bool.false_and]
  rfl

private theorem two_le_number (h : startsWithDigit cs = true) : 2 ≤ (number ('.' :: cs)).2 := by
  cases cs with
  | nil => cases h
  | cons d ds =>
    have hdigit : isDigit d = true := h
    have hrun : 0 < Lexeme.run inDigits (d :: ds) := run_pos (by rw [inDigits, hdigit]; rfl)
    have hwhole : Lexeme.run inDigits ('.' :: d :: ds) = 0 := run_cons_of_neg rfl
    have hbase : hasBase ('.' :: d :: ds) = false := rfl
    simp only [number, hbase, decimal, hwhole, List.drop_zero, fraction]
    repeat' split
    all_goals simp only; omega

private theorem alone_number (hc : (isDigit c || (c == '.' && startsWithDigit cs)) = true) :
    Alone (number (c :: cs)).1 ((c :: cs).take (number (c :: cs)).2) := by
  have hc' : isDigit c = true ∨ c = '.' ∧ startsWithDigit cs = true := by
    rwa [Bool.or_eq_true, Bool.and_eq_true, beq_iff_eq] at hc
  have hvisible : (isMargin c || c == '#' || isLineEnd c) = false := by
    rcases hc' with hdigit | ⟨rfl, -⟩
    · exact forall_isDigit (P := fun c => (isMargin c || c == '#' || isLineEnd c) = false)
        (by decide) hdigit
    · rfl
  refine .of_take (number_kind _).1 hvisible (number_pos (hc'.imp_right And.left)) (number_le _)
    fun s hs => ⟨s.findings, s.brackets, ?_⟩
  have hbegins : (isDigit c || (c == '.' && startsWithDigit (s.rest.drop 1))) = true := by
    rcases hc' with hdigit | ⟨rfl, hbehind⟩
    · rw [hdigit, Bool.true_or]
    · obtain ⟨n, hn⟩ := Nat.exists_eq_add_of_le' (two_le_number hbehind)
      rw [hs, hn]
      cases cs with
      | nil => cases hbehind
      | cons d ds => exact hbehind
  rw [takeToken_number hbegins, hs, number_take (Nat.le_refl _)]
  rfl

/-! ## Strings -/

private theorem plain_of_mayName (h : (c == '_' || c.isAlpha || 127 < c.toNat) = true) :
    isSpecial c = false ∧ (isDigit c || c == '.') = false ∧ isQuote c = false := by
  have hne : ∀ d ∈ [' ', '\t', '\x0c', '#', '\n', '\r', '\\', '.', '"', '\''], c ≠ d := by
    have hnone : ([' ', '\t', '\x0c', '#', '\n', '\r', '\\', '.', '"', '\''].all fun d =>
        !(d == '_' || d.isAlpha || 127 < d.toNat)) = true := by decide
    rintro d hd rfl
    have hc := List.all_eq_true.mp hnone c hd
    rw [h] at hc
    cases hc
  refine ⟨Bool.eq_false_iff.mpr fun hc => ?_, ?_, ?_⟩
  · have hmem := mem_of_isSpecial hc
    exact hne c (List.mem_append_left ['.', '"', '\''] hmem) rfl
  · rw [Bool.or_eq_false_iff, beq_eq_false_iff_ne]
    refine ⟨Bool.eq_false_iff.mpr fun hc => ?_, hne '.' (by decide)⟩
    exact absurd h (Bool.eq_false_iff.mp (forall_isDigit
      (P := fun d => (d == '_' || d.isAlpha || 127 < d.toNat) = false) (by decide) hc))
  · rw [isQuote, Bool.or_eq_false_iff, beq_eq_false_iff_ne, beq_eq_false_iff_ne]
    exact ⟨hne '"' (by decide), hne '\'' (by decide)⟩

private theorem takeToken_mayName (h : (c == '_' || c.isAlpha || 127 < c.toNat) = true)
    (s : Scanner) :
    s.takeToken c = match stringMarks? s.rest with
      | some marks => s.takeString marks
      | none => if startsName c then s.takeName else s.takeUnknown := by
  obtain ⟨hspecial, hdigit, hquote⟩ := plain_of_mayName h
  rw [Bool.or_eq_false_iff] at hdigit
  have hnumber : (isDigit c || (c == '.' && startsWithDigit (s.rest.drop 1))) = false := by
    rw [hdigit.1, hdigit.2, Bool.false_and, Bool.or_false]
  exact (takeToken_eq hspecial hnumber hquote).trans (if_pos h)

/-- The kind of a string with so many letters before its quote. -/
def stringKind (marks : Nat) (cs : List Char) : TokenKind :=
  if (cs.take marks).any isBytesMark then .bytes else .string

theorem takeString_eq (s : Scanner) (marks : Nat) : ∃ findings, s.takeString marks =
    { s.take (stringKind marks s.rest) (marks + (quoted (s.rest.drop marks)).1) with
      findings := findings } := by
  simp only [takeString, stringKind]
  split
  · exact ⟨s.findings, rfl⟩
  · exact ⟨_, rfl⟩

private theorem alone_string (h : Lexeme.Literal (c :: cs) marks)
    (hc : (isMargin c || c == '#' || isLineEnd c) = false)
    (htake : ∀ s : Scanner,
      s.rest = (c :: cs).take (marks + (quoted ((c :: cs).drop marks)).1) →
        s.takeToken c = s.takeString marks) :
    Alone (stringKind marks (c :: cs))
      ((c :: cs).take (marks + (quoted ((c :: cs).drop marks)).1)) := by
  obtain ⟨quote, behind, hbehind, -⟩ := h.opened
  have hpos : 0 < (quoted ((c :: cs).drop marks)).1 :=
    quoted_pos (hbehind ▸ List.cons_ne_nil quote behind)
  have hle : marks + (quoted ((c :: cs).drop marks)).1 ≤ (c :: cs).length := by
    have hquoted := quoted_le ((c :: cs).drop marks)
    rw [List.length_drop] at hquoted
    omega
  refine .of_take ?_ hc (by omega) hle fun s hs => ?_
  · unfold stringKind
    split <;> rfl
  obtain ⟨findings, heq⟩ := s.takeString_eq marks
  refine ⟨findings, s.brackets, ?_⟩
  have hkind : stringKind marks s.rest = stringKind marks (c :: cs) := by
    rw [stringKind, hs, List.take_take, Nat.min_eq_left (Nat.le_add_right _ _)]
    rfl
  have hquoted : quoted (s.rest.drop marks) = quoted ((c :: cs).drop marks) := by
    rw [hs, List.drop_take, Nat.add_sub_cancel_left, quoted_take (Nat.le_refl _)]
  rw [htake s hs, heq, hkind, hquoted]
  rfl

theorem alone_quote (hc : isQuote c = true) :
    Alone .string ((c :: cs).take (0 + (quoted (c :: cs)).1)) := by
  refine alone_string (literal_of_isQuote hc) ?_ fun s _ => ?_
  · rcases isQuote_iff.mp hc with rfl | rfl <;> rfl
  · rcases isQuote_iff.mp hc with rfl | rfl <;> rfl

private theorem alone_marked (hc : (c == '_' || c.isAlpha || 127 < c.toNat) = true)
    (hmarks : stringMarks? (c :: cs) = some marks) :
    Alone (stringKind marks (c :: cs))
      ((c :: cs).take (marks + (quoted ((c :: cs).drop marks)).1)) := by
  have hliteral := literal_of_stringMarks? hmarks
  have hspecial := (plain_of_mayName hc).1
  rw [isSpecial, Bool.or_eq_false_iff] at hspecial
  refine alone_string hliteral hspecial.1 fun s hs => ?_
  obtain ⟨quote, behind, hbehind, -⟩ := hliteral.opened
  have hpos : 0 < (quoted ((c :: cs).drop marks)).1 :=
    quoted_pos (hbehind ▸ List.cons_ne_nil quote behind)
  rw [takeToken_mayName hc, hs, stringMarks?_take hmarks (by omega)]

/-! ## Names, symbols and other characters -/

theorem takeName_eq (s : Scanner) (hn : 1 + Lexeme.run continuesName (s.rest.drop 1) = n) :
    s.takeName = s.take (wordKind (String.ofList (s.rest.take n))) n := by
  simp only [takeName, wordKind, hn]
  cases Keyword.ofText? (String.ofList (s.rest.take n)) <;> rfl

private theorem alone_name (hc : startsName c = true) (hn : 1 + Lexeme.run continuesName cs = n) :
    Alone (wordKind (String.ofList ((c :: cs).take n))) ((c :: cs).take n) := by
  have hspecial := isSpecial_of_startsName hc
  rw [isSpecial, Bool.or_eq_false_iff] at hspecial
  have hle := run_le continuesName cs
  subst hn
  refine .of_take ?_ hspecial.1 (by omega) (by rw [List.length_cons]; omega)
    fun s hs => ⟨s.findings, s.brackets, ?_⟩
  · unfold wordKind
    split <;> rfl
  have hword : IsWord c (cs.takeWhile continuesName) :=
    ⟨hc, fun d hd => List.all_eq_true.mp List.all_takeWhile d hd⟩
  have htext : (c :: cs).take (1 + Lexeme.run continuesName cs) =
      c :: cs.takeWhile continuesName := by
    rw [Nat.add_comm, List.take_succ_cons, take_run]
  have hends : EndsWord [] := fun d hd => by cases hd
  rw [takeToken_word hword hends (by rw [hs, htext, List.append_nil]), htext, List.length_cons,
    Nat.add_comm]
  rfl

private theorem alone_symbol {mark : Symbol} (h : Symbol.leading? (c :: cs) = some (mark, n)) :
    Alone mark ((c :: cs).take n) := by
  have htext := Symbol.take_of_leading? h
  obtain ⟨m, hm⟩ := Nat.exists_eq_add_of_le' (Symbol.leading?_pos h)
  have hcs : mark.text.toList = c :: cs.take m := by rw [← htext, hm, List.take_succ_cons]
  obtain ⟨hspecial, hdigit, hquote, hname⟩ := isSymbol_head hcs
  have hvisible := hspecial
  rw [isSpecial, Bool.or_eq_false_iff] at hvisible
  refine .of_take rfl hvisible.1 (Symbol.leading?_pos h) (Symbol.leading?_le h) fun s hs => ?_
  have hpoint : (isDigit c || (c == '.' && startsWithDigit (s.rest.drop 1))) = false := by
    rw [hdigit, Bool.false_or, Bool.and_eq_false_imp, beq_iff_eq]
    rintro rfl
    rw [hs, htext]
    obtain ⟨rfl, -⟩ | ⟨rfl, -⟩ := eq_dot hcs
    · rfl
    · rfl
  have hleading : Symbol.leading? s.rest = some (mark, n) := by
    rw [hs, htext, leading?_symbol, ← htext, List.length_take_of_le (Symbol.leading?_le h)]
  rw [takeToken_eq hspecial hpoint hquote, hname, if_neg Bool.false_ne_true]
  simp only [takeSymbol, hleading]
  split
  · exact ⟨_, _, rfl⟩
  · split
    · exact ⟨_, _, rfl⟩
    · exact ⟨_, _, rfl⟩

private theorem alone_unknown (hc : (isMargin c || c == '#' || isLineEnd c) = false)
    (hdigit : isDigit c = false) (hquote : isQuote c = false)
    (hname : (c == '_' || c.isAlpha || 127 < c.toNat) = true → startsName c = false)
    (hsymbol : (c == '_' || c.isAlpha || 127 < c.toNat) = false → Symbol.leading? [c] = none) :
    Alone .unknown ((c :: cs).take 1) := by
  refine .of_take rfl hc Nat.one_pos (Nat.le_add_left 1 _) fun s hs => ?_
  have hs' : s.rest = [c] := hs
  suffices hunknown : s.takeToken c = s.takeUnknown from ⟨_, _, hunknown⟩
  rw [Bool.or_eq_false_iff, Bool.or_eq_false_iff] at hc
  obtain ⟨⟨hmargin, hcomment⟩, hline⟩ := hc
  have hmarks : stringMarks? [c] = none := by
    refine Option.eq_none_iff_forall_ne_some.mpr fun marks hmarks => ?_
    obtain ⟨-, quote, behind, hbehind, hisQuote⟩ := literal_of_stringMarks? hmarks
    have hmem : quote ∈ [c] := List.mem_of_mem_drop (hbehind ▸ List.mem_cons_self)
    rw [List.mem_singleton.mp hmem, hquote] at hisQuote
    cases hisQuote
  simp only [takeToken, hs', List.drop_one, List.tail_cons, startsWithLineEnd, startsWithDigit,
    hmargin, hcomment, hline, hdigit, hquote, hmarks, Bool.and_false, Bool.false_or, takeSymbol]
  cases hmay : (c == '_' || c.isAlpha || 127 < c.toNat) with
  | true => simp [hname hmay]
  | false => simp [hsymbol hmay]

/-! ## All tokens of a scan -/

/-- Every token so far is as said. -/
def Holds (P : Token → Prop) (s : Scanner) : Prop := ∀ token ∈ s.tokens, P token

section

variable {P : Token → Prop}

theorem Holds.push (h : s.Holds P) (htokens : t.tokens = s.tokens.push token) (htoken : P token) :
    t.Holds P := by
  intro other hother
  rw [htokens] at hother
  rcases Array.mem_push.mp hother with hother | rfl
  · exact h other hother
  · exact htoken

theorem Holds.congr (h : s.Holds P) (htokens : t.tokens = s.tokens) : t.Holds P := by
  rw [Holds, htokens]
  exact h

variable (hlayout : ∀ token : Token, token.kind.endsLine = true → P token)
include hlayout

private theorem holds_closeBlocks (here : Nat) (indents : List Nat) (h : s.Holds P) :
    (closeBlocks here indents s).Holds P := by
  fun_induction closeBlocks here indents s with
  | case1 top below rest s _ ih => exact ih (h.push rfl (hlayout _ rfl))
  | case2 | case3 => exact h.congr rfl

theorem holds_layOut (h : s.Holds P) (margin here : Nat) : (s.layOut margin here).Holds P := by
  have hskip : (s.skip margin).Holds P := h.congr rfl
  simp only [layOut]
  repeat' split
  · exact h.push rfl (hlayout _ rfl)
  · exact holds_closeBlocks hlayout _ _ hskip
  · exact (holds_closeBlocks hlayout _ _ hskip).congr rfl
  · exact hskip

theorem holds_takeLineEnd (h : s.Holds P) : s.takeLineEnd.Holds P := by
  simp only [takeLineEnd]
  repeat' split
  · exact h.push rfl (hlayout _ rfl)
  · exact h.congr rfl
  · exact h.congr rfl

theorem holds_finish (h : s.Holds P) : s.finish.Holds P := by
  have hdedents (indents : List Nat) (s : Scanner) (h : s.Holds P) :
      (indents.foldl (fun s _ => s.mark .dedent) s).Holds P := by
    induction indents generalizing s with
    | nil => exact h
    | cons _ indents ih => exact ih _ (h.push rfl (hlayout _ rfl))
  simp only [finish]
  refine Holds.push (hdedents _ _ ?_) rfl (hlayout _ rfl)
  split
  · exact h.push rfl (hlayout _ rfl)
  · exact h.congr rfl

variable (htake : ∀ (s : Scanner) (c : Char) (cs : List Char), s.rest = c :: cs →
  s.Holds P → (s.takeToken c).Holds P)
include htake

private theorem holds_takeLineStart (h : s.Holds P) : s.takeLineStart.Holds P := by
  simp only [takeLineStart]
  split
  · exact h.congr rfl
  · rename_i c behind hrest
    repeat' split
    · exact h.congr rfl
    · exact h.congr rfl
    · exact htake _ c behind ((s.rest_layOut _ _).trans hrest)
        ((holds_layOut hlayout h _ _).congr rfl)

private theorem holds_run (h : s.Holds P) : s.run.Holds P := by
  fun_induction run s with
  | case1 s _ => exact h
  | case2 s c cs hs ih =>
    refine ih ?_
    rw [advance]
    split
    · exact holds_takeLineStart hlayout htake h
    · exact htake s c cs hs h

/-- What holds of all layout, and of each token where it is taken, holds of all tokens of a text. -/
theorem holds_scan (text : String) : ∀ token ∈ (scan text).tokens, P token :=
  holds_finish hlayout (holds_run hlayout htake fun token htoken => by simp [start] at htoken)

end

private def StandsAlone (token : Token) : Prop :=
  token.kind.endsLine = false → Alone token.kind token.text.toList

private theorem Holds.alone (h : s.Holds StandsAlone) (halone : Alone kind (s.rest.take n))
    (htokens : t.tokens = (s.take kind n).tokens) : t.Holds StandsAlone := by
  refine h.push htokens fun _ => ?_
  rw [String.toList_ofList]
  exact halone

private theorem Holds.takeString (h : s.Holds StandsAlone)
    (halone : Alone (stringKind marks s.rest)
      (s.rest.take (marks + (quoted (s.rest.drop marks)).1))) :
    (s.takeString marks).Holds StandsAlone := by
  obtain ⟨findings, heq⟩ := s.takeString_eq marks
  rw [heq]
  exact h.alone halone rfl

private theorem Holds.takeSymbol (h : s.Holds StandsAlone)
    (hmark : ∀ mark n, Symbol.leading? s.rest = some (mark, n) → Alone mark (s.rest.take n))
    (hnone : Symbol.leading? s.rest = none → Alone .unknown (s.rest.take 1)) :
    s.takeSymbol.Holds StandsAlone := by
  simp only [Scanner.takeSymbol]
  split
  · rename_i mark n hleading
    have halone := hmark mark n hleading
    repeat' split
    · exact h.alone halone rfl
    · exact h.alone halone rfl
    · exact h.alone halone rfl
  · rename_i hleading
    exact h.alone (hnone hleading) rfl

private theorem standsAlone_of_endsLine (hk : token.kind.endsLine = true) :
    StandsAlone token := fun hline => absurd hk (Bool.eq_false_iff.mp hline)

private theorem standsAlone_takeToken (hs : s.rest = c :: cs) (h : s.Holds StandsAlone) :
    (s.takeToken c).Holds StandsAlone := by
  unfold takeToken
  rw [hs]
  dsimp only [List.drop_one, List.tail_cons]
  split
  · exact h.congr rfl
  rename_i hmargin
  split
  · exact h.congr rfl
  rename_i hcomment
  split
  · exact holds_takeLineEnd (fun _ => standsAlone_of_endsLine) h
  rename_i hline
  have hvisible : (isMargin c || c == '#' || isLineEnd c) = false := by
    rw [Bool.eq_false_iff.mpr hmargin, Bool.eq_false_iff.mpr hcomment, Bool.eq_false_iff.mpr hline]
    rfl
  split
  · exact h.congr rfl
  split
  · rename_i hnumber
    exact h.alone (hs ▸ alone_number hnumber) rfl
  rename_i hnumber
  have hdigit : isDigit c = false := (Bool.or_eq_false_iff.mp (Bool.eq_false_iff.mpr hnumber)).1
  split
  · rename_i hquote
    exact h.takeString (hs ▸ alone_quote hquote)
  rename_i hquote
  have hplain : isQuote c = false := Bool.eq_false_iff.mpr hquote
  split
  · rename_i hmay
    split
    · rename_i marks hmarks
      exact h.takeString (hs ▸ alone_marked hmay hmarks)
    split
    · rename_i hname
      rw [takeName_eq s rfl]
      exact h.alone (hs ▸ alone_name hname rfl) rfl
    · rename_i hname
      have hunknown : Alone .unknown ((c :: cs).take 1) :=
        alone_unknown hvisible hdigit hplain (fun _ => Bool.eq_false_iff.mpr hname)
          fun hnot => absurd hmay (Bool.eq_false_iff.mp hnot)
      exact h.alone (hs ▸ hunknown) rfl
  · rename_i hmay
    refine h.takeSymbol (fun mark n hleading => ?_) fun hleading => ?_
    · rw [hs] at hleading ⊢
      exact alone_symbol hleading
    · rw [hs] at hleading ⊢
      exact alone_unknown hvisible hdigit hplain (fun hyes => absurd hyes hmay)
        fun _ => Symbol.leading?_singleton hleading

end Scanner

open Scanner in
/-- The text of a token of a line has this token alone, with all its characters, the end of the line
and the end of the text. -/
theorem tokens_scan_text {text : String} {token : Token} (htoken : token ∈ (scan text).tokens)
    (hkind : token.kind.endsLine = false) :
    (scan token.text).tokens = #[⟨token.kind, ⟨0, token.text.utf8ByteSize⟩, token.text⟩,
      ⟨.newline, ⟨token.text.utf8ByteSize, token.text.utf8ByteSize⟩, ""⟩,
      ⟨.endOfFile, ⟨token.text.utf8ByteSize, token.text.utf8ByteSize⟩, ""⟩] := by
  have halone := holds_scan (fun _ => standsAlone_of_endsLine)
    (fun _ _ _ hs => standsAlone_takeToken hs) text token htoken
  exact (halone hkind).tokens_scan

/-- A string that is not closed is one where its line is the whole text, too. -/
theorem tokens_scan_text_unclosed :
    (⟨.bytes, ⟨4, 8⟩, "rb'a"⟩ : Token) ∈ (scan "x = rb'a\ny").tokens ∧
      (scan "rb'a").tokens =
        #[⟨.bytes, ⟨0, 4⟩, "rb'a"⟩, ⟨.newline, ⟨4, 4⟩, ""⟩, ⟨.endOfFile, ⟨4, 4⟩, ""⟩] := by
  have htoken : (⟨.bytes, ⟨4, 8⟩, "rb'a"⟩ : Token) ∈ (scan "x = rb'a\ny").tokens := by
    decide +kernel
  have hscan := tokens_scan_text htoken rfl
  have hsize : "rb'a".utf8ByteSize = 4 := by decide
  simp only [hsize] at hscan
  exact ⟨htoken, hscan⟩

end LiveCheck
