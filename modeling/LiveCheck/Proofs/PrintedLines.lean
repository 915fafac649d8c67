import LiveCheck.Proofs.Paths
import LiveCheck.Proofs.Positions
import Mathlib.Data.List.TakeWhile

/-!
# Lines that are printed

A report prints a line of a text by its number. The line map, which gives the number, ends a line at
a carriage return as well; the lines that are printed end at line feeds only. So the line that is
printed is the one that is meant as long as no line of the text up to this one ends with a lone
carriage return, and the first line that does is printed together with what stands behind it.
-/

namespace LiveCheck

open Text
open Scanner (isLineEnd)

/-- The characters of a line without its end. -/
def LineMap.lineText? (m : LineMap) (text : String) (line : Nat) : Option (List Char) := do
  let start ← m.lineStart? line
  let stop := (m.lineStart? (line + 1)).getD text.utf8ByteSize
  return (slice text.toList start stop).takeWhile (!isLineEnd ·)

/-- A carriage return that no line feed follows stands at the offset. -/
def LoneReturn (text : String) (o : Nat) : Prop :=
  ∃ before behind, text.toList = before ++ '\r' :: behind ∧ behind.head? ≠ some '\n' ∧
    byteLength before = o

/-! ## Lines that end with line feeds -/

namespace Text

variable {cs front rest more : List Char} {text : String}

private theorem length_splitChars (separator : Char) (cs : List Char) :
    (splitChars separator cs).length = cs.count separator + 1 := by
  induction cs with
  | nil => rfl
  | cons c cs ih =>
    rw [splitChars, List.count_cons]
    split
    · next hc => simp [hc, ih]
    · next hc =>
      obtain ⟨piece, pieces, hpieces⟩ := List.exists_cons_of_ne_nil (splitChars_ne_nil separator cs)
      rw [hpieces] at ih ⊢
      simpa [consPiece, hc] using ih

private theorem splitChars_eq_singleton {separator : Char} (h : separator ∉ cs) :
    splitChars separator cs = [cs] := by
  induction cs with
  | nil => rfl
  | cons c cs ih =>
    obtain ⟨hc, hcs⟩ := not_or.mp (mt List.mem_cons.mpr h)
    rw [splitChars, if_neg (Ne.symm hc), ih hcs, consPiece]

private theorem lines_append (htext : text.toList = cs ++ '\n' :: more) :
    lines text =
      ((splitChars '\n' cs).map String.ofList).map withoutReturn ++ lines (String.ofList more) := by
  have hsplit : split '\n' text =
      (splitChars '\n' cs).map String.ofList ++ split '\n' (String.ofList more) := by
    rw [split, htext, splitChars_append, List.map_append, split, String.toList_ofList]
  have hne := split_ne_nil '\n' (String.ofList more)
  obtain ⟨last, hlast⟩ := List.getLast?_isSome.mpr hne |> Option.isSome_iff_exists.mp
  simp only [lines, hsplit]
  rw [List.dropLast_append_of_ne_nil hne, List.map_append, List.getLast?_append, hlast,
    Option.some_or, List.append_assoc]

private theorem getElem?_lines (htext : text.toList = front ++ rest)
    (hfront : front = [] ∨ front.getLast? = some '\n') :
    (lines text)[front.count '\n']? = (lines (String.ofList rest)).head? := by
  rcases hfront with rfl | hlast
  · rw [List.nil_append] at htext
    rw [← htext, String.ofList_toList, List.count_nil, List.head?_eq_getElem?]
  · obtain ⟨cs, rfl⟩ := List.getLast?_eq_some_iff.mp hlast
    rw [List.append_assoc, List.singleton_append] at htext
    have hcount : ((splitChars '\n' cs).map String.ofList).length = (cs ++ ['\n']).count '\n' := by
      rw [List.length_map, length_splitChars, List.count_append]
      rfl
    rw [lines_append htext, List.getElem?_append_right (by rw [List.length_map, hcount]),
      List.length_map, hcount, Nat.sub_self, List.head?_eq_getElem?]

private theorem head?_lines_append (hcs : '\n' ∉ cs) :
    (lines (String.ofList (cs ++ '\n' :: more))).head? =
      some (withoutReturn (String.ofList cs)) := by
  rw [lines_append String.toList_ofList, splitChars_eq_singleton hcs]
  rfl

private theorem head?_lines_of_notMem (hcs : '\n' ∉ cs) (hne : cs ≠ []) :
    (lines (String.ofList cs)).head? = some (String.ofList cs) := by
  have hempty : (String.ofList cs).isEmpty = false := by
    rw [Bool.eq_false_iff, Ne, String.isEmpty_iff]
    intro hnil
    refine hne ?_
    rw [← String.toList_ofList (l := cs), hnil]
    rfl
  simp [lines, split, String.toList_ofList, splitChars_eq_singleton hcs, hempty]

private theorem exists_feed (cs : List Char) :
    ∃ line ending, cs = line ++ ending ∧ '\n' ∉ line ∧
      (ending = [] ∨ ∃ more, ending = '\n' :: more) := by
  induction cs with
  | nil => exact ⟨[], [], rfl, List.not_mem_nil, .inl rfl⟩
  | cons c cs ih =>
    by_cases hc : c = '\n'
    · exact ⟨[], c :: cs, rfl, List.not_mem_nil, .inr ⟨cs, by rw [hc]⟩⟩
    · obtain ⟨line, ending, rfl, hline, hending⟩ := ih
      exact ⟨c :: line, ending, rfl, List.not_mem_cons_of_ne_of_not_mem (Ne.symm hc) hline, hending⟩

private theorem withoutReturn_append (cs : List Char) :
    withoutReturn (String.ofList (cs ++ ['\r'])) = String.ofList cs := by
  simp [withoutReturn]

private theorem mem_withoutReturn {c d : Char} (h : c ∈ cs) :
    c ∈ (withoutReturn (String.ofList (cs ++ [d]))).toList := by
  rw [withoutReturn, String.toList_ofList, List.reverse_append]
  split
  · next rest hrest =>
    have hcs : cs.reverse = rest := (List.cons.inj hrest).2
    rw [String.toList_ofList, ← hcs, List.reverse_reverse]
    exact h
  · rw [String.toList_ofList]
    exact List.mem_append_left _ h

private theorem withoutReturn_of_notMem (h : '\r' ∉ cs) :
    withoutReturn (String.ofList cs) = String.ofList cs := by
  rw [withoutReturn, String.toList_ofList]
  split
  · next rest hrest =>
    refine absurd (List.mem_reverse.mp ?_) h
    rw [hrest]
    exact List.mem_cons_self
  · rfl

/-- No line that is printed holds a line feed. -/
theorem notMem_of_mem_lines {line : String} (h : line ∈ lines text) : '\n' ∉ line.toList := by
  rcases List.mem_append.mp h with h | h
  · obtain ⟨piece, hpiece, rfl⟩ := List.mem_map.mp h
    have hpiece := not_mem_of_mem_split (List.dropLast_subset _ hpiece)
    rw [withoutReturn]
    split
    · next rest hrest =>
      rw [String.toList_ofList, List.mem_reverse]
      intro hmem
      exact hpiece (List.mem_reverse.mp (hrest ▸ List.mem_cons_of_mem _ hmem))
    · exact hpiece
  · obtain ⟨hlast, -⟩ := Option.filter_eq_some_iff.mp (Option.mem_toList.mp h)
    exact not_mem_of_mem_split (List.mem_of_getLast? hlast)

end Text

/-! ## Lines of the line map -/

namespace LineMap

variable {text : String} {front body rest more : List Char} {line o : Nat}

private def Paired (front : List Char) : Prop :=
  ∀ before behind, front = before ++ '\r' :: behind → behind.head? = some '\n'

private theorem Paired.of_append (front : List Char) (h : Paired (front ++ rest)) :
    Paired rest := by
  rintro before behind rfl
  exact h (front ++ before) behind (List.append_assoc _ _ _).symm

private theorem getLast?_of_cons {c d : Char} (h : (c :: front).getLast? = some d) :
    front = [] ∨ front.getLast? = some d := by
  cases front with
  | nil => exact .inl rfl
  | cons e front => exact .inr (by rwa [List.getLast?_cons_cons] at h)

private theorem getElem?_startsAfter (base : Nat) (rest : List Char)
    (hfront : front = [] ∨ front.getLast? = some '\n') (hpaired : Paired front) :
    (base :: startsAfter base (front ++ rest))[front.count '\n']? =
      some (base + byteLength front) := by
  fun_induction startsAfter base front with
  | case1 => rfl
  | case2 base cs ih =>
    have hlast := getLast?_of_cons (hfront.resolve_left (List.cons_ne_nil _ _))
    have hcs := getLast?_of_cons (hlast.resolve_left (List.cons_ne_nil _ _))
    have hcount : ('\r' :: '\n' :: cs).count '\n' = cs.count '\n' + 1 := by simp
    have hsize : byteLength ('\r' :: '\n' :: cs) = 2 + byteLength cs := by
      simp only [byteLength, show '\r'.utf8Size = 1 from rfl, show '\n'.utf8Size = 1 from rfl]
      omega
    rw [hcount, hsize, ← Nat.add_assoc, List.getElem?_cons_succ]
    exact ih hcs (.of_append ['\r', '\n'] hpaired)
  | case3 base c cs hpair hc ih =>
    have hcs := getLast?_of_cons (hfront.resolve_left (List.cons_ne_nil _ _))
    -- A carriage return here would have to be followed by a line feed.
    obtain rfl : c = '\n' := by
      refine hc.resolve_right ?_
      rintro rfl
      obtain ⟨ds, rfl⟩ := List.head?_eq_some_iff.mp (hpaired [] cs rfl)
      exact hpair ds rfl rfl
    have hcount : ('\n' :: cs).count '\n' = cs.count '\n' + 1 := List.count_cons_self
    have hsize : byteLength ('\n' :: cs) = 1 + byteLength cs := rfl
    have hstarts : startsAfter base ('\n' :: cs ++ rest) =
        (base + 1) :: startsAfter (base + 1) (cs ++ rest) := rfl
    rw [hcount, hsize, ← Nat.add_assoc, List.getElem?_cons_succ, hstarts]
    exact ih hcs (.of_append ['\n'] hpaired)
  | case4 base c cs hpair hc ih =>
    have hlast := hfront.resolve_left (List.cons_ne_nil _ _)
    have hcs : cs.getLast? = some '\n' := by
      rcases getLast?_of_cons hlast with rfl | hcs
      · exact absurd (.inl (Option.some.inj hlast)) hc
      · exact hcs
    have hcount : (c :: cs).count '\n' = cs.count '\n' :=
      List.count_cons_of_ne fun heq => hc (.inl heq)
    have hstarts : startsAfter base (c :: cs ++ rest) =
        startsAfter (base + c.utf8Size) (cs ++ rest) := by
      rw [List.cons_append, startsAfter, if_neg hc]
      rintro ds rfl -
      exact hc (.inr rfl)
    have hmem : '\n' ∈ cs := List.mem_of_getLast? hcs
    obtain ⟨k, hk⟩ := Nat.exists_eq_add_of_lt (List.count_pos_iff.mpr hmem)
    have hlater := ih (.inr hcs) (.of_append [c] hpaired)
    rw [hk, List.getElem?_cons_succ] at hlater
    rw [hcount, hk, List.getElem?_cons_succ, hstarts, hlater, byteLength, Nat.add_assoc]

/-! ## Both kinds of lines -/

private theorem lineOf_append (htext : text.toList = front ++ (body ++ rest))
    (hstart : (ofText text).lineStart? line = some (byteLength front))
    (hbody : ∀ c ∈ body, isLineEnd c = false) :
    (ofText text).lineOf (byteLength (front ++ body)) = line := by
  refine lineOf_eq hstart (by rw [byteLength_append]; exact Nat.le_add_right _ _) ?_
  intro next hnext
  refine Nat.not_le.mp fun hle => ?_
  have hlt := lineStart?_lt hstart hnext (Nat.lt_succ_self line)
  -- The next line would have to begin in the body, behind a line end.
  rcases mem_starts.mp (List.mem_of_getElem? hnext) with
    hzero | ⟨whole, more, hwhole, hlength, hbreaks⟩
  · omega
  rw [Nat.zero_add] at hlength
  subst hlength
  obtain ⟨part, rfl, -⟩ :=
    exists_append_of_byteLength_le (htext.symm.trans hwhole) (Nat.le_of_lt hlt)
  rw [← List.append_assoc] at htext
  obtain ⟨behind, hpart, -⟩ := exists_append_of_byteLength_le (hwhole.symm.trans htext) hle
  rw [List.append_assoc, List.append_cancel_left_eq] at hpart
  have hne : part ≠ [] := by
    rintro rfl
    simp at hlt
  obtain ⟨c, hc⟩ := List.getLast?_isSome.mpr hne |> Option.isSome_iff_exists.mp
  have hend := hbody c (hpart ▸ List.mem_append_left behind (List.mem_of_getLast? hc))
  rw [Breaks, List.getLast?_append, hc] at hbreaks
  rcases hbreaks with hlast | ⟨hlast, -⟩ <;> cases Option.some.inj hlast <;> cases hend

/-- Only a line feed stands behind a carriage return that it belongs to. -/
theorem not_splitsLineEnd (htext : text.toList = front ++ rest) (h : rest.head? ≠ some '\n') :
    ¬ SplitsLineEnd text (byteLength front) := by
  rintro ⟨left, right, hleft, hlength⟩
  have hleft' : text.toList = left ++ ['\r'] ++ '\n' :: right := by
    rw [hleft, List.append_assoc]
    rfl
  obtain ⟨-, rfl⟩ := eq_of_byteLength_eq (hleft'.symm.trans htext)
    (by rw [← hlength, byteLength_append]; rfl)
  exact h rfl

private theorem exists_ending (rest : List Char) :
    ∃ body ending, rest = body ++ ending ∧ rest.takeWhile (!isLineEnd ·) = body ∧
      (∀ c ∈ body, isLineEnd c = false) ∧ ∀ c ∈ ending.head?, isLineEnd c = true := by
  refine ⟨rest.takeWhile (!isLineEnd ·), rest.dropWhile (!isLineEnd ·),
    List.takeWhile_append_dropWhile.symm, rfl, fun c hc => ?_, fun c hc => ?_⟩
  · simpa using List.mem_takeWhile_imp hc
  · have hhead := List.head?_dropWhile_not (!isLineEnd ·) rest
    rw [Option.mem_def.mp hc] at hhead
    simpa using hhead

theorem notMem_of_plain {c : Char} (hc : isLineEnd c = true)
    (hbody : ∀ c ∈ body, isLineEnd c = false) : c ∉ body :=
  fun hmem => Bool.false_ne_true ((hbody c hmem).symm.trans hc)

/-- A line of the line map goes on to the next line end. -/
theorem lineText?_eq (htext : text.toList = front ++ rest)
    (hstart : (ofText text).lineStart? line = some (byteLength front)) :
    (ofText text).lineText? text line = some (rest.takeWhile (!isLineEnd ·)) := by
  obtain ⟨cs, more, rfl, hstop, -⟩ := exists_line htext hstart
  have hslice : slice text.toList (byteLength front) (byteLength (front ++ cs)) = cs := by
    rw [slice, htext, byteLength_append, slice?_append]
    rfl
  have htake : cs.takeWhile (!isLineEnd ·) = (cs ++ more).takeWhile (!isLineEnd ·) := by
    rcases hnext : (ofText text).lineStart? (line + 1) with - | next
    · have hmore : byteLength more = 0 := by
        rw [hnext, Option.getD_none, ← byteLength_toList, htext, ← List.append_assoc,
          byteLength_append (front ++ cs)] at hstop
        omega
      obtain rfl : more = [] :=
        Decidable.byContradiction fun hne => Nat.ne_of_gt (byteLength_pos hne) hmore
      rw [List.append_nil]
    · rw [hnext, Option.getD_some] at hstop
      rw [hstop] at hnext
      obtain ⟨c, hc, hend⟩ := exists_isLineEnd htext hstart hnext
      rw [List.takeWhile_append, if_neg]
      intro hlength
      have hle : cs.takeWhile (!isLineEnd ·) <+: cs := List.takeWhile_prefix _
      rw [← hle.eq_of_length hlength] at hc
      simpa [hend] using List.mem_takeWhile_imp hc
  simp only [lineText?, hstart, hstop, hslice, htake, Option.bind_eq_bind, Option.bind_some,
    Option.pure_def]

private theorem paired_front (htext : text.toList = front ++ rest)
    (hstart : (ofText text).lineStart? line = some (byteLength front))
    (h : ∀ o < byteLength front, ¬ LoneReturn text o) :
    (front = [] ∨ front.getLast? = some '\n') ∧ Paired front := by
  have hpaired (before behind : List Char) (hfront : front = before ++ '\r' :: behind) :
      (behind ++ rest).head? = some '\n' := by
    refine Decidable.byContradiction fun hhead => ?_
    have hbefore : text.toList = before ++ '\r' :: (behind ++ rest) := by
      rw [htext, hfront]
      simp
    refine h (byteLength before) ?_ ⟨before, behind ++ rest, hbefore, hhead, rfl⟩
    rw [hfront, byteLength_append]
    exact Nat.lt_add_of_pos_right (byteLength_pos (List.cons_ne_nil _ _))
  have hlast : front = [] ∨ front.getLast? = some '\n' := by
    rcases mem_starts.mp (List.mem_of_getElem? hstart) with
      hzero | ⟨whole, more, hwhole, hlength, hbreaks⟩
    · refine .inl (Decidable.byContradiction fun hne => ?_)
      exact Nat.ne_of_gt (byteLength_pos hne) hzero
    rw [Nat.zero_add] at hlength
    obtain ⟨rfl, rfl⟩ := eq_of_byteLength_eq (hwhole.symm.trans htext) hlength
    rcases hbreaks with hlast | ⟨hlast, hhead⟩
    · exact .inr hlast
    · obtain ⟨before, rfl⟩ := List.getLast?_eq_some_iff.mp hlast
      exact absurd (hpaired before [] rfl) hhead
  refine ⟨hlast, fun before behind hfront => ?_⟩
  have hhead := hpaired before behind hfront
  cases behind with
  | nil =>
    rcases hlast with rfl | hlast
    · simp at hfront
    · rw [hfront, List.getLast?_concat] at hlast
      cases hlast
  | cons c behind => exact hhead

private theorem eq_count (htext : text.toList = front ++ rest)
    (hstart : (ofText text).lineStart? line = some (byteLength front))
    (hlast : front = [] ∨ front.getLast? = some '\n') (hpaired : Paired front) :
    line = front.count '\n' := by
  have hcount : (ofText text).lineStart? (front.count '\n') = some (byteLength front) := by
    have hcount := getElem?_startsAfter 0 rest hlast hpaired
    rwa [Nat.zero_add, ← htext] at hcount
  rcases Nat.lt_trichotomy line (front.count '\n') with hlt | heq | hlt
  · exact absurd (lineStart?_lt hstart hcount hlt) (Nat.lt_irrefl _)
  · exact heq
  · exact absurd (lineStart?_lt hcount hstart hlt) (Nat.lt_irrefl _)

/-- The line that is printed, if no line up to it ends with a carriage return alone. -/
theorem getElem?_lines_of_paired (htext : text.toList = front ++ rest) (hne : rest ≠ [])
    (hstart : (ofText text).lineStart? line = some (byteLength front))
    (h : ∀ o, LoneReturn text o → line < (ofText text).lineOf o) :
    (lines text)[line]? = some (String.ofList (rest.takeWhile (!isLineEnd ·))) := by
  have hbefore (o : Nat) (ho : o < byteLength front) : ¬ LoneReturn text o := by
    intro hlone
    have hline := (lineStart?_le_iff hstart).mpr (Nat.le_of_lt (h o hlone))
    omega
  obtain ⟨hlast, hpaired⟩ := paired_front htext hstart hbefore
  rw [eq_count htext hstart hlast hpaired, getElem?_lines htext hlast]
  obtain ⟨body, ending, rfl, htake, hbody, hending⟩ := exists_ending rest
  rw [htake]
  have hfeed : '\n' ∉ body := notMem_of_plain rfl hbody
  have hreturn : '\r' ∉ body := notMem_of_plain rfl hbody
  cases ending with
  | nil =>
    rw [List.append_nil] at hne ⊢
    exact head?_lines_of_notMem hfeed hne
  | cons c more =>
    have hc : c = '\n' ∨ c = '\r' := by simpa [isLineEnd] using hending c rfl
    rcases hc with rfl | rfl
    · rw [head?_lines_append hfeed, withoutReturn_of_notMem hreturn]
    · have hpair : more.head? = some '\n' := by
        refine Decidable.byContradiction fun hhead => ?_
        have hlone : LoneReturn text (byteLength (front ++ body)) :=
          ⟨front ++ body, more, by rw [htext, List.append_assoc], hhead, rfl⟩
        exact Nat.lt_irrefl line (lineOf_append htext hstart hbody ▸ h _ hlone)
      obtain ⟨behind, rfl⟩ := List.head?_eq_some_iff.mp hpair
      have hpiece : '\n' ∉ body ++ ['\r'] := by simp [hfeed]
      have hsplit : body ++ '\r' :: '\n' :: behind = body ++ ['\r'] ++ '\n' :: behind := by simp
      rw [hsplit, head?_lines_append hpiece, withoutReturn_append]

/-- The first line that ends with a carriage return alone is printed with it. -/
theorem mem_of_getElem?_lines {printed : String} (hlone : LoneReturn text o)
    (hfirst : ∀ o' < o, ¬ LoneReturn text o')
    (hprinted : (lines text)[(ofText text).lineOf o]? = some printed) : '\r' ∈ printed.toList := by
  obtain ⟨before, behind, htext, hhead, rfl⟩ := hlone
  obtain ⟨front, mid, rfl, hstart⟩ := exists_mid htext
  have hle : byteLength front ≤ byteLength (front ++ mid) := by
    rw [byteLength_append]
    exact Nat.le_add_right _ _
  rw [List.append_assoc] at htext
  obtain ⟨hlast, hpaired⟩ :=
    paired_front htext hstart fun o ho => hfirst o (Nat.lt_of_lt_of_le ho hle)
  rw [eq_count htext hstart hlast hpaired, getElem?_lines htext hlast] at hprinted
  have hsplits : ¬ SplitsLineEnd text (byteLength (front ++ mid)) :=
    not_splitsLineEnd (htext.trans (List.append_assoc _ _ _).symm) (by simp)
  have hmid := notMem_of_plain (c := '\n') rfl (not_isLineEnd_of_mem htext hstart hsplits)
  obtain ⟨line, ending, hbehind, hline, hending⟩ := exists_feed behind
  have hpiece : '\n' ∉ mid ++ '\r' :: line := by simp [hmid, hline]
  have hrest : mid ++ '\r' :: behind = mid ++ '\r' :: line ++ ending := by simp [hbehind]
  rw [hrest] at hprinted
  rcases hending with rfl | ⟨more, rfl⟩
  · rw [List.append_nil, head?_lines_of_notMem hpiece (by simp)] at hprinted
    cases hprinted
    simp
  · rw [head?_lines_append hpiece] at hprinted
    cases hprinted
    -- What follows the carriage return keeps it from being taken off the end.
    have hne : line ≠ [] := by
      rintro rfl
      exact hhead (by rw [hbehind]; rfl)
    obtain ⟨line, d, rfl⟩ := (List.eq_nil_or_concat line).resolve_left hne
    have hsplit : mid ++ '\r' :: line.concat d = (mid ++ '\r' :: line) ++ [d] := by simp
    rw [hsplit]
    exact mem_withoutReturn (by simp)

end LineMap
end LiveCheck
