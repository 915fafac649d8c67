import LiveCheck.Proofs.Coverage

/-!
# Offsets and positions

The line map of a text takes every offset between two characters to a position of its own, in the
order of the text, and takes this position back to the offset. Only the position between a carriage
return and its line feed leads elsewhere, to the end of the line. Whatever the column, a position in
a line of the text has an offset in this line that is not behind the line's end.
-/

namespace LiveCheck

open Text

/-- The first position comes before the second one: in an earlier line, or further left. -/
def Position.Before (p q : Position) : Prop :=
  p.line < q.line ∨ p.line = q.line ∧ p.character < q.character

namespace Text

variable {before behind cs ds : List Char} {c : Char}

private theorem length16_append (cs ds : List Char) :
    length16 (cs ++ ds) = length16 cs + length16 ds := by
  induction cs with
  | nil => simp [length16]
  | cons c cs ih => simp only [List.cons_append, length16, ih]; omega

theorem units16_pos (c : Char) : 0 < units16 c := by
  rw [units16]
  split <;> decide

private theorem length16_pos (h : cs ≠ []) : 0 < length16 cs := by
  cases cs with
  | nil => exact absurd rfl h
  | cons c cs => exact Nat.add_pos_left (units16_pos c) _

/-- Of two beginnings of a text, the one with fewer bytes is part of the other. -/
theorem exists_append_of_byteLength_le {before' behind' : List Char}
    (h : before ++ behind = before' ++ behind') (hle : byteLength before ≤ byteLength before') :
    ∃ mid, before' = before ++ mid ∧ behind = mid ++ behind' := by
  rcases List.append_eq_append_iff.mp h with ⟨mid, rfl, rfl⟩ | ⟨mid, rfl, rfl⟩
  · exact ⟨mid, rfl, rfl⟩
  · have hmid : mid = [] := by
      refine Decidable.byContradiction fun hne => ?_
      have hpos := byteLength_pos hne
      rw [byteLength_append] at hle
      omega
    exact ⟨[], by simp [hmid], by simp [hmid]⟩

/-! ## Where lines begin -/

/-- A line begins between the two parts of a text: a line end stands before it, and is whole. -/
def Breaks (before behind : List Char) : Prop :=
  before.getLast? = some '\n' ∨ before.getLast? = some '\r' ∧ behind.head? ≠ some '\n'

/-- A line begins at an offset, behind the first line of characters that begin at another offset. -/
def BreaksAt (base : Nat) (cs : List Char) (o : Nat) : Prop :=
  ∃ before behind, cs = before ++ behind ∧ base + byteLength before = o ∧ Breaks before behind

variable {base o : Nat}

private theorem not_breaksAt_nil : ¬ BreaksAt base [] o := by
  rintro ⟨before, behind, hnil, -, hbreaks⟩
  obtain ⟨rfl, -⟩ := List.append_eq_nil_iff.mp hnil.symm
  rcases hbreaks with hbreaks | ⟨hbreaks, -⟩ <;> cases hbreaks

private theorem breaksAt_cons : BreaksAt base (c :: cs) o ↔
    (o = base + c.utf8Size ∧ Breaks [c] cs) ∨ BreaksAt (base + c.utf8Size) cs o := by
  constructor
  · rintro ⟨before, behind, heq, rfl, hbreaks⟩
    rcases before with - | ⟨d, - | ⟨e, before⟩⟩
    · rcases hbreaks with hbreaks | ⟨hbreaks, -⟩ <;> cases hbreaks
    · obtain ⟨rfl, rfl⟩ := List.cons.inj heq
      exact .inl ⟨rfl, hbreaks⟩
    · obtain ⟨rfl, rfl⟩ := List.cons.inj heq
      refine .inr ⟨e :: before, behind, rfl, ?_, ?_⟩
      · simp only [byteLength]
        omega
      · simpa only [Breaks, List.getLast?_cons_cons] using hbreaks
  · rintro (⟨rfl, hbreaks⟩ | ⟨before, behind, rfl, rfl, hbreaks⟩)
    · exact ⟨[c], cs, rfl, rfl, hbreaks⟩
    · refine ⟨c :: before, behind, rfl, ?_, ?_⟩
      · simp only [byteLength]
        omega
      · cases before with
        | nil => rcases hbreaks with hbreaks | ⟨hbreaks, -⟩ <;> cases hbreaks
        | cons d before => simpa only [Breaks, List.getLast?_cons_cons] using hbreaks

end Text

namespace LineMap

open Scanner (isLineEnd)

variable {text : String} {before mid behind cs more : List Char} {base o line start : Nat}

/-- The offset stands between two characters of the text, before the first or behind the last. -/
def Boundary (text : String) (o : Nat) : Prop :=
  ∃ before behind, text.toList = before ++ behind ∧ byteLength before = o

/-- The offset stands between a carriage return and the line feed that belongs to it. -/
def SplitsLineEnd (text : String) (o : Nat) : Prop :=
  ∃ before behind, text.toList = before ++ '\r' :: '\n' :: behind ∧ byteLength before + 1 = o

private theorem mem_startsAfter : o ∈ startsAfter base cs ↔ BreaksAt base cs o := by
  fun_induction startsAfter base cs with
  | case1 => simp [not_breaksAt_nil]
  | case2 base cs ih =>
    have hbreaks : Breaks ['\n'] cs := .inl rfl
    have hnot : ¬ Breaks ['\r'] ('\n' :: cs) := by simp [Breaks]
    have hr : '\r'.utf8Size = 1 := rfl
    have hn : '\n'.utf8Size = 1 := rfl
    rw [breaksAt_cons, breaksAt_cons, List.mem_cons, ih]
    simp [hbreaks, hnot, hr, hn, Nat.add_assoc]
  | case3 base c cs hpair hc ih =>
    have hbreaks : Breaks [c] cs := by
      rcases hc with rfl | rfl
      · exact .inl rfl
      · refine .inr ⟨rfl, fun hhead => ?_⟩
        obtain ⟨ds, rfl⟩ := List.head?_eq_some_iff.mp hhead
        exact hpair ds rfl rfl
    have hsize : c.utf8Size = 1 := by rcases hc with rfl | rfl <;> rfl
    rw [breaksAt_cons, List.mem_cons, ih, hsize]
    simp [hbreaks]
  | case4 base c cs hpair hc ih =>
    have hbreaks : ¬ Breaks [c] cs := by
      rintro (hlast | ⟨hlast, -⟩)
      · exact hc (.inl (Option.some.inj hlast))
      · exact hc (.inr (Option.some.inj hlast))
    rw [breaksAt_cons, ih]
    simp [hbreaks]

private theorem lt_of_mem_startsAfter (h : o ∈ startsAfter base cs) : base < o := by
  obtain ⟨before, behind, -, rfl, hbreaks⟩ := mem_startsAfter.mp h
  refine Nat.lt_add_of_pos_right (byteLength_pos ?_)
  rintro rfl
  rcases hbreaks with hbreaks | ⟨hbreaks, -⟩ <;> cases hbreaks

private theorem pairwise_startsAfter (base : Nat) (cs : List Char) :
    (startsAfter base cs).Pairwise (· < ·) := by
  fun_induction startsAfter base cs with
  | case1 => exact .nil
  | case2 base cs ih => exact ih.cons fun _ h => lt_of_mem_startsAfter h
  | case3 base c cs _ _ ih => exact ih.cons fun _ h => lt_of_mem_startsAfter h
  | case4 base c cs _ _ ih => exact ih

private theorem pairwise_starts (text : String) : (ofText text).starts.Pairwise (· < ·) :=
  (pairwise_startsAfter 0 text.toList).cons fun _ h => lt_of_mem_startsAfter h

theorem mem_starts : o ∈ (ofText text).starts ↔ o = 0 ∨ BreaksAt 0 text.toList o := by
  rw [ofText, List.mem_cons, mem_startsAfter]

private theorem boundary_of_mem_starts (h : o ∈ (ofText text).starts) : Boundary text o := by
  rcases mem_starts.mp h with rfl | ⟨before, behind, heq, rfl, -⟩
  · exact ⟨[], text.toList, rfl, rfl⟩
  · exact ⟨before, behind, heq, (Nat.zero_add _).symm⟩

/-! ## The line of an offset -/

private theorem le_iff_lt_countP {starts : List Nat} {i x : Nat} (h : starts.Pairwise (· < ·))
    (hx : starts[i]? = some x) : x ≤ o ↔ i < starts.countP (· ≤ o) := by
  induction starts generalizing i with
  | nil => cases hx
  | cons a starts ih =>
    obtain ⟨hlt, hrest⟩ := List.pairwise_cons.mp h
    by_cases ha : a ≤ o
    · rw [List.countP_cons_of_pos (by simpa using ha)]
      cases i with
      | zero =>
        cases hx
        simp [ha]
      | succ i => rw [ih hrest hx, Nat.add_lt_add_iff_right]
    · have hnone : starts.countP (· ≤ o) = 0 := by
        refine List.countP_eq_zero.mpr fun b hb => ?_
        have hab := hlt b hb
        simp only [decide_eq_true_eq]
        omega
      rw [List.countP_cons_of_neg (by simpa using ha), hnone]
      refine ⟨fun hle => ?_, fun hlt' => absurd hlt' (Nat.not_lt_zero i)⟩
      rcases List.mem_cons.mp (List.mem_of_getElem? hx) with rfl | hmem
      · exact absurd hle ha
      · have hax := hlt x hmem
        omega

private theorem countP_pos (text : String) (o : Nat) : 0 < (ofText text).starts.countP (· ≤ o) := by
  rw [ofText, List.countP_cons_of_pos (by simp)]
  exact Nat.succ_pos _

theorem lineStart?_le_iff (h : (ofText text).lineStart? line = some start) :
    start ≤ o ↔ line ≤ (ofText text).lineOf o := by
  have hpos := countP_pos text o
  rw [le_iff_lt_countP (pairwise_starts text) h, lineOf]
  omega

private theorem exists_lineStart? (text : String) (o : Nat) :
    ∃ start, (ofText text).lineStart? ((ofText text).lineOf o) = some start ∧ start ≤ o := by
  have hpos := countP_pos text o
  have hlt : (ofText text).lineOf o < (ofText text).starts.length := by
    have hle := List.countP_le_length (p := (· ≤ o)) (l := (ofText text).starts)
    rw [lineOf]
    omega
  have hstart : (ofText text).lineStart? ((ofText text).lineOf o) =
      some (ofText text).starts[(ofText text).lineOf o] := List.getElem?_eq_getElem hlt
  exact ⟨_, hstart, (lineStart?_le_iff hstart).mpr (Nat.le_refl _)⟩

private theorem lt_lineStart?
    (h : (ofText text).lineStart? ((ofText text).lineOf o + 1) = some start) :
    o < start := by
  rw [← Nat.not_le, lineStart?_le_iff h]
  omega

private theorem lineOf_mono {o' : Nat} (h : o ≤ o') :
    (ofText text).lineOf o ≤ (ofText text).lineOf o' := by
  obtain ⟨start, hstart, hle⟩ := exists_lineStart? text o
  exact (lineStart?_le_iff hstart).mp (Nat.le_trans hle h)

theorem lineOf_eq (hstart : (ofText text).lineStart? line = some start) (hle : start ≤ o)
    (hnext : ∀ next, (ofText text).lineStart? (line + 1) = some next → o < next) :
    (ofText text).lineOf o = line := by
  refine Nat.le_antisymm (Nat.not_lt.mp fun hlt => ?_) ((lineStart?_le_iff hstart).mp hle)
  obtain ⟨last, hlast, -⟩ := exists_lineStart? text o
  have hlength : line + 1 < (ofText text).starts.length :=
    Nat.lt_of_le_of_lt hlt (List.getElem?_eq_some_iff.mp hlast).1
  have hget : (ofText text).lineStart? (line + 1) = some (ofText text).starts[line + 1] :=
    List.getElem?_eq_getElem hlength
  have hbefore := (lineStart?_le_iff hget).mpr hlt
  exact Nat.not_lt.mpr hbefore (hnext _ hget)

theorem lineStart?_lt {i j x y : Nat} (hx : (ofText text).lineStart? i = some x)
    (hy : (ofText text).lineStart? j = some y) (h : i < j) : x < y := by
  obtain ⟨hi, rfl⟩ := List.getElem?_eq_some_iff.mp hx
  obtain ⟨hj, rfl⟩ := List.getElem?_eq_some_iff.mp hy
  exact List.pairwise_iff_getElem.mp (pairwise_starts text) _ _ hi hj h

private theorem le_lineStart {x : Nat} (hx : x ∈ (ofText text).starts) (hle : x ≤ o)
    (hstart : (ofText text).lineStart? ((ofText text).lineOf o) = some start) : x ≤ start := by
  obtain ⟨i, hi⟩ := List.mem_iff_getElem?.mp hx
  have hline : i ≤ (ofText text).lineOf o := (lineStart?_le_iff hi).mp hle
  rcases Nat.lt_or_eq_of_le hline with hlt | rfl
  · exact Nat.le_of_lt (lineStart?_lt hi hstart hlt)
  · exact Nat.le_of_eq (Option.some.inj (hi.symm.trans hstart))

/-- What stands before an offset ends with a part of the offset's line. -/
theorem exists_mid (htext : text.toList = before ++ behind) :
    ∃ front mid, before = front ++ mid ∧
      (ofText text).lineStart? ((ofText text).lineOf (byteLength before)) =
        some (byteLength front) := by
  obtain ⟨start, hstart, hle⟩ := exists_lineStart? text (byteLength before)
  obtain ⟨front, rest, hfront, rfl⟩ :=
    boundary_of_mem_starts (List.mem_of_getElem? (i := (ofText text).lineOf _) hstart)
  obtain ⟨mid, rfl, -⟩ := exists_append_of_byteLength_le (hfront.symm.trans htext) hle
  exact ⟨front, mid, rfl, hstart⟩

/-- Between the beginning of its line and an offset no line ends. -/
theorem not_isLineEnd_of_mem (htext : text.toList = before ++ (mid ++ behind))
    (hstart : (ofText text).lineStart? ((ofText text).lineOf (byteLength (before ++ mid))) =
      some (byteLength before))
    (hsplits : ¬ SplitsLineEnd text (byteLength (before ++ mid))) :
    ∀ c ∈ mid, isLineEnd c = false := by
  -- A line that began inside would have to begin before its own line.
  have hnone (left right : List Char) (c : Char) (hmid : mid = left ++ c :: right) :
      ¬ Breaks (before ++ left ++ [c]) (right ++ behind) := by
    intro hbreaks
    have hmem : byteLength (before ++ left ++ [c]) ∈ (ofText text).starts :=
      mem_starts.mpr (.inr ⟨before ++ left ++ [c], right ++ behind, by simp [htext, hmid],
        Nat.zero_add _, hbreaks⟩)
    have hc := c.utf8Size_pos
    have hle := le_lineStart hmem (by simp only [hmid, byteLength_append, byteLength]; omega) hstart
    simp only [byteLength_append, byteLength] at hle
    omega
  intro c hc
  obtain ⟨left, right, hmid⟩ := List.append_of_mem hc
  rw [isLineEnd, Bool.or_eq_false_iff, beq_eq_false_iff_ne, beq_eq_false_iff_ne]
  constructor
  · rintro rfl
    exact hnone left right _ hmid (.inl List.getLast?_concat)
  · rintro rfl
    refine hnone left right _ hmid (.inr ⟨List.getLast?_concat, fun hhead => ?_⟩)
    cases right with
    | nil =>
      obtain ⟨rest, rfl⟩ := List.head?_eq_some_iff.mp hhead
      refine hsplits ⟨before ++ left, rest, by simp [htext, hmid], ?_⟩
      rw [hmid, ← List.append_assoc, byteLength_append (before ++ left)]
      rfl
    | cons d right =>
      cases Option.some.inj hhead
      exact hnone (left ++ ['\r']) right '\n' (by simp [hmid]) (.inl List.getLast?_concat)

/-! ## From offsets to positions and back -/

theorem byteLength_toList (text : String) : byteLength text.toList = text.utf8ByteSize := by
  rw [← utf8ByteSize_ofList, String.ofList_toList]

theorem position_eq (htext : text.toList = before ++ (mid ++ behind))
    (hstart : (ofText text).lineStart? ((ofText text).lineOf (byteLength (before ++ mid))) =
      some (byteLength before)) :
    (ofText text).position text (byteLength (before ++ mid)) =
      ⟨(ofText text).lineOf (byteLength (before ++ mid)), length16 mid⟩ := by
  have hsize := byteLength_toList text
  rw [htext, byteLength_append, byteLength_append] at hsize
  have hstop : min (byteLength (before ++ mid)) text.utf8ByteSize =
      byteLength before + byteLength mid := by
    rw [byteLength_append]
    omega
  have hmin : min (byteLength before) (byteLength before + byteLength mid) = byteLength before := by
    omega
  simp only [position, hstart, Option.getD_some, hstop, hmin, slice, htext, slice?_append]

private theorem columnBytes_append (h : ∀ c ∈ mid, isLineEnd c = false) :
    columnBytes (mid ++ more) (length16 mid) = byteLength mid := by
  induction mid with
  | nil =>
    cases more with
    | nil => rfl
    | cons c more =>
      have hpos := units16_pos c
      simp only [List.nil_append, columnBytes, length16, byteLength, if_pos hpos, ite_self]
  | cons c mid ih =>
    have hc : ¬ (c = '\n' ∨ c = '\r') := by
      have hc := h c List.mem_cons_self
      simpa [isLineEnd] using hc
    have hle : ¬ units16 c + length16 mid < units16 c := Nat.not_lt.mpr (Nat.le_add_right _ _)
    simp only [List.cons_append, columnBytes, length16, byteLength, if_neg hc, if_neg hle,
      Nat.add_sub_cancel_left, ih fun d hd => h d (List.mem_cons_of_mem c hd)]

private theorem exists_columnBytes (cs : List Char) (column : Nat) :
    ∃ taken rest, cs = taken ++ rest ∧ (∀ c ∈ taken, isLineEnd c = false) ∧
      columnBytes cs column = byteLength taken := by
  induction cs generalizing column with
  | nil => exact ⟨[], [], rfl, nofun, rfl⟩
  | cons c cs ih =>
    simp only [columnBytes]
    split
    · exact ⟨[], c :: cs, rfl, nofun, rfl⟩
    rename_i hc
    split
    · exact ⟨[], c :: cs, rfl, nofun, rfl⟩
    obtain ⟨taken, rest, rfl, htaken, heq⟩ := ih (column - units16 c)
    refine ⟨c :: taken, rest, rfl, fun d hd => ?_, by rw [heq, byteLength]⟩
    rcases List.mem_cons.mp hd with rfl | hd
    · simpa [isLineEnd] using hc
    · exact htaken d hd

/-- The characters of a line with its end, from which the offset of a column is taken. -/
theorem exists_line (htext : text.toList = before ++ behind)
    (hstart : (ofText text).lineStart? line = some (byteLength before)) :
    ∃ cs rest, behind = cs ++ rest ∧
      ((ofText text).lineStart? (line + 1)).getD text.utf8ByteSize = byteLength (before ++ cs) ∧
      ∀ column, (ofText text).offset? text ⟨line, column⟩ =
        some (byteLength before + columnBytes cs column) := by
  have hstop : ∃ whole rest, text.toList = whole ++ rest ∧
      ((ofText text).lineStart? (line + 1)).getD text.utf8ByteSize = byteLength whole ∧
      byteLength before ≤ byteLength whole := by
    rcases hnext : (ofText text).lineStart? (line + 1) with - | next
    · refine ⟨text.toList, [], (List.append_nil _).symm, (byteLength_toList text).symm, ?_⟩
      rw [htext, byteLength_append]
      exact Nat.le_add_right _ _
    · obtain ⟨whole, rest, hwhole, rfl⟩ := boundary_of_mem_starts (List.mem_of_getElem? hnext)
      refine ⟨whole, rest, hwhole, rfl, Nat.le_of_lt ?_⟩
      exact lineStart?_lt hstart hnext (Nat.lt_succ_self line)
  obtain ⟨whole, rest, hwhole, hstop, hle⟩ := hstop
  obtain ⟨cs, rfl, rfl⟩ := exists_append_of_byteLength_le (htext.symm.trans hwhole) hle
  refine ⟨cs, rest, rfl, hstop, fun column => ?_⟩
  have hslice : slice text.toList (byteLength before) (byteLength (before ++ cs)) = cs := by
    rw [slice, htext, byteLength_append, slice?_append]
    rfl
  simp only [offset?, hstart, hstop, hslice, Option.bind_eq_bind, Option.bind_some, Option.pure_def]

/-- A line that is not the last one has a line end. -/
theorem exists_isLineEnd (htext : text.toList = before ++ (cs ++ more))
    (hstart : (ofText text).lineStart? line = some (byteLength before))
    (hnext : (ofText text).lineStart? (line + 1) = some (byteLength (before ++ cs))) :
    ∃ c ∈ cs, isLineEnd c = true := by
  have hlt := lineStart?_lt hstart hnext (Nat.lt_succ_self line)
  have hne : cs ≠ [] := by
    rintro rfl
    simp at hlt
  rcases mem_starts.mp (List.mem_of_getElem? hnext) with
    hzero | ⟨whole, rest, hwhole, hlength, hbreaks⟩
  · omega
  rw [Nat.zero_add] at hlength
  obtain ⟨rfl, -⟩ := eq_of_byteLength_eq
    (hwhole.symm.trans (htext.trans (List.append_assoc before cs more).symm)) hlength
  obtain ⟨c, hc⟩ := List.getLast?_isSome.mpr hne |> Option.isSome_iff_exists.mp
  refine ⟨c, List.mem_of_getLast? hc, ?_⟩
  rw [Breaks, List.getLast?_append, hc] at hbreaks
  rcases hbreaks with hlast | ⟨hlast, -⟩
  · cases Option.some.inj hlast
    rfl
  · cases Option.some.inj hlast
    rfl

end LineMap

open LineMap Scanner in
/-- Offsets between the characters of a text and positions in it stand for one another. -/
structure LineMap.Converts (text : String) (m : LineMap) : Prop where
  /-- The position of an offset leads back to the offset. -/
  offset : ∀ o, Boundary text o → ¬ SplitsLineEnd text o →
    m.offset? text (m.position text o) = some o
  /-- It leads back to itself as well. -/
  position : ∀ o, Boundary text o → ¬ SplitsLineEnd text o →
    (m.offset? text (m.position text o)).map (m.position text) = some (m.position text o)
  /-- A later offset has a later position. -/
  increasing : ∀ o o', Boundary text o → Boundary text o' → o < o' →
    (m.position text o).Before (m.position text o')
  /-- A column of a line leads to an offset in this line, with no line end before it. -/
  inLine : ∀ line start column, m.lineStart? line = some start →
    ∃ before taken behind, text.toList = before ++ (taken ++ behind) ∧ byteLength before = start ∧
      (∀ c ∈ taken, isLineEnd c = false) ∧
      m.offset? text ⟨line, column⟩ = some (byteLength (before ++ taken)) ∧
      (m.position text (byteLength (before ++ taken))).line = line

namespace LineMap

open Scanner (isLineEnd)

variable {text : String} {o : Nat}

private theorem offset?_position (ho : Boundary text o) (hsplits : ¬ SplitsLineEnd text o) :
    (ofText text).offset? text ((ofText text).position text o) = some o := by
  obtain ⟨front, behind, htext, rfl⟩ := ho
  obtain ⟨before, mid, rfl, hstart⟩ := exists_mid htext
  rw [List.append_assoc] at htext
  have hinside := not_isLineEnd_of_mem htext hstart hsplits
  obtain ⟨cs, rest, hbehind, hstop, hoffset⟩ := exists_line htext hstart
  have hle : byteLength (before ++ mid) ≤ byteLength (before ++ cs) := by
    rw [← hstop]
    rcases hnext : (ofText text).lineStart? _ with - | next
    · rw [Option.getD_none, ← byteLength_toList, htext, ← List.append_assoc,
        byteLength_append (before ++ mid)]
      exact Nat.le_add_right _ _
    · exact Nat.le_of_lt (lt_lineStart? hnext)
  have hlength : byteLength mid ≤ byteLength cs := by
    rw [byteLength_append, byteLength_append] at hle
    omega
  obtain ⟨more, hmore, -⟩ := exists_append_of_byteLength_le hbehind hlength
  rw [position_eq htext hstart, hoffset, hmore, columnBytes_append hinside, byteLength_append]

private theorem position_before {o' : Nat} (ho : Boundary text o) (ho' : Boundary text o')
    (h : o < o') :
    ((ofText text).position text o).Before ((ofText text).position text o') := by
  obtain ⟨front, behind, htext, rfl⟩ := ho
  obtain ⟨front', behind', htext', rfl⟩ := ho'
  obtain ⟨extra, rfl, rfl⟩ :=
    exists_append_of_byteLength_le (htext.symm.trans htext') (Nat.le_of_lt h)
  obtain ⟨before, mid, rfl, hstart⟩ := exists_mid htext
  have hposition := position_eq ((List.append_assoc before mid _).symm ▸ htext) hstart
  rw [hposition]
  have hline : (ofText text).lineOf (byteLength (before ++ mid)) ≤
      (ofText text).lineOf (byteLength (before ++ mid ++ extra)) := lineOf_mono (Nat.le_of_lt h)
  rcases Nat.lt_or_eq_of_le hline with hlt | heq
  · exact .inl hlt
  · have hextra : extra ≠ [] := by
      rintro rfl
      simp at h
    rw [List.append_assoc before mid extra] at heq htext' ⊢
    rw [List.append_assoc before] at htext'
    rw [position_eq htext' (heq ▸ hstart)]
    refine .inr ⟨heq, ?_⟩
    show length16 mid < length16 (mid ++ extra)
    rw [length16_append]
    exact Nat.lt_add_of_pos_right (length16_pos hextra)

private theorem exists_offset? {line start : Nat} (column : Nat)
    (h : (ofText text).lineStart? line = some start) :
    ∃ before taken behind, text.toList = before ++ (taken ++ behind) ∧ byteLength before = start ∧
      (∀ c ∈ taken, isLineEnd c = false) ∧
      (ofText text).offset? text ⟨line, column⟩ = some (byteLength (before ++ taken)) ∧
      ((ofText text).position text (byteLength (before ++ taken))).line = line := by
  obtain ⟨before, behind, htext, rfl⟩ := boundary_of_mem_starts (List.mem_of_getElem? h)
  obtain ⟨cs, rest, rfl, hstop, hoffset⟩ := exists_line htext h
  obtain ⟨taken, more, rfl, htaken, hcolumn⟩ := exists_columnBytes cs column
  refine ⟨before, taken, more ++ rest, by rw [htext, List.append_assoc], rfl, htaken,
    by rw [hoffset, hcolumn, byteLength_append], lineOf_eq h ?_ fun next hnext => ?_⟩
  · rw [byteLength_append]
    exact Nat.le_add_right _ _
  -- The line goes on behind the column, with its end at the latest.
  rw [hnext, Option.getD_some] at hstop
  subst hstop
  obtain ⟨c, hc, hend⟩ := exists_isLineEnd htext h hnext
  have hmore : more ≠ [] := by
    rintro rfl
    rw [List.append_nil] at hc
    exact Bool.false_ne_true ((htaken c hc).symm.trans hend)
  have hpos := byteLength_pos hmore
  simp only [byteLength_append]
  omega

/-- **Offsets and positions round trip.** -/
theorem converts_ofText (text : String) : (ofText text).Converts text where
  offset _ ho hsplits := offset?_position ho hsplits
  position _ ho hsplits := by rw [offset?_position ho hsplits, Option.map_some]
  increasing _ _ ho ho' h := position_before ho ho' h
  inLine _ _ column h := exists_offset? column h

end LineMap
end LiveCheck
