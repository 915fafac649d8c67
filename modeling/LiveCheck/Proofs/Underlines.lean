import LiveCheck.Proofs.PrintedLines
import LiveCheck.Report.Text
import Mathlib.Data.List.DropRight
import Mathlib.Data.List.Infix

/-!
# What a report underlines

A report gives the place of a diagnostic, prints the line of this place and marks characters below
it. The place comes from the line map, with a column in UTF-16 code units; the marks count
characters, but as many as the column and the number of bytes say. So they stand below the
characters of the span if none of the characters before takes two code units, and those marked take
one byte each or reach to the end of the line.
-/

namespace LiveCheck

open Text
open Scanner (isLineEnd)

/-- A row below the characters of a line that begins at an offset: each character has one column,
and a tab four, with marks if all its bytes lie in the span and with blanks otherwise. -/
def markRow (s : Span) : Nat → List Char → List Char
  | _, [] => []
  | o, c :: cs =>
    List.replicate (if c = '\t' then 4 else 1)
        (if s.start ≤ o ∧ o + c.utf8Size ≤ s.stop then '~' else ' ') ++
      markRow s (o + c.utf8Size) cs

/-- The row up to its last mark; one mark behind the line if the row has none. -/
def marksBelow (s : Span) (o : Nat) (line : List Char) : List Char :=
  if '~' ∈ markRow s o line then (markRow s o line).rdropWhile (· = ' ')
  else markRow s o line ++ ['~']

namespace Reporter

/-- The source of a diagnostic is at hand, and its span holds some of the characters. -/
structure Shows (r : Reporter) (d : Diagnostic) (source : String) : Prop where
  source? : r.source? d.file = some source
  nonempty : d.span.start < d.span.stop
  start : LineMap.Boundary source d.span.start
  stop : LineMap.Boundary source d.span.stop

/-- A line with its number, and marks below it. -/
def printed (r : Reporter) (number : Nat) (line marks : List Char) : String :=
  "\n  " ++ padLeft 3 (Nat.repr number) ++ "   " ++ String.ofList line ++ "\n        " ++
    r.paint .red (String.ofList marks)

/-- The report prints the line that its place names, with marks below the characters of the span. -/
structure Faithful (r : Reporter) (d : Diagnostic) (source : String) : Prop where
  place : r.place d = r.paint .cyan
    (d.file ++ ":" ++ Nat.repr (((LineMap.ofText source).position source d.span.start).line + 1) ++
      ":" ++ Nat.repr (((LineMap.ofText source).position source d.span.start).character + 1))
  snippet : ∃ start line,
    (LineMap.ofText source).lineStart? ((LineMap.ofText source).lineOf d.span.start) = some start ∧
    (LineMap.ofText source).lineText? source ((LineMap.ofText source).lineOf d.span.start) =
      some line ∧
    r.snippet? d = some (r.printed
      (((LineMap.ofText source).position source d.span.start).line + 1) line
      (marksBelow d.span start line))

end Reporter

/-- The line in which a span begins has nothing of the span, or both the column of the span and its
number of bytes count characters, the latter up to the end of the line. -/
def Span.Measured (s : Span) (source : String) : Prop :=
  ∃ start line,
    (LineMap.ofText source).lineStart? ((LineMap.ofText source).lineOf s.start) = some start ∧
    (LineMap.ofText source).lineText? source ((LineMap.ofText source).lineOf s.start) = some line ∧
    ((slice source.toList s.start s.stop).takeWhile (!isLineEnd ·) = [] ∨
      (∀ c ∈ slice source.toList start s.start, units16 c = 1) ∧
      (start + byteLength line ≤ s.stop ∨
        ∀ c ∈ slice source.toList s.start s.stop, c.utf8Size = 1))

variable {s : Span} {o first length : Nat} {c mark : Char} {a b cs ds m line : List Char}

/-! ## Rows -/

private theorem columns_append (mark : Char) (cs ds : List Char) :
    columns mark (cs ++ ds) = columns mark cs ++ columns mark ds :=
  List.flatMap_append

private theorem eq_of_mem_columns (h : c ∈ columns mark cs) : c = mark := by
  obtain ⟨d, -, hd⟩ := List.mem_flatMap.mp h
  exact List.eq_of_mem_replicate hd

private theorem head?_columns (mark : Char) (hcs : cs ≠ []) :
    (columns mark cs).head? = some mark := by
  obtain ⟨c, cs, rfl⟩ := List.exists_cons_of_ne_nil hcs
  rw [columns, List.flatMap_cons]
  split <;> rfl

private theorem columns_ne_nil (mark : Char) (hcs : cs ≠ []) : columns mark cs ≠ [] := by
  intro hnil
  have hhead := head?_columns mark hcs
  rw [hnil] at hhead
  cases hhead

private theorem columns_eq_replicate (mark : Char) (cs : List Char) :
    columns mark cs = List.replicate (columns mark cs).length mark :=
  List.eq_replicate_iff.mpr ⟨rfl, fun _ => eq_of_mem_columns⟩

private theorem markRow_append (s : Span) (o : Nat) (cs ds : List Char) :
    markRow s o (cs ++ ds) = markRow s o cs ++ markRow s (o + byteLength cs) ds := by
  induction cs generalizing o with
  | nil => rfl
  | cons c cs ih =>
    rw [List.cons_append, markRow, markRow, ih, byteLength, List.append_assoc, Nat.add_assoc]

private theorem markRow_of_before (h : o + byteLength cs ≤ s.start) :
    markRow s o cs = columns ' ' cs := by
  induction cs generalizing o with
  | nil => rfl
  | cons c cs ih =>
    rw [byteLength, ← Nat.add_assoc] at h
    have hpos := c.utf8Size_pos
    have hnot : ¬ (s.start ≤ o ∧ o + c.utf8Size ≤ s.stop) := by omega
    simp only [markRow, hnot, if_false, ih h, columns, List.flatMap_cons]

private theorem markRow_of_inside (hstart : s.start ≤ o) (hstop : o + byteLength cs ≤ s.stop) :
    markRow s o cs = columns '~' cs := by
  induction cs generalizing o with
  | nil => rfl
  | cons c cs ih =>
    rw [byteLength, ← Nat.add_assoc] at hstop
    have hmark : s.start ≤ o ∧ o + c.utf8Size ≤ s.stop := by omega
    simp only [markRow, hmark, and_self, if_true,
      ih (Nat.le_trans hstart (Nat.le_add_right _ _)) hstop, columns, List.flatMap_cons]

private theorem markRow_of_behind (h : s.stop ≤ o) : markRow s o cs = columns ' ' cs := by
  induction cs generalizing o with
  | nil => rfl
  | cons c cs ih =>
    have hpos := c.utf8Size_pos
    have hnot : ¬ (s.start ≤ o ∧ o + c.utf8Size ≤ s.stop) := by omega
    simp only [markRow, hnot, if_false, ih (Nat.le_trans h (Nat.le_add_right _ _)), columns,
      List.flatMap_cons]

private theorem mark_notMem_blanks (cs : List Char) : '~' ∉ columns ' ' cs :=
  fun h => absurd (eq_of_mem_columns h) (by decide)

private theorem marksBelow_of_before (h : o + byteLength cs ≤ s.start) :
    marksBelow s o cs = columns ' ' cs ++ ['~'] := by
  rw [marksBelow, markRow_of_before h, if_neg (mark_notMem_blanks cs)]

private theorem rdropWhile_blanks (cs ds : List Char) :
    (cs ++ columns ' ' ds).rdropWhile (· = ' ') = cs.rdropWhile (· = ' ') := by
  rw [columns_eq_replicate]
  induction (columns ' ' ds).length with
  | zero => rw [List.replicate_zero, List.append_nil]
  | succ n ih =>
    rw [List.replicate_succ', ← List.append_assoc, List.rdropWhile_concat_pos _ _ _ (by simp), ih]

private theorem marksBelow_of_inside (hm : m ≠ []) (hstart : o + byteLength b = s.start)
    (hstop : s.start + byteLength m ≤ s.stop) (ha : a ≠ [] → s.start + byteLength m = s.stop) :
    marksBelow s o (b ++ (m ++ a)) = columns ' ' b ++ columns '~' m := by
  have hbehind : markRow s (s.start + byteLength m) a = columns ' ' a := by
    by_cases hnil : a = []
    · rw [hnil]
      rfl
    · exact markRow_of_behind (Nat.le_of_eq (ha hnil).symm)
  have hrow : markRow s o (b ++ (m ++ a)) = columns ' ' b ++ columns '~' m ++ columns ' ' a := by
    rw [markRow_append, markRow_append, hstart, markRow_of_before (Nat.le_of_eq hstart),
      markRow_of_inside (Nat.le_refl _) hstop, hbehind, List.append_assoc]
  have hmem : '~' ∈ columns '~' m := List.mem_of_head? (head?_columns '~' hm)
  obtain ⟨row, hlast⟩ : ∃ row, columns '~' m = row ++ ['~'] := by
    obtain ⟨c, hc⟩ := Option.isSome_iff_exists.mp (List.getLast?_isSome.mpr (columns_ne_nil '~' hm))
    obtain rfl := eq_of_mem_columns (List.mem_of_getLast? hc)
    exact List.getLast?_eq_some_iff.mp hc
  rw [marksBelow, hrow, if_pos (by simp [hmem]), rdropWhile_blanks, hlast, ← List.append_assoc,
    List.rdropWhile_concat_neg _ _ _ (by decide)]

/-! ## Marks that count characters -/

private theorem underline_of_length_le (h : line.length ≤ first) (length : Nat) :
    underline first length line = columns ' ' line ++ ['~'] := by
  rw [underline, List.take_of_length_le h, List.drop_of_length_le h, List.take_nil]
  rfl

private theorem columns_append_inj (ha : a.head? = some '~') (hb : b.head? = some '~')
    (h : columns ' ' cs ++ a = columns ' ' ds ++ b) : columns ' ' cs = columns ' ' ds ∧ a = b := by
  have htake (cs a : List Char) (ha : a.head? = some '~') :
      (columns ' ' cs ++ a).takeWhile (· = ' ') = columns ' ' cs := by
    obtain ⟨a, rfl⟩ := List.head?_eq_some_iff.mp ha
    rw [List.takeWhile_append_of_pos fun c hc => by simpa using eq_of_mem_columns hc]
    simp
  have hblanks := congrArg (List.takeWhile (· = ' ')) h
  rw [htake cs a ha, htake ds b hb] at hblanks
  rw [hblanks, List.append_cancel_left_eq] at h
  exact ⟨hblanks, h⟩

private theorem eq_nil_of_columns_append
    (h : columns mark cs ++ columns mark ds = columns mark cs) :
    ds = [] := by
  refine Decidable.byContradiction fun hne => columns_ne_nil mark hne ?_
  exact List.append_cancel_left (h.trans (List.append_nil _).symm)

private theorem exists_marks (first length : Nat) (line : List Char) :
    ∃ marks, underline first length line = columns ' ' (line.take first) ++ marks ∧
      marks.head? = some '~' ∧
      ((line.drop first).take length ≠ [] →
        marks = columns '~' ((line.drop first).take length)) := by
  by_cases hnil : (line.drop first).take length = []
  · refine ⟨['~'], ?_, rfl, fun hne => absurd hnil hne⟩
    rw [underline, hnil]
    rfl
  · refine ⟨_, ?_, head?_columns '~' hnil, fun _ => rfl⟩
    have hne : (columns '~' ((line.drop first).take length)).isEmpty = false :=
      List.isEmpty_eq_false_iff.mpr (columns_ne_nil '~' hnil)
    simp [underline, hne]

private theorem underline_eq_iff (hm : m ≠ []) (hfirst : b.length ≤ first)
    (hlength : m.length ≤ length) :
    underline first length (b ++ (m ++ a)) = columns ' ' b ++ columns '~' m ↔
      first = b.length ∧ (a = [] ∨ length = m.length) := by
  obtain ⟨k, rfl⟩ := Nat.exists_eq_add_of_le hfirst
  obtain ⟨n, rfl⟩ := Nat.exists_eq_add_of_le hlength
  obtain ⟨marks, hunderline, hhead, hmarks⟩ :=
    exists_marks (b.length + k) (m.length + n) (b ++ (m ++ a))
  rw [List.take_length_add_append, columns_append] at hunderline
  rw [List.drop_length_add_append] at hmarks
  have hfirst : (m ++ a).take k = [] ↔ k = 0 := by simp [List.take_eq_nil_iff, hm]
  have hcount : a.take n = [] ↔ a = [] ∨ n = 0 := by rw [List.take_eq_nil_iff, or_comm]
  have hmarked (hk : k = 0) : marks = columns '~' m ++ columns '~' (a.take n) := by
    rw [hk, List.drop_zero, List.take_length_add_append] at hmarks
    rw [hmarks (by simp [hm]), columns_append]
  rw [hunderline]
  constructor
  · intro h
    rw [← columns_append] at h
    obtain ⟨hblanks, h⟩ := columns_append_inj hhead (head?_columns '~' hm) h
    rw [columns_append] at hblanks
    have hk := hfirst.mp (eq_nil_of_columns_append hblanks)
    rw [hmarked hk] at h
    rcases hcount.mp (eq_nil_of_columns_append h) with ha | hn
    · exact ⟨by omega, .inl ha⟩
    · exact ⟨by omega, .inr (by omega)⟩
  · rintro ⟨hk, hn⟩
    have hk : k = 0 := by omega
    have hn : a.take n = [] := hcount.mpr (hn.imp_right fun hn => by omega)
    rw [hmarked hk, hfirst.mpr hk, hn]
    simp [columns]

/-! ### Units and bytes -/

private theorem length_le_length16 (cs : List Char) : cs.length ≤ length16 cs := by
  induction cs with
  | nil => exact Nat.le_refl _
  | cons c cs ih =>
    have hpos := units16_pos c
    rw [List.length_cons, length16]
    omega

private theorem length16_eq_length_iff : length16 cs = cs.length ↔ ∀ c ∈ cs, units16 c = 1 := by
  induction cs with
  | nil => simp [length16]
  | cons c cs ih =>
    have hpos := units16_pos c
    have hle := length_le_length16 cs
    rw [List.forall_mem_cons, ← ih, length16, List.length_cons]
    omega

private theorem length_le_byteLength (cs : List Char) : cs.length ≤ byteLength cs := by
  induction cs with
  | nil => exact Nat.le_refl _
  | cons c cs ih =>
    have hpos := c.utf8Size_pos
    rw [List.length_cons, byteLength]
    omega

private theorem byteLength_eq_length_iff :
    byteLength cs = cs.length ↔ ∀ c ∈ cs, c.utf8Size = 1 := by
  induction cs with
  | nil => simp [byteLength]
  | cons c cs ih =>
    have hpos := c.utf8Size_pos
    have hle := length_le_byteLength cs
    rw [List.forall_mem_cons, ← ih, byteLength, List.length_cons]
    omega

private theorem units16_of_utf8Size (h : c.utf8Size = 1) : units16 c = 1 := by
  have hle : c.val.toNat ≤ 127 := UInt32.le_iff_toNat_le.mp (Char.utf8Size_eq_one_iff.mp h)
  exact if_pos (show c.val.toNat < 65536 by omega)

private theorem underline_eq_marksBelow_iff (hm : m ≠ []) (hstart : o + byteLength b = s.start)
    (hstop : s.start + byteLength m ≤ s.stop) (ha : a ≠ [] → s.start + byteLength m = s.stop) :
    underline (length16 b) s.length (b ++ (m ++ a)) = marksBelow s o (b ++ (m ++ a)) ↔
      (∀ c ∈ b, units16 c = 1) ∧ (a = [] ∨ ∀ c ∈ m, c.utf8Size = 1) := by
  have hle := length_le_byteLength m
  have hlength : m.length ≤ s.length := by
    rw [Span.length]
    omega
  rw [marksBelow_of_inside hm hstart hstop ha, underline_eq_iff hm (length_le_length16 b) hlength,
    length16_eq_length_iff, ← byteLength_eq_length_iff]
  refine and_congr_right fun _ => ?_
  by_cases hnil : a = []
  · simp only [hnil, true_or]
  · have hbytes : s.length = byteLength m := by
      have hstop := ha hnil
      rw [Span.length]
      omega
    rw [hbytes]

/-! ## Styles -/

private theorem replaceFrom_of_notMem (h : c ∉ cs) (pattern replacement : List Char) :
    replaceFrom (c :: pattern) replacement 0 cs = cs := by
  induction cs with
  | nil => rfl
  | cons d cs ih =>
    obtain ⟨hd, hcs⟩ := not_or.mp (mt List.mem_cons.mpr h)
    have hnot : (c :: pattern).isPrefixOf (d :: cs) = false := by simp [List.isPrefixOf, hd]
    rw [replaceFrom, if_neg (by simp [hnot]), ih hcs]

private theorem paint_ofList (r : Reporter) (style : Style) (h : '\x1b' ∉ cs) :
    r.paint style (String.ofList cs) =
      (if r.color then style.start else "") ++ String.ofList cs ++
        (if r.color then Style.reset else "") := by
  have hreset : Style.reset.toList = '\x1b' :: ['[', '0', 'm'] := rfl
  rw [Reporter.paint, Style.paint, String.toList_ofList, hreset, replaceFrom_of_notMem h]
  split <;> simp

private theorem paint_inj (r : Reporter) (style : Style) (hcs : '\x1b' ∉ cs) (hds : '\x1b' ∉ ds) :
    r.paint style (String.ofList cs) = r.paint style (String.ofList ds) ↔ cs = ds := by
  rw [paint_ofList r style hcs, paint_ofList r style hds, String.append_left_inj,
    String.append_right_inj, String.ofList_inj]

private theorem escape_notMem_underline (first length : Nat) (line : List Char) :
    '\x1b' ∉ underline first length line := by
  intro h
  rw [underline] at h
  rcases List.mem_append.mp h with h | h
  · exact absurd (eq_of_mem_columns h) (by decide)
  · split at h
    · simp at h
    · exact absurd (eq_of_mem_columns h) (by decide)

private theorem escape_notMem_marksBelow (s : Span) (o : Nat) (line : List Char) :
    '\x1b' ∉ marksBelow s o line := by
  have hrow : '\x1b' ∉ markRow s o line := by
    induction line generalizing o with
    | nil => exact List.not_mem_nil
    | cons c cs ih =>
      intro h
      rcases List.mem_append.mp h with h | h
      · have hmark := List.eq_of_mem_replicate h
        split at hmark <;> exact absurd hmark (by decide)
      · exact ih _ h
  intro h
  rw [marksBelow] at h
  split at h
  · have hle : (markRow s o line).rdropWhile (· = ' ') <+: markRow s o line :=
      List.rdropWhile_prefix _ _
    exact hrow (hle.mem h)
  · rcases List.mem_append.mp h with h | h
    · exact hrow h
    · simp at h

/-! ## The line of a span -/

namespace Span

open LineMap

variable {source : String} {front mid inside behind : List Char}

/-- A source around a span that holds some of its characters: what stands before the line of the
span, what stands in the line before the span, and what stands in and behind the span. -/
private structure Parts (s : Span) (source : String) (front mid inside behind : List Char) :
    Prop where
  text : source.toList = front ++ (mid ++ (inside ++ behind))
  nonempty : inside ≠ []
  start : byteLength (front ++ mid) = s.start
  stop : s.start + byteLength inside = s.stop
  lineStart? : (ofText source).lineStart? ((ofText source).lineOf s.start) = some (byteLength front)

private theorem exists_parts (hnonempty : s.start < s.stop) (hstart : Boundary source s.start)
    (hstop : Boundary source s.stop) :
    ∃ front mid inside behind, s.Parts source front mid inside behind := by
  obtain ⟨before, rest, htext, hbefore⟩ := hstart
  obtain ⟨whole, behind, hwhole, hlength⟩ := hstop
  obtain ⟨inside, rfl, rfl⟩ := exists_append_of_byteLength_le (htext.symm.trans hwhole) (by omega)
  obtain ⟨front, mid, rfl, hline⟩ := exists_mid htext
  rw [byteLength_append, hbefore] at hlength
  refine ⟨front, mid, inside, behind, by rw [htext, List.append_assoc], ?_, hbefore, hlength,
    hbefore ▸ hline⟩
  rintro rfl
  exact Nat.ne_of_lt hnonempty hlength

namespace Parts

private theorem position (h : s.Parts source front mid inside behind) :
    (ofText source).position source s.start = ⟨(ofText source).lineOf s.start, length16 mid⟩ := by
  rw [← h.start]
  exact position_eq h.text (h.start.symm ▸ h.lineStart?)

private theorem lineText? (h : s.Parts source front mid inside behind) :
    (ofText source).lineText? source ((ofText source).lineOf s.start) =
      some ((mid ++ (inside ++ behind)).takeWhile (!isLineEnd ·)) :=
  lineText?_eq h.text h.lineStart?

private theorem slice_before (h : s.Parts source front mid inside behind) :
    slice source.toList (byteLength front) s.start = mid := by
  rw [slice, h.text, ← h.start, byteLength_append, slice?_append]
  rfl

private theorem slice_inside (h : s.Parts source front mid inside behind) :
    slice source.toList s.start s.stop = inside := by
  rw [slice, h.text, ← List.append_assoc, ← h.stop, ← h.start, slice?_append]
  rfl

private theorem plain (h : s.Parts source front mid inside behind)
    (hinside : inside.takeWhile (!isLineEnd ·) ≠ []) : ∀ c ∈ mid, isLineEnd c = false := by
  refine not_isLineEnd_of_mem h.text (h.start.symm ▸ h.lineStart?) ?_
  refine not_splitsLineEnd (h.text.trans (List.append_assoc _ _ _).symm) fun hhead => ?_
  obtain ⟨c, cs, rfl⟩ := List.exists_cons_of_ne_nil h.nonempty
  obtain rfl := Option.some.inj hhead
  exact hinside rfl

private theorem exists_before (h : s.Parts source front mid inside behind)
    (hinside : inside.takeWhile (!isLineEnd ·) = []) :
    ∃ more, mid = (mid ++ (inside ++ behind)).takeWhile (!isLineEnd ·) ++ more := by
  obtain ⟨c, cs, rfl⟩ := List.exists_cons_of_ne_nil h.nonempty
  have hend : isLineEnd c = true := by simpa using hinside
  rw [List.takeWhile_append]
  split
  · exact ⟨[], by simp [hend]⟩
  · exact ⟨mid.dropWhile (!isLineEnd ·), List.takeWhile_append_dropWhile.symm⟩

private theorem exists_behind (h : s.Parts source front mid inside behind)
    (hinside : inside.takeWhile (!isLineEnd ·) ≠ []) :
    ∃ more, (mid ++ (inside ++ behind)).takeWhile (!isLineEnd ·) =
        mid ++ (inside.takeWhile (!isLineEnd ·) ++ more) ∧
      (more ≠ [] → inside.takeWhile (!isLineEnd ·) = inside) := by
  rw [List.takeWhile_append_of_pos fun c hc => by simpa using h.plain hinside c hc,
    List.takeWhile_append]
  split
  · next hlength =>
    have hle : inside.takeWhile (!isLineEnd ·) <+: inside := List.takeWhile_prefix _
    have hall := hle.eq_of_length hlength
    exact ⟨behind.takeWhile (!isLineEnd ·), by rw [hall], fun _ => hall⟩
  · exact ⟨[], by rw [List.append_nil], fun hne => absurd rfl hne⟩

private theorem byteLength_takeWhile_le (p : Char → Bool) (cs : List Char) :
    byteLength (cs.takeWhile p) ≤ byteLength cs := by
  conv_rhs => rw [← List.takeWhile_append_dropWhile (p := p) (l := cs)]
  rw [byteLength_append]
  exact Nat.le_add_right _ _

private theorem reaches_iff {more : List Char} (h : s.Parts source front mid inside behind)
    (hmore : more ≠ [] → inside.takeWhile (!isLineEnd ·) = inside) :
    byteLength front + byteLength (mid ++ (inside.takeWhile (!isLineEnd ·) ++ more)) ≤ s.stop ↔
      more = [] := by
  have hstart := h.start
  have hstop := h.stop
  have hle := byteLength_takeWhile_le (!isLineEnd ·) inside
  rw [byteLength_append] at hstart
  rw [byteLength_append, byteLength_append]
  constructor
  · intro hreaches
    refine Decidable.byContradiction fun hne => ?_
    have hpos := byteLength_pos hne
    rw [hmore hne] at hreaches
    omega
  · rintro rfl
    rw [byteLength]
    omega

private theorem measured_iff (h : s.Parts source front mid inside behind) :
    s.Measured source ↔
      inside.takeWhile (!isLineEnd ·) = [] ∨
        (∀ c ∈ mid, units16 c = 1) ∧
          (byteLength front + byteLength ((mid ++ (inside ++ behind)).takeWhile (!isLineEnd ·)) ≤
              s.stop ∨
            ∀ c ∈ inside, c.utf8Size = 1) := by
  simp only [Measured, h.lineStart?, h.lineText?, Option.some.injEq, h.slice_inside,
    exists_and_left, exists_eq_left', h.slice_before]

end Parts
end Span

/-! ## What a report shows -/

namespace Reporter

open LineMap

variable {r : Reporter} {d : Diagnostic} {source : String} {front mid inside behind : List Char}

private theorem place_eq (h : r.Shows d source) :
    r.place d = r.paint .cyan
      (d.file ++ ":" ++ Nat.repr (((ofText source).position source d.span.start).line + 1) ++
        ":" ++ Nat.repr (((ofText source).position source d.span.start).character + 1)) := by
  rw [place, h.source?]

private theorem snippet?_eq (h : r.Shows d source) :
    r.snippet? d =
      ((lines source)[((ofText source).position source d.span.start).line]?).map fun line =>
        r.printed (((ofText source).position source d.span.start).line + 1) line.toList
          (underline ((ofText source).position source d.span.start).character d.span.length
            line.toList) := by
  have hlength : d.span.length ≠ 0 := by
    have hlt := h.nonempty
    rw [Span.length]
    omega
  simp only [snippet?, hlength, if_false, h.source?, Option.bind_eq_bind, Option.bind_some,
    Option.pure_def, printed, String.ofList_toList]
  cases (lines source)[((ofText source).position source d.span.start).line]? <;> rfl

private theorem printed_inj {number : Nat} {line line' marks marks' : List Char}
    (hline : '\n' ∉ line)
    (hline' : '\n' ∉ line') (hmarks : '\x1b' ∉ marks) (hmarks' : '\x1b' ∉ marks')
    (h : r.printed number line marks = r.printed number line' marks') :
    line = line' ∧ marks = marks' := by
  have htake (line rest : List Char) (hline : '\n' ∉ line) :
      (line ++ '\n' :: rest).takeWhile (· != '\n') = line := by
    rw [List.takeWhile_append_of_pos fun c hc => ?_]
    · simp
    · rw [bne_iff_ne]
      rintro rfl
      exact hline hc
  have hfeed : "\n        ".toList = '\n' :: "        ".toList := rfl
  simp only [printed, String.append_assoc, String.append_right_inj] at h
  have hchars := congrArg String.toList h
  simp only [String.toList_append, String.toList_ofList, hfeed, List.cons_append] at hchars
  have hlines := congrArg (List.takeWhile (· != '\n')) hchars
  rw [htake _ _ hline, htake _ _ hline'] at hlines
  rw [hlines, String.append_right_inj, String.append_right_inj] at h
  exact ⟨hlines, (paint_inj r .red hmarks hmarks').mp h⟩

private theorem marks_eq_iff (h : d.span.Parts source front mid inside behind) :
    underline (length16 mid) d.span.length ((mid ++ (inside ++ behind)).takeWhile (!isLineEnd ·)) =
        marksBelow d.span (byteLength front)
          ((mid ++ (inside ++ behind)).takeWhile (!isLineEnd ·)) ↔
      d.span.Measured source := by
  rw [h.measured_iff]
  have hstart := h.start
  have hstop := h.stop
  rw [byteLength_append] at hstart
  by_cases hinside : inside.takeWhile (!isLineEnd ·) = []
  · obtain ⟨more, hmore⟩ := h.exists_before hinside
    refine iff_of_true ?_ (.inl hinside)
    have hlength := congrArg List.length hmore
    have hbytes := congrArg byteLength hmore
    rw [List.length_append] at hlength
    rw [byteLength_append] at hbytes
    have hle := length_le_length16 mid
    rw [underline_of_length_le (by omega), marksBelow_of_before (by omega)]
  · obtain ⟨more, hline, hmore⟩ := h.exists_behind hinside
    have hle := Span.Parts.byteLength_takeWhile_le (!isLineEnd ·) inside
    rw [hline, underline_eq_marksBelow_iff hinside hstart (by omega)
      (fun hne => by rw [hmore hne]; exact hstop), or_iff_right hinside, h.reaches_iff hmore]
    by_cases hnil : more = []
    · simp only [hnil, true_or]
    · rw [hmore hnil]

private theorem mem_of_lineText? {n : Nat} (h : (ofText source).lineText? source n = some line)
    (hc : c ∈ line) : isLineEnd c = false := by
  simp only [LineMap.lineText?, Option.bind_eq_bind, Option.bind_eq_some_iff, Option.pure_def,
    Option.some.injEq] at h
  obtain ⟨start, -, rfl⟩ := h
  simpa using List.mem_takeWhile_imp hc

private theorem faithful_iff_measured (h : r.Shows d source)
    (hlone : ∀ o, LoneReturn source o →
      (ofText source).lineOf d.span.start < (ofText source).lineOf o) :
    r.Faithful d source ↔ d.span.Measured source := by
  obtain ⟨front, mid, inside, behind, hparts⟩ := Span.exists_parts h.nonempty h.start h.stop
  have hne : mid ++ (inside ++ behind) ≠ [] := by simp [hparts.nonempty]
  have hlines := getElem?_lines_of_paired hparts.text hne hparts.lineStart? hlone
  have hsnippet := snippet?_eq h
  rw [hparts.position, hlines, Option.map_some, String.toList_ofList] at hsnippet
  have hline (c : Char) (hc : c ∈ (mid ++ (inside ++ behind)).takeWhile (!isLineEnd ·)) :
      isLineEnd c = false := mem_of_lineText? hparts.lineText? hc
  have hfeed := notMem_of_plain (c := '\n') rfl hline
  rw [← marks_eq_iff hparts]
  constructor
  · rintro ⟨-, start, line, hstart', hline', hprinted⟩
    obtain rfl := Option.some.inj (hparts.lineStart?.symm.trans hstart')
    obtain rfl := Option.some.inj (hparts.lineText?.symm.trans hline')
    rw [hparts.position] at hprinted
    exact (printed_inj hfeed hfeed (escape_notMem_underline _ _ _) (escape_notMem_marksBelow _ _ _)
      (Option.some.inj (hsnippet.symm.trans hprinted))).2
  · intro hmarks
    refine ⟨place_eq h, _, _, hparts.lineStart?, hparts.lineText?, ?_⟩
    rw [hsnippet, hmarks, hparts.position]

/-! ## Sources that are always shown right -/

private theorem exists_shows (htext : source.toList = front ++ c :: behind) :
    ∃ (r : Reporter) (d : Diagnostic), r.Shows d source ∧
      d.span = ⟨byteLength front, byteLength front + c.utf8Size⟩ := by
  have hstop : byteLength (front ++ [c]) = byteLength front + c.utf8Size := byteLength_append _ _
  exact ⟨⟨false, [("a", source)]⟩, ⟨.error, .type, 0, "a", _, ""⟩,
    ⟨rfl, Nat.lt_add_of_pos_right c.utf8Size_pos, ⟨front, c :: behind, htext, rfl⟩,
      ⟨front ++ [c], behind, by rw [htext]; simp, hstop⟩⟩, rfl⟩

private theorem not_faithful_of_loneReturn {o : Nat} (h : r.Shows d source)
    (hspan : d.span.start = o)
    (hlone : LoneReturn source o) (hfirst : ∀ o' < o, ¬ LoneReturn source o') :
    ¬ r.Faithful d source := by
  rintro ⟨-, start, line, -, hline, hprinted⟩
  have hposition : ((ofText source).position source d.span.start).line =
      (ofText source).lineOf o := by rw [hspan]; rfl
  rw [snippet?_eq h] at hprinted
  obtain ⟨shown, hshown, heq⟩ := Option.map_eq_some_iff.mp hprinted
  have hmem := mem_of_getElem?_lines hlone hfirst (hposition ▸ hshown)
  have hfeed := notMem_of_mem_lines (List.mem_of_getElem? hshown)
  obtain ⟨rfl, -⟩ := printed_inj hfeed
    (notMem_of_plain (c := '\n') rfl fun c => mem_of_lineText? hline)
    (escape_notMem_underline _ _ _) (escape_notMem_marksBelow _ _ _) heq
  exact Bool.false_ne_true ((mem_of_lineText? hline hmem).symm.trans rfl)

private theorem not_loneReturn
    (h : ∀ (r : Reporter) (d : Diagnostic), r.Shows d source → r.Faithful d source) (o : Nat) :
    ¬ LoneReturn source o := by
  induction o using Nat.strongRecOn with
  | _ o ih =>
    intro hlone
    obtain ⟨before, behind, htext, -, rfl⟩ := id hlone
    obtain ⟨r, d, hshows, hspan⟩ := exists_shows htext
    exact not_faithful_of_loneReturn hshows (by rw [hspan]) hlone ih (h r d hshows)

end Reporter

/-- Every character that has another one of its line behind it takes one byte. -/
def OneByteLines (source : String) : Prop :=
  ∀ before c e behind, source.toList = before ++ c :: e :: behind → isLineEnd e = false →
    c.utf8Size = 1

namespace OneByteLines

variable {source : String} {before behind : List Char} {e : Char}

private theorem forall_mem (h : OneByteLines source)
    (htext : source.toList = before ++ (cs ++ e :: behind)) (hcs : ∀ c ∈ cs, isLineEnd c = false)
    (he : isLineEnd e = false) : ∀ c ∈ cs, c.utf8Size = 1 := by
  intro c hc
  obtain ⟨left, right, rfl⟩ := List.append_of_mem hc
  cases right with
  | nil => exact h (before ++ left) c e behind (by rw [htext]; simp) he
  | cons f right =>
    exact h (before ++ left) c f (right ++ e :: behind) (by rw [htext]; simp) (hcs f (by simp))

private theorem measured {s : Span} {front mid inside : List Char} (h : OneByteLines source)
    (hparts : s.Parts source front mid inside behind) : s.Measured source := by
  rw [hparts.measured_iff]
  by_cases hinside : inside.takeWhile (!isLineEnd ·) = []
  · exact .inl hinside
  have hmid := hparts.plain hinside
  obtain ⟨more, hline, hmore⟩ := hparts.exists_behind hinside
  refine .inr ⟨fun c hc => units16_of_utf8Size ?_, ?_⟩
  · obtain ⟨e, cs, rfl⟩ := List.exists_cons_of_ne_nil hparts.nonempty
    have he : isLineEnd e = false := by
      rw [← Bool.not_eq_true]
      intro he
      exact hinside (by simp [he])
    exact h.forall_mem hparts.text hmid he c hc
  · cases more with
    | nil =>
      rw [hline]
      exact .inl ((hparts.reaches_iff hmore).mpr rfl)
    | cons e more =>
      have hall := hmore (List.cons_ne_nil e more)
      have hplain (c : Char) (hc : c ∈ mid ++ (inside ++ e :: more)) : isLineEnd c = false := by
        rw [← hall, ← hline] at hc
        exact Reporter.mem_of_lineText? hparts.lineText? hc
      have hprefix : mid ++ (inside ++ e :: more) <+: mid ++ (inside ++ behind) := by
        rw [← hall, ← hline, hall]
        exact List.takeWhile_prefix _
      rw [List.prefix_append_right_inj, List.prefix_append_right_inj] at hprefix
      obtain ⟨rest, rfl⟩ := hprefix
      have htext : source.toList = (front ++ mid) ++ (inside ++ e :: (more ++ rest)) := by
        rw [hparts.text]
        simp
      exact .inr (h.forall_mem htext (fun c hc => hplain c (by simp [hc])) (hplain e (by simp)))

private theorem of_faithful (hlone : ∀ o, ¬ LoneReturn source o)
    (h : ∀ (r : Reporter) (d : Diagnostic), r.Shows d source → r.Faithful d source) :
    OneByteLines source := by
  intro before c e behind htext he
  refine Decidable.byContradiction fun hsize => ?_
  have hc : isLineEnd c = false := by
    rw [← Bool.not_eq_true]
    intro hc
    have hcases : c = '\n' ∨ c = '\r' := by simpa [isLineEnd] using hc
    rcases hcases with rfl | rfl <;> exact hsize rfl
  obtain ⟨r, d, hshows, hspan⟩ := Reporter.exists_shows htext
  have hmeasured := (Reporter.faithful_iff_measured hshows fun o ho => absurd ho (hlone o)).mp
    (h r d hshows)
  obtain ⟨front, mid, inside, rest, hparts⟩ :=
    Span.exists_parts hshows.nonempty hshows.start hshows.stop
  have hstart := hparts.start
  have hstop := hparts.stop
  rw [hspan] at hstart hstop
  obtain ⟨rfl, hrest⟩ := eq_of_byteLength_eq
    ((hparts.text.symm.trans htext).symm.trans (List.append_assoc _ _ _).symm).symm hstart
  obtain ⟨rfl, rfl⟩ := eq_of_byteLength_eq (hrest.trans (List.singleton_append (x := c)).symm)
    (Nat.add_left_cancel hstop)
  rw [hparts.measured_iff] at hmeasured
  have hinside : [c].takeWhile (!isLineEnd ·) = [c] := by simp [hc]
  have hne : [c].takeWhile (!isLineEnd ·) ≠ [] := by simp [hinside]
  have hline : (mid ++ ([c] ++ e :: behind)).takeWhile (!isLineEnd ·) =
      mid ++ ([c].takeWhile (!isLineEnd ·) ++ e :: behind.takeWhile (!isLineEnd ·)) := by
    rw [List.takeWhile_append_of_pos fun c hc => by simpa using hparts.plain hne c hc]
    simp [hc, he]
  obtain ⟨-, hreaches | hbytes⟩ := hmeasured.resolve_left hne
  · rw [hline, hparts.reaches_iff fun _ => hinside] at hreaches
    exact List.cons_ne_nil _ _ hreaches
  · exact hsize (hbytes c (by simp))

end OneByteLines

/-- **When reports underline what they are about.** Of a text up to its first line that ends with a
carriage return alone, exactly the spans that are measured right are shown right. All that can be
reported is shown right exactly if no carriage return stands alone and all characters take one byte
but for the last ones of lines. -/
theorem faithful_iff (source : String) :
    (∀ (r : Reporter) (d : Diagnostic), r.Shows d source →
      (∀ o, LoneReturn source o → (LineMap.ofText source).lineOf d.span.start <
        (LineMap.ofText source).lineOf o) →
      (r.Faithful d source ↔ d.span.Measured source)) ∧
    ((∀ (r : Reporter) (d : Diagnostic), r.Shows d source → r.Faithful d source) ↔
      (∀ o, ¬ LoneReturn source o) ∧ OneByteLines source) := by
  refine ⟨fun r d => Reporter.faithful_iff_measured, fun h => ?_, fun ⟨hlone, hbytes⟩ r d h => ?_⟩
  · have hlone := Reporter.not_loneReturn h
    exact ⟨hlone, OneByteLines.of_faithful hlone h⟩
  · obtain ⟨front, mid, inside, behind, hparts⟩ := Span.exists_parts h.nonempty h.start h.stop
    exact (Reporter.faithful_iff_measured h fun o ho => absurd ho (hlone o)).mpr
      (hbytes.measured hparts)

/-- A name of two characters behind a tab, of which the last one takes two bytes, at the end of the
second line. -/
theorem faithful_endOfLine :
    let r : Reporter := ⟨false, [("a.py", "a\r\n\tbé\r\n")]⟩
    let d : Diagnostic := ⟨.error, .resolution, 3001, "a.py", ⟨4, 7⟩, ""⟩
    r.Shows d "a\r\n\tbé\r\n" ∧ r.Faithful d "a\r\n\tbé\r\n" := by
  intro r d
  have hshows : r.Shows d "a\r\n\tbé\r\n" :=
    ⟨rfl, by decide, ⟨['a', '\r', '\n', '\t'], ['b', 'é', '\r', '\n'], String.toList_ofList, rfl⟩,
      ⟨['a', '\r', '\n', '\t', 'b', 'é'], ['\r', '\n'], String.toList_ofList, rfl⟩⟩
  have hlone (o : Nat) : ¬ LoneReturn "a\r\n\tbé\r\n" o := by
    rintro ⟨before, behind, htext, hhead, -⟩
    have hpaired : ∀ rest ∈ ['a', '\r', '\n', '\t', 'b', 'é', '\r', '\n'].tails,
        rest.head? = some '\r' → rest.tail.head? = some '\n' := by decide
    rw [String.toList_ofList] at htext
    exact hhead (hpaired ('\r' :: behind) ((List.mem_tails _ _).mpr ⟨before, htext.symm⟩) rfl)
  have hfront : slice "a\r\n\tbé\r\n".toList 3 4 = ['\t'] := by decide +kernel
  refine ⟨hshows, ((faithful_iff _).1 _ _ hshows fun o ho => absurd ho (hlone o)).mpr ?_⟩
  refine ⟨3, ['\t', 'b', 'é'], by decide +kernel, by decide +kernel,
    .inr ⟨fun c hc => ?_, .inl (by decide)⟩⟩
  obtain rfl := List.mem_singleton.mp (hfront ▸ hc)
  rfl

/-- One character of two bytes in front of another one gets two marks. -/
theorem not_faithful_twoBytes :
    let r : Reporter := ⟨false, [("a.py", "é x\n")]⟩
    let d : Diagnostic := ⟨.error, .resolution, 3001, "a.py", ⟨0, 2⟩, ""⟩
    r.Shows d "é x\n" ∧ r.snippet? d = some "\n    1   é x\n        ~~" ∧
      ¬ r.Faithful d "é x\n" := by
  intro r d
  have hsnippet : r.snippet? d = some "\n    1   é x\n        ~~" := by decide +kernel
  refine ⟨⟨rfl, by decide, ⟨[], ['é', ' ', 'x', '\n'], String.toList_ofList, rfl⟩,
    ⟨['é'], [' ', 'x', '\n'], String.toList_ofList, rfl⟩⟩, hsnippet, ?_⟩
  rintro ⟨-, start, line, hstart, hline, hprinted⟩
  have hzero : (LineMap.ofText "é x\n").lineStart? 0 = some 0 := rfl
  have htext : (LineMap.ofText "é x\n").lineText? "é x\n" 0 = some ['é', ' ', 'x'] := by
    decide +kernel
  obtain rfl := Option.some.inj (hzero.symm.trans hstart)
  obtain rfl := Option.some.inj (htext.symm.trans hline)
  exact absurd (hsnippet.symm.trans hprinted) (by decide +kernel)

end LiveCheck
