import LiveCheck.Session.FileStore

/-!
# Names in paths

A path is read as a list of names. Cutting a text at a separator and putting the pieces together
again undo each other, so a path and its names say the same; the one spelling of a path that counts
is that of a list of plain names.
-/

namespace LiveCheck

namespace Text

variable {separator : Char} {cs ds piece : List Char} {text : String} {names : List String}

private theorem splitChars_eq_splitOn (separator : Char) (cs : List Char) :
    splitChars separator cs = cs.splitOn separator := by
  induction cs with
  | nil => rfl
  | cons c cs ih =>
    have hcons : consPiece c (splitChars separator cs) =
        (splitChars separator cs).modifyHead (c :: ·) := by
      cases h : splitChars separator cs with
      | nil => exact absurd h (splitChars_ne_nil separator cs)
      | cons piece pieces => rfl
    rw [splitChars, hcons, ih, List.splitOn_cons_eq_if_modifyHead]
    simp only [beq_iff_eq]

private theorem of_mem_splitChars (h : piece ∈ splitChars separator cs) :
    separator ∉ piece ∧ piece ⊆ cs := by
  induction cs generalizing piece with
  | nil =>
    obtain rfl := List.mem_singleton.mp h
    exact ⟨List.not_mem_nil, List.nil_subset _⟩
  | cons c cs ih =>
    rw [splitChars] at h
    split at h
    · rcases List.mem_cons.mp h with rfl | h
      · exact ⟨List.not_mem_nil, List.nil_subset _⟩
      · exact ⟨(ih h).1, List.subset_cons_of_subset c (ih h).2⟩
    rename_i hc
    cases hpieces : splitChars separator cs with
    | nil => exact absurd hpieces (splitChars_ne_nil separator cs)
    | cons first rest =>
      rw [hpieces, consPiece] at h
      rcases List.mem_cons.mp h with rfl | h
      · have hfirst := ih (hpieces ▸ List.mem_cons_self)
        exact ⟨List.not_mem_cons_of_ne_of_not_mem (Ne.symm hc) hfirst.1,
          List.cons_subset_cons c hfirst.2⟩
      · have hpiece := ih (hpieces ▸ List.mem_cons_of_mem first h)
        exact ⟨hpiece.1, List.subset_cons_of_subset c hpiece.2⟩

theorem splitChars_append (cs ds : List Char) :
    splitChars separator (cs ++ separator :: ds) =
      splitChars separator cs ++ splitChars separator ds := by
  induction cs with
  | nil => simp [splitChars]
  | cons c cs ih =>
    rw [List.cons_append, splitChars, splitChars, ih]
    split
    · rfl
    · cases h : splitChars separator cs with
      | nil => exact absurd h (splitChars_ne_nil separator cs)
      | cons piece pieces => rfl

theorem split_append (s t : String) :
    split separator (s ++ String.singleton separator ++ t) =
      split separator s ++ split separator t := by
  simp [split, splitChars_append]

/-- No part of a text holds what it was split at. -/
theorem not_mem_of_mem_split {name : String} (h : name ∈ split separator text) :
    separator ∉ name.toList := by
  obtain ⟨piece, hpiece, rfl⟩ := List.mem_map.mp h
  rw [String.toList_ofList]
  exact (of_mem_splitChars hpiece).1

theorem subset_of_mem_split {name : String} (h : name ∈ split separator text) :
    name.toList ⊆ text.toList := by
  obtain ⟨piece, hpiece, rfl⟩ := List.mem_map.mp h
  rw [String.toList_ofList]
  exact (of_mem_splitChars hpiece).2

theorem split_ne_nil (separator : Char) (text : String) : split separator text ≠ [] := by
  simp [split, splitChars_ne_nil]

private theorem intercalate_split (separator : Char) (text : String) :
    (String.singleton separator).intercalate (split separator text) = text := by
  refine String.toList_injective ?_
  have hid : String.toList ∘ String.ofList = id := funext fun _ => String.toList_ofList
  rw [String.toList_intercalate, split, List.map_map, hid, List.map_id,
    String.toList_singleton, intercalate_splitChars]

theorem split_intercalate (hnames : ∀ name ∈ names, separator ∉ name.toList) (hne : names ≠ []) :
    split separator ((String.singleton separator).intercalate names) = names := by
  have hid : String.ofList ∘ String.toList = id := funext fun _ => String.ofList_toList
  rw [split, String.toList_intercalate, String.toList_singleton, splitChars_eq_splitOn,
    List.splitOn_intercalate separator (by simpa using hnames) (by simpa using hne), List.map_map,
    hid, List.map_id]

/-- A character that is in none of the pieces, and not the separator, is not in the text. -/
theorem not_mem_intercalate (separator : Char) {c : Char} (hc : c ≠ separator)
    (h : ∀ name ∈ names, c ∉ name.toList) :
    c ∉ ((String.singleton separator).intercalate names).toList := by
  induction names with
  | nil => simp
  | cons name names ih =>
    have hname := h name List.mem_cons_self
    have hnames := ih fun n hn => h n (List.mem_cons_of_mem name hn)
    by_cases hnil : names = []
    · rwa [hnil, String.intercalate_singleton]
    · rw [String.intercalate_cons_of_ne_nil hnil]
      simp only [String.toList_append, String.toList_singleton, List.mem_append,
        List.mem_singleton, not_or]
      exact ⟨⟨hname, hc⟩, hnames⟩

/-- Where no piece is empty, all pieces are parts. -/
theorem parts_eq_split (h : ∀ name ∈ split separator text, name ≠ "") :
    parts separator text = split separator text :=
  List.filter_eq_self.mpr fun name hname => by simpa using h name hname

end Text

namespace Path

variable {path base name : String} {ns ms : List String}

theorem ofNames_cons (hne : ns ≠ []) : ofNames (name :: ns) = name ++ "/" ++ ofNames ns :=
  String.intercalate_cons_of_ne_nil hne

theorem ofNames_append (hns : ns ≠ []) (hms : ms ≠ []) :
    ofNames (ns ++ ms) = ofNames ns ++ "/" ++ ofNames ms :=
  String.intercalate_append_of_ne_nil hns hms

theorem ofNames_singleton (name : String) : ofNames [name] = name := String.intercalate_singleton

theorem ofNames_split (path : String) : ofNames (Text.split '/' path) = path :=
  Text.intercalate_split '/' path

theorem split_ofNames (hnames : ∀ name ∈ ns, '/' ∉ name.toList) (hne : ns ≠ []) :
    Text.split '/' (ofNames ns) = ns :=
  Text.split_intercalate hnames hne

theorem ofNames_ne_empty (hnames : ∀ name ∈ ns, name ≠ "") (hne : ns ≠ []) : ofNames ns ≠ "" := by
  cases ns with
  | nil => exact absurd rfl hne
  | cons name ns =>
    have hname := hnames name List.mem_cons_self
    by_cases hns : ns = []
    · rwa [hns, ofNames_singleton]
    · rw [ofNames_cons hns]
      simp [hname]

theorem join_of_ne (h : base ≠ "") : join base name = base ++ "/" ++ name := by
  simp [join, h]

theorem join_empty (name : String) : join "" name = name := rfl

/-- Names are put below a directory one by one or all at once. -/
theorem foldl_join (hnames : ∀ name ∈ ns, name ≠ "") (hne : ns ≠ []) :
    ns.foldl join base = join base (ofNames ns) := by
  induction ns generalizing base with
  | nil => exact absurd rfl hne
  | cons name ns ih =>
    by_cases hns : ns = []
    · rw [hns, ofNames_singleton]
      rfl
    have hname := hnames name List.mem_cons_self
    have hjoin : join base name ≠ "" := by
      rw [join]
      split
      · exact hname
      · simp [hname]
    rw [List.foldl_cons, ih (fun n hn => hnames n (List.mem_cons_of_mem name hn)) hns,
      join_of_ne hjoin, ofNames_cons hns]
    by_cases hbase : base = ""
    · rw [hbase, join_empty, join_empty]
    · rw [join_of_ne hbase, join_of_ne hbase]
      simp only [String.append_assoc]

/-! ## The spelling that counts -/

/-- A path in the one spelling that counts. -/
def Normalized (path : String) : Prop := normalize path = path

/-- A name that is followed downwards. -/
structure Plain (name : String) : Prop where
  nonempty : name ≠ ""
  here : name ≠ "."
  above : name ≠ ".."
  slash : '/' ∉ name.toList
  backslash : '\\' ∉ name.toList

private theorem follow_of_plain (h : Plain name) : follow ns name = ns ++ [name] := by
  rw [follow, if_neg (not_or.mpr ⟨h.nonempty, h.here⟩), if_neg h.above]

private theorem foldl_follow (h : ∀ name ∈ ms, Plain name) : ms.foldl follow ns = ns ++ ms := by
  induction ms generalizing ns with
  | nil => simp
  | cons name ms ih =>
    rw [List.foldl_cons, follow_of_plain (h name List.mem_cons_self),
      ih fun n hn => h n (List.mem_cons_of_mem name hn), List.append_assoc, List.singleton_append]

private theorem names_ofNames (h : ∀ name ∈ ns, Plain name) (hne : ns ≠ []) :
    names (ofNames ns) = ns := by
  have hbackslash : '\\' ∉ (ofNames ns).toList :=
    Text.not_mem_intercalate '/' (by decide) fun name hname => (h name hname).backslash
  have hmap : (ofNames ns).toList.map (fun c => if c = '\\' then '/' else c) =
      (ofNames ns).toList :=
    (List.map_congr_left fun c hc => if_neg (ne_of_mem_of_not_mem hc hbackslash)).trans
      (List.map_id _)
  rw [names, hmap, String.ofList_toList, split_ofNames (fun name hname => (h name hname).slash) hne]

theorem normal_ofNames (h : ∀ name ∈ ns, Plain name) : Normalized (ofNames ns) := by
  by_cases hne : ns = []
  · subst hne
    rfl
  · rw [Normalized, normalize, names_ofNames h hne, foldl_follow h, List.nil_append]

private theorem plain_foldl_follow (hms : ∀ name ∈ ms, '/' ∉ name.toList ∧ '\\' ∉ name.toList)
    (hns : ∀ name ∈ ns, Plain name) : ∀ name ∈ ms.foldl follow ns, Plain name := by
  induction ms generalizing ns with
  | nil => exact hns
  | cons name ms ih =>
    have hname := hms name List.mem_cons_self
    refine ih (fun n hn => hms n (List.mem_cons_of_mem name hn)) fun n hn => ?_
    rw [follow] at hn
    split at hn
    · exact hns n hn
    rename_i hfirst
    obtain ⟨hempty, hhere⟩ := not_or.mp hfirst
    split at hn
    · exact hns n (List.dropLast_subset ns hn)
    rename_i habove
    rcases List.mem_append.mp hn with hn | hn
    · exact hns n hn
    · obtain rfl := List.mem_singleton.mp hn
      exact ⟨hempty, hhere, habove, hname.1, hname.2⟩

private theorem exists_normalize (path : String) :
    ∃ ns, (∀ name ∈ ns, Plain name) ∧ normalize path = ofNames ns := by
  refine ⟨_, plain_foldl_follow (fun name hname => ⟨Text.not_mem_of_mem_split hname, ?_⟩)
    fun _ hmem => absurd hmem List.not_mem_nil, rfl⟩
  intro hmem
  have hmem := Text.subset_of_mem_split hname hmem
  rw [String.toList_ofList] at hmem
  obtain ⟨c, -, hc⟩ := List.mem_map.mp hmem
  split at hc
  · exact absurd hc (by decide)
  · rename_i hne
    exact hne hc

/-- Normalized paths are those of plain names. -/
theorem normal_iff : Normalized path ↔ ∃ ns, (∀ name ∈ ns, Plain name) ∧ path = ofNames ns := by
  constructor
  · intro h
    obtain ⟨ns, hns, heq⟩ := exists_normalize path
    exact ⟨ns, hns, h.symm.trans heq⟩
  · rintro ⟨ns, hns, rfl⟩
    exact normal_ofNames hns

theorem normal_normalize (path : String) : Normalized (normalize path) :=
  normal_iff.mpr (exists_normalize path)

end Path
end LiveCheck
