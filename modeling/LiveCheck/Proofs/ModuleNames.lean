import LiveCheck.Proofs.Paths

/-!
# Modules are found under their names

The name of a module says where the module is: an import of the name, in whatever file it stands,
asks for the path of the module, and it leads there when no other file is present. The name is taken
from below the innermost directory that contains the module, and that directory is searched.
-/

namespace LiveCheck

open LiveCheck.Path

/-- The path of a module: names without dots, with the ending of a source file. -/
structure Path.IsModule (path stem ext : String) : Prop where
  path_eq : path = stem ++ "." ++ ext
  ending : ext ∈ extensions
  named : ∀ name ∈ Text.split '/' stem, name ≠ "" ∧ '.' ∉ name.toList

namespace Resolver

variable {path base rest stem ext ending text : String} {r : Resolver}

/-! ## Below the innermost directory -/

private theorem below?_eq_some :
    below? path base = some rest ↔ base ≠ "" ∧ path = base ++ "/" ++ rest := by
  rw [below?]
  by_cases hbase : base = ""
  · simp [hbase]
  rw [if_neg (by simpa using hbase)]
  have hlength : base.length + 1 = (base.toList ++ ['/']).length := by
    rw [List.length_append, String.length_toList, List.length_singleton]
  constructor
  · intro h
    split at h
    · rename_i hprefix
      obtain ⟨behind, hbehind⟩ := List.isPrefixOf_iff_prefix.mp hprefix
      refine ⟨hbase, String.toList_injective ?_⟩
      rw [← Option.some.inj h, hlength, ← hbehind, List.drop_left]
      simp
    · cases h
  · rintro ⟨-, rfl⟩
    have htext : (base ++ "/" ++ rest).toList = base.toList ++ ['/'] ++ rest.toList := by simp
    rw [htext, if_pos (List.isPrefixOf_iff_prefix.mpr (List.prefix_append _ _)), hlength,
      List.drop_left, String.ofList_toList]

private theorem foldl_shorter (texts : List String) (first : String) :
    (texts.foldl shorter first = first ∨ texts.foldl shorter first ∈ texts) ∧
      (texts.foldl shorter first).length ≤ first.length ∧
      ∀ s ∈ texts, (texts.foldl shorter first).length ≤ s.length := by
  induction texts generalizing first with
  | nil => exact ⟨.inl rfl, Nat.le_refl _, nofun⟩
  | cons s texts ih =>
    obtain ⟨hmem, hfirst, htexts⟩ := ih (shorter first s)
    rw [List.foldl_cons]
    have hshorter : shorter first s = first ∧ first.length < s.length ∨
        shorter first s = s ∧ s.length ≤ first.length := by
      rw [shorter]
      split
      · exact .inl ⟨rfl, ‹_›⟩
      · exact .inr ⟨rfl, Nat.not_lt.mp ‹_›⟩
    rcases hshorter with ⟨heq, hlt⟩ | ⟨heq, hle⟩ <;> rw [heq] at hmem hfirst htexts ⊢
    · refine ⟨hmem.imp id (List.mem_cons_of_mem s), hfirst, fun u hu => ?_⟩
      rcases List.mem_cons.mp hu with rfl | hu
      · exact Nat.le_trans hfirst (Nat.le_of_lt hlt)
      · exact htexts u hu
    · refine ⟨.inr ?_, Nat.le_trans hfirst hle, fun u hu => ?_⟩
      · rcases hmem with hmem | hmem
        · rw [hmem]
          exact List.mem_cons_self
        · exact List.mem_cons_of_mem s hmem
      · rcases List.mem_cons.mp hu with rfl | hu
        · exact hfirst
        · exact htexts u hu

private theorem exists_join_relative
    (h : ∃ base ∈ r.bases, base = "" ∨ ∃ rest, path = base ++ "/" ++ rest) :
    ∃ base ∈ r.bases, path = join base (r.relative path) := by
  obtain ⟨hmem, -, hshortest⟩ := foldl_shorter (r.bases.filterMap (below? path)) path
  rw [← relative] at hmem hshortest
  rcases hmem with heq | hmem
  · obtain ⟨base, hbase, rfl | ⟨rest, hrest⟩⟩ := h
    · exact ⟨"", hbase, heq.symm⟩
    by_cases hempty : base = ""
    · exact ⟨base, hbase, by rw [heq, hempty, join_empty]⟩
    -- A directory that contains the path leaves less than the path.
    have hle := hshortest rest
      (List.mem_filterMap.mpr ⟨base, hbase, below?_eq_some.mpr ⟨hempty, hrest⟩⟩)
    have hlength := congrArg String.length hrest
    rw [heq] at hle
    simp only [String.length_append] at hlength
    have hslash : "/".length = 1 := rfl
    omega
  · obtain ⟨base, hbase, hbelow⟩ := List.mem_filterMap.mp hmem
    obtain ⟨hempty, heq⟩ := below?_eq_some.mp hbelow
    exact ⟨base, hbase, by rw [join_of_ne hempty]; exact heq⟩

private theorem exists_isModule (h : IsModule (join base rest) stem ext) :
    ∃ inner, IsModule rest inner ext := by
  by_cases hbase : base = ""
  · rw [hbase, join_empty] at h
    exact ⟨stem, h⟩
  have heq : base.toList ++ ['/'] ++ rest.toList = stem.toList ++ ('.' :: ext.toList) := by
    have hpath := congrArg String.toList h.path_eq
    rw [join_of_ne hbase] at hpath
    simpa using hpath
  have hslash : '/' ∉ '.' :: ext.toList := by
    rcases List.mem_cons.mp h.ending with rfl | hext
    · decide
    · obtain rfl := List.mem_singleton.mp hext
      decide
  obtain ⟨mid, hstem, hrest⟩ : ∃ mid, stem.toList = base.toList ++ ['/'] ++ mid ∧
      rest.toList = mid ++ ('.' :: ext.toList) := by
    rcases List.append_eq_append_iff.mp heq with ⟨mid, hstem, hrest⟩ | ⟨mid, hfront, hend⟩
    · exact ⟨mid, hstem, hrest⟩
    -- The slash in front of the rest is none of the ending.
    · rcases List.eq_nil_or_concat mid with rfl | ⟨mid, c, rfl⟩
      · exact ⟨[], by simpa using hfront.symm, by simpa using hend.symm⟩
      · rw [List.concat_eq_append, ← List.append_assoc] at hfront
        obtain ⟨-, hc⟩ := List.append_inj' hfront rfl
        refine absurd ?_ hslash
        rw [hend, List.concat_eq_append, ← hc]
        simp
  have hstem : stem = base ++ String.singleton '/' ++ String.ofList mid :=
    String.toList_injective (by simpa using hstem)
  refine ⟨String.ofList mid, String.toList_injective (by simpa using hrest), h.ending, ?_⟩
  intro name hname
  refine h.named name ?_
  rw [hstem, Text.split_append]
  exact List.mem_append_right _ hname

/-! ## Endings -/

private theorem without?_eq_some : without? ending text = some stem ↔ text = stem ++ ending := by
  rw [without?]
  constructor
  · intro h
    split at h
    · rename_i hsuffix
      obtain ⟨front, hfront⟩ := List.isSuffixOf_iff_suffix.mp hsuffix
      have hlength := congrArg List.length hfront
      simp only [List.length_append, String.length_toList] at hlength
      have hsub : text.length - ending.length = front.length := by omega
      rw [hsub, ← hfront, List.take_left] at h
      refine String.toList_injective ?_
      rw [← Option.some.inj h, ← hfront]
      simp
    · cases h
  · rintro rfl
    have hlength : (stem ++ ending).length - ending.length = stem.toList.length := by
      rw [String.length_append, String.length_toList]
      omega
    rw [String.toList_append, if_pos (List.isSuffixOf_iff_suffix.mpr (List.suffix_append _ _)),
      hlength, List.take_left, String.ofList_toList]

private theorem stem_append (h : ext ∈ extensions) : Resolver.stem (stem ++ "." ++ ext) = stem := by
  have hfound : without? ("." ++ ext) (stem ++ "." ++ ext) = some stem :=
    without?_eq_some.mpr (String.append_assoc ..)
  rcases List.mem_cons.mp h with rfl | h
  · rw [Resolver.stem, extensions, List.findSome?_cons, hfound]
    rfl
  obtain rfl := List.mem_singleton.mp h
  have hother : without? ("." ++ "pyi") (stem ++ "." ++ "py") = none := by
    rw [Option.eq_none_iff_forall_ne_some]
    intro other hother
    have hlast := congrArg (fun s => s.toList.getLast?) (without?_eq_some.mp hother)
    simp at hlast
  rw [Resolver.stem, extensions, List.findSome?_cons, hother, List.findSome?_cons, hfound]
  rfl

/-! ## Dotted names -/

private theorem dots_ofNames {ns : List String} (h : ∀ name ∈ ns, '/' ∉ name.toList) :
    String.ofList ((ofNames ns).toList.map fun c => if c = '/' then '.' else c) =
      ".".intercalate ns := by
  induction ns with
  | nil => rfl
  | cons name ns ih =>
    have hname : name.toList.map (fun c => if c = '/' then '.' else c) = name.toList :=
      (List.map_congr_left fun c hc =>
        if_neg (ne_of_mem_of_not_mem hc (h name List.mem_cons_self))).trans (List.map_id _)
    have ih := ih fun n hn => h n (List.mem_cons_of_mem name hn)
    by_cases hns : ns = []
    · rw [hns, ofNames_singleton, hname, String.ofList_toList, String.intercalate_singleton]
    · rw [ofNames_cons hns, String.intercalate_cons_of_ne_nil hns, ← ih]
      simp [hname, String.append_assoc]

private theorem join_append : join base (text ++ rest) = join base text ++ rest := by
  by_cases hbase : base = ""
  · rw [hbase, join_empty, join_empty]
  · rw [join_of_ne hbase, join_of_ne hbase, ← String.append_assoc]

section

variable {ns : List String} (hnames : ∀ name ∈ ns, name ≠ "") (hne : ns ≠ [])
  (hext : ext ∈ extensions)

include hnames hne hext

private theorem mem_candidatesIn_module :
    join base (ofNames ns ++ "." ++ ext) ∈ candidatesIn base ns := by
  rw [candidatesIn, foldl_join hnames hne, if_neg (by simpa using hne), String.append_assoc,
    join_append, ← String.append_assoc]
  exact List.mem_append_left _ (List.mem_map.mpr ⟨ext, hext, rfl⟩)

private theorem mem_candidatesIn_package :
    join base (ofNames (ns ++ ["__init__"]) ++ "." ++ ext) ∈ candidatesIn base ns := by
  have hdirectory : ofNames ns ≠ "" := ofNames_ne_empty hnames hne
  have hjoin : join base (ofNames ns) ≠ "" := by
    rw [join]
    split
    · exact hdirectory
    · simp [hdirectory]
  have hpath : join base (ofNames (ns ++ ["__init__"]) ++ "." ++ ext) =
      join (join base (ofNames ns)) ("__init__." ++ ext) := by
    have hinit : "__init__." = "__init__" ++ "." := rfl
    rw [ofNames_append hne (List.cons_ne_nil _ _), ofNames_singleton, join_of_ne hjoin, hinit]
    simp only [String.append_assoc, join_append]
  rw [candidatesIn, foldl_join hnames hne, hpath]
  refine List.mem_append_right _ (List.mem_map.mpr ⟨_, ?_, rfl⟩)
  exact List.mem_map.mpr ⟨ext, hext, rfl⟩

end

private theorem parts_moduleName (hrelative : r.relative path = rest) (h : IsModule rest stem ext)
    (hname : (r.moduleName path).1 ≠ "") :
    ∃ ns, Text.parts '.' (r.moduleName path).1 = ns ∧ ns ≠ [] ∧ (∀ name ∈ ns, name ≠ "") ∧
      (stem = ofNames ns ∨ stem = ofNames (ns ++ ["__init__"])) := by
  have hdots := dots_ofNames fun name (hmem : name ∈ Text.split '/' stem) =>
    Text.not_mem_of_mem_split hmem
  have hsplit : Text.split '.' (".".intercalate (Text.split '/' stem)) = Text.split '/' stem :=
    Text.split_intercalate (fun name hmem => (h.named name hmem).2) (Text.split_ne_nil _ _)
  rw [ofNames_split] at hdots
  rw [moduleName, hrelative, h.path_eq, stem_append h.ending, hdots] at hname ⊢
  by_cases hinit : ".".intercalate (Text.split '/' stem) = "__init__"
  · rw [if_pos hinit] at hname
    exact absurd rfl hname
  rw [if_neg hinit]
  cases hpackage : without? ".__init__" (".".intercalate (Text.split '/' stem)) with
  | none =>
    have hfilled : ∀ name ∈ Text.split '/' stem, name ≠ "" := fun name hmem => (h.named name hmem).1
    refine ⟨Text.split '/' stem, ?_, Text.split_ne_nil _ _, hfilled, .inl (ofNames_split stem).symm⟩
    rw [Text.parts_eq_split (hsplit.symm ▸ hfilled), hsplit]
  | some package =>
    have hnames : Text.split '/' stem = Text.split '.' package ++ ["__init__"] := by
      have hdotted : ".".intercalate (Text.split '/' stem) =
          package ++ String.singleton '.' ++ "__init__" := by
        rw [without?_eq_some.mp hpackage, String.append_assoc]
        rfl
      rw [← hsplit, hdotted, Text.split_append]
      rfl
    have hfilled : ∀ name ∈ Text.split '.' package, name ≠ "" := fun name hmem =>
      (h.named name (hnames ▸ List.mem_append_left _ hmem)).1
    refine ⟨_, Text.parts_eq_split hfilled, Text.split_ne_nil _ _, hfilled, .inr ?_⟩
    rw [← hnames, ofNames_split]

/-! ## The way back -/

private theorem find?_eq_some_of_mem {present : String → Bool} {paths : List String}
    (hmem : path ∈ paths)
    (hpresent : ∀ q, present q = true ↔ q = path) : paths.find? present = some path := by
  have hsome : (paths.find? present).isSome :=
    List.find?_isSome.mpr ⟨path, hmem, (hpresent path).mpr rfl⟩
  obtain ⟨found, hfound⟩ := Option.isSome_iff_exists.mp hsome
  rw [hfound, (hpresent found).mp (List.find?_some hfound)]

/-- **Module names resolve back to their files.** -/
theorem resolve?_moduleName (r : Resolver) (h : IsModule path stem ext)
    (hbase : ∃ base ∈ r.bases, base = "" ∨ ∃ rest, path = base ++ "/" ++ rest)
    (hname : (r.moduleName path).1 ≠ "") (present : String → Bool)
    (hpresent : ∀ q, present q = true ↔ q = path) (importer : String) :
    r.resolve? present importer (r.moduleName path).1 0 = some path := by
  obtain ⟨base, hmem, hpath⟩ := exists_join_relative hbase
  obtain ⟨inner, hinner⟩ := exists_isModule (hpath ▸ h)
  obtain ⟨ns, hparts, hne, hfilled, hstem⟩ := parts_moduleName rfl hinner hname
  have hcandidate : path ∈ candidatesIn base ns := by
    rw [hpath, hinner.path_eq]
    rcases hstem with rfl | rfl
    · exact mem_candidatesIn_module hfilled hne hinner.ending
    · exact mem_candidatesIn_package hfilled hne hinner.ending
  refine find?_eq_some_of_mem ?_ hpresent
  rw [candidates, hparts, if_neg (by simpa using hne)]
  refine List.mem_flatMap.mpr ⟨base, ?_, hcandidate⟩
  exact List.mem_eraseDups.mpr (List.mem_cons_of_mem _ hmem)

/-- A package below two directories that are searched is named, and found, below the inner one. -/
theorem resolve?_moduleName_nested :
    (ofPaths ["src"] ["./src/lib"]).moduleName "src/lib/pkg/__init__.py" = ("pkg", true) ∧
      (ofPaths ["src"] ["./src/lib"]).resolve? (· == "src/lib/pkg/__init__.py") "main.py" "pkg" 0 =
        some "src/lib/pkg/__init__.py" := by
  have hmodule : IsModule "src/lib/pkg/__init__.py" "src/lib/pkg/__init__" "py" :=
    ⟨by decide, by decide, by decide⟩
  have hbases : (ofPaths ["src"] ["./src/lib"]).bases = ["src", "src/lib"] := by decide
  have hname : (ofPaths ["src"] ["./src/lib"]).moduleName "src/lib/pkg/__init__.py" =
      ("pkg", true) := by decide
  have hfound := resolve?_moduleName (ofPaths ["src"] ["./src/lib"]) hmodule
    ⟨"src", by rw [hbases]; decide, .inr ⟨"lib/pkg/__init__.py", by decide⟩⟩ (by rw [hname]; decide)
    (· == "src/lib/pkg/__init__.py") (fun _ => beq_iff_eq) "main.py"
  rw [hname] at hfound
  exact ⟨hname, hfound⟩

end Resolver
end LiveCheck
