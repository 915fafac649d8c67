import LiveCheck.Proofs.Session.Reachability

/-!
# The graph of imports

The two directions of the graph mirror each other, so walks along them find what paths of imports
lead to, and where these come from.
-/

/-!
## The two directions of the graph of imports

The graph is kept twice, by what a file imports and by what imports it, and every edit changes both.
Each direction is looked at as a set of links. An edit is described once, by the links that it makes
and takes away in either direction; that the directions go on to mirror each other follows from
these descriptions, for one edit and for every sequence of edits.
-/

namespace LiveCheck.ImportGraph

/-- The sets of one direction. -/
abbrev Links := Std.TreeMap FileId FileSet

/-! ### Links -/

private def Linked (m : Links) (key value : FileId) : Prop :=
  ∃ files, m[key]? = some files ∧ value ∈ files

/-- No set is kept that is empty. -/
def Inhabits (m : Links) : Prop :=
  ∀ (key : FileId) (files : FileSet), m[key]? = some files → ∃ value, value ∈ files

variable {m : Links} {key value key' value' file other : FileId} {files keys : List FileId}

private theorem not_linked_of_none (h : m[key]? = none) : ¬ Linked m key value := by
  rintro ⟨files, hfiles, -⟩
  rw [h] at hfiles
  cases hfiles

private theorem linked_of_some {files : FileSet} (h : m[key]? = some files) :
    Linked m key value ↔ value ∈ files := by
  simp [Linked, h]

private theorem linked_congr {m' : Links} (h : m'[key]? = m[key]?) :
    Linked m' key value ↔ Linked m key value := by
  rw [Linked, Linked, h]

private theorem mem_erase {files : FileSet} :
    value' ∈ files.erase value ↔ value' ∈ files ∧ value' ≠ value := by
  rw [Std.TreeSet.mem_erase, ne_eq, Std.LawfulEqCmp.compare_eq_iff_eq, eq_comm, and_comm]

private theorem mem_set_iff : value ∈ (m[key]?).elim [] (·.toList) ↔ Linked m key value := by
  cases h : m[key]? <;> simp [Linked, h]

private theorem linked_insert {files : FileSet} :
    Linked (m.insert key files) key' value ↔
      if key' = key then value ∈ files else Linked m key' value := by
  split
  · next h =>
    subst h
    exact linked_of_some (by simp)
  · next h => exact linked_congr (by simp [Std.TreeMap.getElem?_insert, Ne.symm h])

private theorem linked_erase :
    Linked (m.erase key) key' value ↔ key' ≠ key ∧ Linked m key' value := by
  by_cases h : key' = key
  · subst h
    simp [Linked]
  · rw [and_iff_right h]
    exact linked_congr (by simp [Std.TreeMap.getElem?_erase, Ne.symm h])

/-! ### Making and taking links -/

private theorem linked_link :
    Linked (link m key value) key' value' ↔
      Linked m key' value' ∨ key' = key ∧ value' = value := by
  rw [link, linked_insert]
  split
  · next h =>
    subst h
    rw [Std.TreeSet.mem_insert, Std.LawfulEqCmp.compare_eq_iff_eq, Std.TreeMap.getD_eq_getD_getElem?]
    cases hfiles : m[key']? with
    | none => simp [not_linked_of_none hfiles, eq_comm]
    | some files => simp [linked_of_some hfiles, or_comm, eq_comm]
  · next h => simp [h]

private theorem linked_foldl_link :
    Linked (keys.foldl (fun m key => link m key value) m) key' value' ↔
      Linked m key' value' ∨ key' ∈ keys ∧ value' = value := by
  induction keys generalizing m with
  | nil => simp
  | cons key keys ih => rw [List.foldl_cons, ih, linked_link, List.mem_cons, or_assoc, or_and_right]

private theorem linked_unlink :
    Linked (unlink value m key) key' value' ↔
      Linked m key' value' ∧ ¬ (key' = key ∧ value' = value) := by
  unfold unlink
  split
  · next files hfiles =>
    have hrest : value' ∈ files.erase value ↔ Linked m key value' ∧ value' ≠ value := by
      rw [mem_erase, linked_of_some hfiles]
    by_cases h : key' = key
    · subst h
      split
      · next hempty =>
        have hnone := Std.TreeSet.isEmpty_iff_forall_not_mem.mp hempty value'
        rw [hrest] at hnone
        simpa [linked_erase] using hnone
      · simpa [linked_insert] using hrest
    · split <;> simp [linked_erase, linked_insert, h]
  · next hnone =>
    refine ⟨fun h => ⟨h, ?_⟩, And.left⟩
    rintro ⟨rfl, -⟩
    exact not_linked_of_none hnone h

private theorem linked_foldl_unlink :
    Linked (keys.foldl (unlink value) m) key' value' ↔
      Linked m key' value' ∧ ¬ (key' ∈ keys ∧ value' = value) := by
  induction keys generalizing m with
  | nil => simp
  | cons key keys ih =>
    rw [List.foldl_cons, ih, linked_unlink, and_assoc, ← not_or, ← or_and_right, ← List.mem_cons]

private theorem linked_modify :
    Linked (m.modify key (·.erase value)) key' value' ↔
      Linked m key' value' ∧ ¬ (key' = key ∧ value' = value) := by
  by_cases h : key' = key
  · subst h
    cases hfiles : m[key']? with
    | none =>
      have hnone : (m.modify key' (·.erase value))[key']? = none := by simp [hfiles]
      simp [not_linked_of_none hnone, not_linked_of_none hfiles]
    | some files =>
      have hsome : (m.modify key' (·.erase value))[key']? = some (files.erase value) := by
        simp [hfiles]
      rw [linked_of_some hsome, linked_of_some hfiles, mem_erase]
      simp
  · have hsame : (m.modify key (·.erase value))[key']? = m[key']? := by
      simp [Std.TreeMap.getElem?_modify, Ne.symm h]
    rw [linked_congr hsame]
    simp [h]

private theorem linked_foldl_modify :
    Linked (keys.foldl (fun m key => m.modify key (·.erase value)) m) key' value' ↔
      Linked m key' value' ∧ ¬ (key' ∈ keys ∧ value' = value) := by
  induction keys generalizing m with
  | nil => simp
  | cons key keys ih =>
    rw [List.foldl_cons, ih, linked_modify, and_assoc, ← not_or, ← or_and_right, ← List.mem_cons]

/-! ### Sets that are not empty -/

private theorem Inhabits.link (h : Inhabits m) (key value : FileId) :
    Inhabits (link m key value) := by
  intro key' files hfiles
  rw [ImportGraph.link, Std.TreeMap.getElem?_insert] at hfiles
  split at hfiles
  · cases hfiles
    exact ⟨value, by simp⟩
  · exact h key' files hfiles

private theorem Inhabits.erase (h : Inhabits m) (key : FileId) : Inhabits (m.erase key) := by
  intro key' files hfiles
  rw [Std.TreeMap.getElem?_erase] at hfiles
  split at hfiles
  · cases hfiles
  · exact h key' files hfiles

private theorem Inhabits.unlink (h : Inhabits m) (value key : FileId) :
    Inhabits (unlink value m key) := by
  unfold ImportGraph.unlink
  split
  · next files _ =>
    split
    · exact h.erase key
    · next hne =>
      intro key' files' hfiles'
      rw [Std.TreeMap.getElem?_insert] at hfiles'
      split at hfiles'
      · cases hfiles'
        exact Std.TreeSet.isEmpty_eq_false_iff_exists_mem.mp (Bool.eq_false_iff.mpr hne)
      · exact h key' files' hfiles'
  · exact h

private theorem Inhabits.foldl {f : Links → FileId → Links}
    (hf : ∀ m key, Inhabits m → Inhabits (f m key))
    (h : Inhabits m) (keys : List FileId) : Inhabits (keys.foldl f m) := by
  induction keys generalizing m with
  | nil => exact h
  | cons key keys ih => exact ih (hf m key h)

/-! ### What the edits do -/

variable (g : ImportGraph)

private theorem mem_imports : value ∈ g.imports key ↔ Linked g.dependencies key value := mem_set_iff

private theorem mem_importers :
    value ∈ g.importers key ↔ Linked g.dependents key value := mem_set_iff

/-- The two directions mirror each other, no file imports itself, and every set of importers has a
member. -/
structure Mirrored : Prop where
  mirror : ∀ file imported, imported ∈ g.imports file ↔ file ∈ g.importers imported
  irreflexive : ∀ file, file ∉ g.imports file
  inhabits : Inhabits g.dependents

/-- A file imports these files, itself left out, and what other files import is as it was. -/
structure Replaces (file : FileId) (files : List FileId) (g' : ImportGraph) : Prop where
  replaced : ∀ imported, imported ∈ g'.imports file ↔ imported ∈ files ∧ imported ≠ file
  others : ∀ other, other ≠ file → g'.dependencies[other]? = g.dependencies[other]?

/-- No edge touches a file, and every edge that did not touch it is still there. -/
structure Detaches (file : FileId) (g' : ImportGraph) : Prop where
  imports : ∀ other imported,
    imported ∈ g'.imports other ↔ imported ∈ g.imports other ∧ other ≠ file ∧ imported ≠ file
  importers : ∀ other importer,
    importer ∈ g'.importers other ↔ importer ∈ g.importers other ∧ other ≠ file ∧ importer ≠ file

variable {g}

private theorem Mirrored.linked_iff (hg : g.Mirrored) :
    Linked g.dependents value key ↔ Linked g.dependencies key value := by
  rw [← mem_importers, ← mem_imports, hg.mirror]

private theorem Mirrored.not_linked (hg : g.Mirrored) : ¬ Linked g.dependencies file file := by
  rw [← mem_imports]
  exact hg.irreflexive file

private theorem linked_dependencies_update :
    Linked (g.update file files).dependencies key value ↔
      if key = file then value ∈ files ∧ value ≠ file else Linked g.dependencies key value := by
  have hkept : value ∈ files.filter (· != file) ↔ value ∈ files ∧ value ≠ file := by simp
  unfold update
  dsimp only
  split
  · next hempty =>
    rw [List.isEmpty_iff] at hempty
    rw [hempty] at hkept
    rw [linked_erase]
    split
    · next h => simpa [h] using hkept
    · next h => simp [h]
  · rw [linked_insert, Std.TreeSet.mem_ofList, List.contains_iff_mem, hkept]

private theorem Mirrored.linked_dependents_update (hg : g.Mirrored) :
    Linked (g.update file files).dependents key value ↔
      if value = file then key ∈ files ∧ key ≠ file else Linked g.dependents key value := by
  have hkept : key ∈ files.filter (· != file) ↔ key ∈ files ∧ key ≠ file := by simp
  have hrest : Linked ((g.imports file).foldl (unlink file) g.dependents) key value ↔
      value ≠ file ∧ Linked g.dependents key value := by
    rw [linked_foldl_unlink, mem_imports, hg.linked_iff]
    grind
  unfold update
  dsimp only
  split
  · next hempty =>
    rw [List.isEmpty_iff] at hempty
    rw [hempty] at hkept
    rw [hrest]
    split
    · next h => simpa [h] using hkept
    · next h => simp [h]
  · rw [linked_foldl_link, hkept, hrest]
    split
    · next h => simp [h]
    · next h => simp [h]

private theorem replaces_update (g : ImportGraph) (file : FileId) (files : List FileId) :
    g.Replaces file files (g.update file files) where
  replaced imported := by rw [mem_imports, linked_dependencies_update, if_pos rfl]
  others other h := by
    unfold update
    dsimp only
    split
    · simp [Std.TreeMap.getElem?_erase, Ne.symm h]
    · simp [Std.TreeMap.getElem?_insert, Ne.symm h]

private theorem Mirrored.detaches_remove (hg : g.Mirrored) (file : FileId) :
    g.Detaches file (g.remove file) := by
  have hrest {key value : FileId} :
      Linked ((g.imports file).foldl (unlink file) g.dependents) key value ↔
        Linked g.dependents key value ∧ value ≠ file := by
    rw [linked_foldl_unlink, mem_imports, hg.linked_iff]
    grind
  constructor
  · intro other imported
    rw [mem_imports, mem_imports]
    unfold remove
    rw [linked_foldl_modify, linked_erase, mem_set_iff, hrest, hg.linked_iff]
    grind
  · intro other importer
    rw [mem_importers, mem_importers]
    unfold remove
    rw [linked_erase, hrest]
    exact and_left_comm

/-! ### Every edit keeps the mirror -/

theorem Mirrored.add (hg : g.Mirrored) (file imported : FileId) :
    (g.add file imported).Mirrored := by
  unfold ImportGraph.add
  split
  · exact hg
  · next hne =>
    refine ⟨fun file' imported' => ?_, fun file' => ?_, hg.inhabits.link imported file⟩
    · rw [mem_imports, mem_importers, linked_link, linked_link, hg.linked_iff, and_comm]
    · rw [mem_imports, linked_link]
      rintro (h | ⟨rfl, rfl⟩)
      · exact hg.not_linked h
      · exact hne rfl

theorem Mirrored.update (hg : g.Mirrored) (file : FileId) (files : List FileId) :
    (g.update file files).Mirrored := by
  refine ⟨fun file' imported => ?_, fun file' => ?_, ?_⟩
  · rw [mem_imports, mem_importers, linked_dependencies_update, hg.linked_dependents_update,
      hg.linked_iff]
  · rw [mem_imports, linked_dependencies_update]
    split
    · next h => simp [h]
    · exact hg.not_linked
  · have hunlinked : Inhabits ((g.imports file).foldl (unlink file) g.dependents) :=
      hg.inhabits.foldl (fun _ key h => h.unlink file key) _
    unfold ImportGraph.update
    dsimp only
    split
    · exact hunlinked
    · exact hunlinked.foldl (fun _ key h => h.link key file) _

theorem Mirrored.remove (hg : g.Mirrored) (file : FileId) : (g.remove file).Mirrored := by
  have hdetached := hg.detaches_remove file
  refine ⟨fun file' imported => ?_, fun file' h => ?_, ?_⟩
  · rw [hdetached.imports, hdetached.importers, hg.mirror, and_comm (a := file' ≠ file)]
  · exact hg.irreflexive file' ((hdetached.imports file' file').mp h).1
  · exact (hg.inhabits.foldl (fun _ key h => h.unlink file key) _).erase file

theorem mirrored_empty : ({} : ImportGraph).Mirrored where
  mirror file imported := by simp [imports, importers]
  irreflexive file := by simp [imports]
  inhabits key files h := by simp at h

/-! ### Sequences of edits -/

/-- An edit of the graph. -/
inductive Edit
  | add (file imported : FileId)
  | update (file : FileId) (files : List FileId)
  | remove (file : FileId)
  | clear
deriving Repr, DecidableEq

/-- The graph behind an edit. -/
def apply (g : ImportGraph) : Edit → ImportGraph
  | .add file imported => g.add file imported
  | .update file files => g.update file files
  | .remove file => g.remove file
  | .clear => g.clear

private theorem Mirrored.apply (hg : g.Mirrored) : (edit : Edit) → (g.apply edit).Mirrored
  | .add file imported => hg.add file imported
  | .update file files => hg.update file files
  | .remove file => hg.remove file
  | .clear => mirrored_empty

/-- The graph behind a sequence of edits. -/
def after (g : ImportGraph) (edits : List Edit) : ImportGraph := edits.foldl apply g

private theorem Mirrored.after (hg : g.Mirrored) (edits : List Edit) :
    (g.after edits).Mirrored := by
  induction edits generalizing g with
  | nil => exact hg
  | cons edit edits ih => exact ih (hg.apply edit)

/-- **The graph of imports stays a mirror image.** Behind every sequence of edits of an empty graph
the two directions mirror each other, an update of a file replaces what that file imports and
nothing else, and the removal of a file takes away the edges that touch it and no others. -/
theorem mirrored_after (edits : List Edit) :
    (after {} edits).Mirrored ∧
      (∀ file files, (after {} edits).Replaces file files ((after {} edits).update file files)) ∧
      ∀ file, (after {} edits).Detaches file ((after {} edits).remove file) := by
  have h := mirrored_empty.after edits
  exact ⟨h, replaces_update _, h.detaches_remove⟩

end LiveCheck.ImportGraph

/-!
## What is reached through the graph of imports

What some files reach by their imports, and which files a change of one file may affect, is found by
walks along the two directions of the graph. Both walks end, whatever circles the imports form. As
the directions mirror each other, they find what paths of imports lead to, and where these come from.
-/

namespace LiveCheck.ImportGraph

variable {g : ImportGraph} {file other : FileId} {files : List FileId}

/-- One file imports another one. -/
def Imports (g : ImportGraph) (file imported : FileId) : Prop := imported ∈ g.imports file

private theorem mem_reachable_iff :
    file ∈ g.reachable files ↔ ∃ first ∈ files, Relation.ReflTransGen g.Imports first file :=
  (g.walks_reachable files).mem_iff

/-! ### Importers -/

private def dependentsOf (g : ImportGraph) (file : FileId) : FileSet :=
  reachUpTo g.importers (1 + edgeCount g.dependents) [file] ∅

private theorem affected_eq (g : ImportGraph) (file : FileId) :
    g.affected file = ((g.dependentsOf file).erase file).toList := rfl

private theorem walks_dependentsOf (g : ImportGraph) (file : FileId) :
    Walks g.importers [file] ∅ (g.dependentsOf file) := walks_start g.dependents [file]

private theorem Mirrored.path_iff (hg : g.Mirrored) :
    Relation.ReflTransGen (fun f f' => f' ∈ g.importers f) file other ↔
      Relation.ReflTransGen g.Imports other file := by
  rw [← Relation.reflTransGen_swap]
  have hswap : (fun f f' => f' ∈ g.importers f) = Function.swap g.Imports :=
    funext₂ fun f f' => propext (hg.mirror f' f).symm
  rw [hswap]

/-- The files that a change of a file affects are the other ones from which a path of imports leads
to it. -/
theorem Mirrored.mem_affected (hg : g.Mirrored) :
    other ∈ g.affected file ↔ other ≠ file ∧ Relation.TransGen g.Imports other file := by
  have hreached : other ∈ g.dependentsOf file ↔ Relation.ReflTransGen g.Imports other file := by
    rw [(g.walks_dependentsOf file).mem_iff, ← hg.path_iff]
    simp
  rw [affected_eq, Std.TreeSet.mem_toList, mem_erase, hreached,
    Relation.reflTransGen_iff_eq_or_transGen]
  grind

private theorem pairwise_affected (g : ImportGraph) (file : FileId) :
    (g.affected file).Pairwise (· < ·) :=
  Std.TreeSet.ordered_toList.imp fun h => Nat.compare_eq_lt.mp h

/-- **What is found in the graph of imports is exact.** Behind every sequence of edits of an empty
graph, the walk along the importers of a file ends; the files that it reaches, but the file itself,
are listed in strictly ascending order, and they are the other files from which one or more imports
lead to the file. The walk along the imports of some files ends, too, and it reaches the files that
no or more imports lead to from one of them. -/
theorem closures_after (edits : List Edit) :
    (∀ file, ∃ reached, Walks (after {} edits).importers [file] ∅ reached ∧
      (after {} edits).affected file = (reached.erase file).toList ∧
      ((after {} edits).affected file).Pairwise (· < ·) ∧
      ∀ other, other ∈ (after {} edits).affected file ↔
        other ≠ file ∧ Relation.TransGen (after {} edits).Imports other file) ∧
    ∀ files, Walks (after {} edits).imports files ∅ ((after {} edits).reachable files) ∧
      ∀ file, file ∈ (after {} edits).reachable files ↔
        ∃ first ∈ files, Relation.ReflTransGen (after {} edits).Imports first file := by
  have hg : (after {} edits).Mirrored := mirrored_empty.after edits
  refine ⟨fun file => ?_, fun files => ⟨walks_reachable _ files, fun file => mem_reachable_iff⟩⟩
  exact ⟨_, walks_dependentsOf _ file, affected_eq _ file, pairwise_affected _ file,
    fun other => hg.mem_affected⟩

end LiveCheck.ImportGraph
