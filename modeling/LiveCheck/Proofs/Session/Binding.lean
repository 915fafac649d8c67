import LiveCheck.Session.Loading
import Mathlib.Logic.Relation

/-!
# What binding does to a session

Binding a unit may bind others first, to any depth. Whatever it does is a sequence of five kinds of
steps: looking up an import, parsing a unit, dropping the results of a unit, beginning to bind a unit
and giving it its binding. A property that each of these steps keeps is kept by binding as a whole.
-/

/-!
## The units of a session

What the operations on units do, seen through `unit?`. Paths find units, and the operations that
change a unit in place leave every other unit, and all else of the session, as it was.
-/

namespace LiveCheck.Session

variable (s : Session) (file other : FileId) (path : String) (f : SourceUnit → SourceUnit)

/-! ### Changing a unit in place -/

/-- A change of one unit is seen at that unit only. -/
theorem unit?_modifyUnit :
    (s.modifyUnit file f).unit? other =
      if other = file then (s.unit? other).map f else s.unit? other := by
  simp only [unit?, modifyUnit, Array.getElem?_modify, eq_comm (a := other)]
  by_cases h : file = other
  · simp only [h, if_true]
    cases s.units[other]? <;> rfl
  · simp only [h, if_false]

/-- The unit itself is changed. -/
theorem unit?_modifyUnit_self : (s.modifyUnit file f).unit? file = (s.unit? file).map f := by
  rw [unit?_modifyUnit, if_pos rfl]

variable {other} in
/-- Other units are left as they are. -/
theorem unit?_modifyUnit_of_ne (h : other ≠ file) :
    (s.modifyUnit file f).unit? other = s.unit? other := by
  rw [unit?_modifyUnit, if_neg h]

/-- The units after a change of one of them, one by one. -/
theorem unit?_modifyUnit_eq_some {s : Session} {file other : FileId} {f : SourceUnit → SourceUnit}
    (h : (s.modifyUnit file f).unit? other = some v) :
    ∃ u, s.unit? other = some u ∧ ((other = file ∧ v = f u) ∨ (other ≠ file ∧ v = u)) := by
  rw [unit?_modifyUnit] at h
  by_cases hf : other = file
  · rw [if_pos hf] at h
    obtain ⟨u, hu, rfl⟩ := Option.map_eq_some_iff.mp h
    exact ⟨u, hu, .inl ⟨hf, rfl⟩⟩
  · rw [if_neg hf] at h
    exact ⟨v, h, .inr ⟨hf, rfl⟩⟩

variable {s file} in
/-- A file with a unit is among the units. -/
theorem lt_size_of_unit? {u : SourceUnit} (hu : s.unit? file = some u) : file < s.units.size :=
  (Array.getElem?_eq_some_iff.mp (Option.join_eq_some_iff.mp hu)).1

variable {s file} in
/-- The numbers of units are those under which there is a unit. -/
theorem mem_ids : file ∈ s.ids ↔ (s.unit? file).isSome = true := by
  rw [ids, List.mem_filter, List.mem_range, and_iff_right_iff_imp]
  intro h
  obtain ⟨u, hu⟩ := Option.isSome_iff_exists.mp h
  exact lt_size_of_unit? hu

variable {s file} in
theorem path?_eq_some {u : SourceUnit} (hu : s.unit? file = some u) :
    s.path? file = some u.path := by
  rw [path?, hu]
  rfl

/-! ### Units by path -/

/-- Finding units by path and asking units for their paths are inverse to each other. -/
def Indexed : Prop := ∀ path file, s.find? path = some file ↔ s.path? file = some path

variable {s file} in
/-- A unit is found by its path. -/
theorem find?_path (hs : s.Indexed) {u : SourceUnit} (hu : s.unit? file = some u) :
    s.find? u.path = some file := (hs u.path file).mpr (path?_eq_some hu)

/-- No two units have the same path. -/
theorem Indexed.eq {s : Session} (hs : s.Indexed) {file other : FileId} {u : SourceUnit}
    (hu : s.unit? file = some u) (hv : s.unit? other = some v) (hp : u.path = v.path) :
    file = other := by
  have hfile := find?_path hs hu
  rw [hp, find?_path hs hv] at hfile
  exact (Option.some.inj hfile).symm

/-- Nothing about paths changes if all units and all entries stay where they were. -/
theorem Indexed.congr {s t : Session} (hs : s.Indexed) (hpaths : t.paths = s.paths)
    (h : ∀ file, t.path? file = s.path? file) : t.Indexed := by
  intro path file
  rw [h, find?, hpaths]
  exact hs path file

/-- Changing a unit in place leaves all paths as they were, if the unit keeps its path. -/
theorem path?_modifyUnit (hf : ∀ u, s.unit? file = some u → (f u).path = u.path) :
    (s.modifyUnit file f).path? other = s.path? other := by
  rw [path?, path?, unit?_modifyUnit]
  split
  · next h =>
    subst h
    cases hu : s.unit? other with
    | none => rfl
    | some u => exact congrArg some (hf u hu)
  · rfl

/-- Changing a unit in place, and whatever else but the table of paths, keeps paths apart. -/
theorem Indexed.modified {s t : Session} {file : FileId} {f : SourceUnit → SourceUnit}
    (hs : s.Indexed) (hpaths : t.paths = s.paths) (hunits : t.units = (s.modifyUnit file f).units)
    (hf : ∀ u, s.unit? file = some u → (f u).path = u.path) : t.Indexed := by
  refine hs.congr hpaths fun other => ?_
  rw [← path?_modifyUnit s file other f hf, path?, path?, unit?, unit?, hunits]

/-- Paths still lead to their units if none changes its path. -/
theorem Indexed.modifyUnit {s : Session} (hs : s.Indexed)
    (hf : ∀ u, s.unit? file = some u → (f u).path = u.path) : (s.modifyUnit file f).Indexed :=
  hs.modified rfl rfl hf

/-! ### New units -/

/-- The unit of a path about which nothing else is known. -/
def unseenUnit : SourceUnit :=
  { path := path
    moduleName := (s.resolver.moduleName path).1
    isPackage := (s.resolver.moduleName path).2 }

variable {s path} in
/-- A path that has a unit keeps it. -/
theorem unitFor_of_find? (h : s.find? path = some file) : s.unitFor path = (file, s) := by
  simp only [unitFor, h]

variable {s path} in
/-- A path without a unit is given one. -/
theorem unitFor_of_not_find? (h : s.find? path = none) :
    s.unitFor path =
      (s.units.size, { s with
        units := s.units.push (some (s.unseenUnit path))
        paths := s.paths.insert path s.units.size }) := by
  simp only [unitFor, h]
  rfl

/-- Asking for the unit of a path touches nothing but the units and their paths. -/
theorem rest_unitFor :
    (s.unitFor path).2 =
      { s with units := (s.unitFor path).2.units, paths := (s.unitFor path).2.paths } := by
  cases h : s.find? path with
  | some file => rw [unitFor_of_find? file h]
  | none => rw [unitFor_of_not_find? h]

/-- Asking for the unit of a path leaves the units there are as they were; the only new one is
unseen, and its path was not found before. -/
theorem unit?_unitFor :
    (s.unitFor path).2.unit? other =
      if s.find? path = none ∧ other = s.units.size then some (s.unseenUnit path)
      else s.unit? other := by
  cases h : s.find? path with
  | some file =>
    rw [unitFor_of_find? file h]
    simp
  | none =>
    rw [unitFor_of_not_find? h]
    simp only [unit?, Array.getElem?_push]
    by_cases ho : other = s.units.size
    · simp [ho]
    · simp [ho]

/-- A unit that exists keeps its number. -/
theorem unit?_size : s.unit? s.units.size = none := by
  simp [unit?]

variable {s other} in
/-- Asking for the unit of a path leaves the units that exist as they are. -/
theorem unit?_unitFor_of_some {u : SourceUnit} (hu : s.unit? other = some u) :
    (s.unitFor path).2.unit? other = some u := by
  rw [unit?_unitFor, if_neg, hu]
  rintro ⟨-, rfl⟩
  exact absurd (hu.symm.trans s.unit?_size) (Option.some_ne_none u)

theorem find?_unitFor (other : String) :
    (s.unitFor path).2.find? other =
      if s.find? path = none ∧ other = path then some s.units.size else s.find? other := by
  cases h : s.find? path with
  | some file =>
    rw [unitFor_of_find? file h]
    simp
  | none =>
    rw [unitFor_of_not_find? h]
    simp only [find?, Std.TreeMap.getElem?_insert, Std.compare_eq_iff_eq, true_and,
      eq_comm (a := other)]

/-- The unit of a new path gets a number that was never used. -/
theorem Indexed.unitFor {s : Session} (hs : s.Indexed) : (s.unitFor path).2.Indexed := by
  intro other file
  cases h : s.find? path with
  | some known =>
    rw [unitFor_of_find? known h]
    exact hs other file
  | none =>
    have hsize : s.path? s.units.size = none := by rw [path?, unit?_size]; rfl
    rw [find?_unitFor, path?, unit?_unitFor, h]
    simp only [true_and]
    by_cases hp : other = path
    · by_cases hf : file = s.units.size
      · simp [hp, hf, unseenUnit]
      · have hne : s.path? file ≠ some path := fun hfile => by
          rw [(hs path file).mpr hfile] at h
          exact nomatch h
        rw [if_pos hp, if_neg hf, hp]
        exact iff_of_false (fun heq => hf (Option.some.inj heq).symm) hne
    · by_cases hf : file = s.units.size
      · have hne : s.find? other ≠ some file := fun hfile => by
          rw [hf, hs other, hsize] at hfile
          exact nomatch hfile
        rw [if_neg hp, if_pos hf]
        exact iff_of_false hne fun heq => hp (Option.some.inj heq).symm
      · rw [if_neg hp, if_neg hf]
        exact hs other file

end LiveCheck.Session

namespace LiveCheck

/-! ## Units between two steps -/

/-- The state of a unit agrees with what the unit holds: a bound unit has a tree and a binding, a
parsed one has no binding yet, one whose imports changed still has its tree, and results are known
only of units that were bound. -/
structure SourceUnit.Tidy (u : SourceUnit) : Prop where
  bound : u.state.isBound = true → u.tree.isSome = true ∧ u.binding.isSome = true
  parsed : u.state = .parsed → u.tree.isSome = true ∧ u.binding = none
  stale : u.state = .stale .dependency → u.tree.isSome = true
  unbound : u.binding = none → u.analysis.isEmpty = true

/-- The unit has a tree, and nothing is known about its nodes: it is ready to be bound. -/
def SourceUnit.Blank (u : SourceUnit) : Prop := u.tree.isSome = true ∧ u.analysis.isEmpty = true

namespace SourceUnit

variable {u : SourceUnit}

/-- A unit that was only parsed knows nothing else. -/
theorem Tidy.blank (h : u.Tidy) (hp : u.state = .parsed) : u.Blank :=
  ⟨(h.parsed hp).1, h.unbound (h.parsed hp).2⟩

theorem blank_parsed (u : SourceUnit) (content : String) (word : UInt64) :
    (u.parsed content word).Blank := ⟨rfl, rfl⟩

theorem tidy_parsed (u : SourceUnit) (content : String) (word : UInt64) :
    (u.parsed content word).Tidy where
  bound h := nomatch h
  parsed _ := ⟨rfl, rfl⟩
  stale h := nomatch h
  unbound _ := rfl

theorem Tidy.discardEvaluation (h : u.Tidy) : u.discardEvaluation.Tidy where
  bound := h.bound
  parsed := h.parsed
  stale := h.stale
  unbound _ := rfl

theorem analysis_bound (u : SourceUnit) (b : Binding) (generation : Nat) :
    (u.bound b generation).analysis.isEmpty = u.analysis.isEmpty := by
  simp only [SourceUnit.bound]
  split <;> rfl

private theorem Blank.tidy_bound (h : u.Blank) (b : Binding) (generation : Nat) :
    (u.bound b generation).Tidy where
  bound _ := ⟨h.1, rfl⟩
  parsed hp := nomatch hp
  stale hp := nomatch hp
  unbound hb := nomatch hb

theorem Tidy.ofImportCache (h : u.Tidy) (cache : List ((String × Nat) × Option FileId)) :
    ({ u with importCache := cache } : SourceUnit).Tidy := { h with }

end SourceUnit

namespace Session

/-- All units are tidy. -/
def Tidy (s : Session) : Prop := ∀ file u, s.unit? file = some u → u.Tidy

variable {s t : Session} {file : FileId}

theorem tidy_unseenUnit (s : Session) (path : String) : (s.unseenUnit path).Tidy where
  bound h := nomatch h
  parsed h := nomatch h
  stale h := nomatch h
  unbound _ := rfl

theorem Tidy.unitFor (hs : s.Tidy) (path : String) : (s.unitFor path).2.Tidy := by
  intro file u hu
  rw [unit?_unitFor] at hu
  split at hu
  · obtain rfl := Option.some.inj hu
    exact tidy_unseenUnit s path
  · exact hs file u hu

/-- Units stay tidy if the changed one is. -/
theorem Tidy.modifyUnit {f : SourceUnit → SourceUnit} (hs : s.Tidy)
    (hf : ∀ u, s.unit? file = some u → (f u).Tidy) : (s.modifyUnit file f).Tidy := by
  intro other v hv
  obtain ⟨u, hu, ⟨rfl, rfl⟩ | ⟨-, rfl⟩⟩ := unit?_modifyUnit_eq_some hv
  · exact hf u hu
  · exact hs other v hu

/-! ## Steps -/

/-- Begins to bind a unit. -/
def binding (s : Session) (file : FileId) : Session :=
  { s with inProgress := file :: s.inProgress }

/-- Gives a unit its binding and records what it imports. -/
def bindWith (s : Session) (file : FileId) (binding : Binding) (targets : List FileId) : Session :=
  { s.modifyUnit file (·.bound binding s.generation) with
    inProgress := s.inProgress.filter (· != file)
    counters := { s.counters with binds := s.counters.binds + 1 }
    graph := s.graph.update file targets }

/-- One step of binding. -/
inductive BindStep (s : Session) : Session → Prop
  /-- An import is looked up. -/
  | resolve (file : FileId) (dotted : String) (level : Nat) :
    BindStep s (s.resolveImport file dotted level).2
  /-- A unit without an up-to-date tree gets the tree of its content. -/
  | parse {file : FileId} {u : SourceUnit} {content : String} (hu : s.unit? file = some u)
    (hs : u.state = .unseen ∨ u.state = .stale .content) (hc : s.content? file = some content) :
    BindStep s (s.parseUnit file content)
  /-- The results of a unit are dropped because something that it imports changed. -/
  | discard {file : FileId} {u : SourceUnit} (hu : s.unit? file = some u)
    (hs : u.state = .stale .dependency) :
    BindStep s (s.modifyUnit file SourceUnit.discardEvaluation)
  /-- A unit counts as being bound. -/
  | begin (file : FileId) : BindStep s (s.binding file)
  /-- A unit of which no results are known gets a binding. -/
  | bind {file : FileId} {u : SourceUnit} (binding : Binding) (targets : List FileId)
    (hu : s.unit? file = some u) (hb : u.Blank) : BindStep s (s.bindWith file binding targets)

/-- Some steps of binding. -/
abbrev Binds : Session → Session → Prop := Relation.ReflTransGen BindStep

/-- A property that every step of binding keeps is kept by binding. -/
theorem Binds.induct {P : Session → Prop} (hP : ∀ s t, BindStep s t → P s → P t)
    (h : Binds s t) (hs : P s) : P t := by
  induction h with
  | refl => exact hs
  | tail _ hstep ih => exact hP _ _ hstep ih

/-! ## Looking up imports -/

/-- Looking up an import makes at most one unit and writes to the cache of the importing one. -/
theorem resolveImport_cases (s : Session) (file : FileId) (dotted : String) (level : Nat) :
    (s.resolveImport file dotted level).2 = s ∨
    ∃ t cache, (t = s ∨ ∃ path, t = (s.unitFor path).2) ∧
      (s.resolveImport file dotted level).2 =
        t.modifyUnit file fun u => { u with importCache := cache :: u.importCache } := by
  simp only [resolveImport]
  split
  · exact .inl rfl
  · split
    · exact .inl rfl
    · refine .inr ⟨_, _, ?_, rfl⟩
      cases s.resolver.resolve? s.pathExists _ dotted level with
      | none => exact .inl rfl
      | some path => exact .inr ⟨path, rfl⟩

/-- The unit as it is after an import of some unit was looked up. -/
theorem unit?_resolveImport {other : FileId} {dotted : String} {level : Nat}
    (h : (s.resolveImport file dotted level).2.unit? other = some v) :
    (∃ u cache, s.unit? other = some u ∧ v = { u with importCache := cache }) ∨
    ∃ path cache, s.unit? other = none ∧ s.find? path = none ∧
      v = { s.unseenUnit path with importCache := cache } := by
  obtain he | ⟨t, entry, ht, he⟩ := resolveImport_cases s file dotted level
  · rw [he] at h
    exact .inl ⟨v, v.importCache, h, rfl⟩
  · rw [he] at h
    obtain ⟨w, hw, hv⟩ := unit?_modifyUnit_eq_some h
    have hcache : ∃ cache, v = { w with importCache := cache } := by
      rcases hv with ⟨-, rfl⟩ | ⟨-, rfl⟩
      · exact ⟨_, rfl⟩
      · exact ⟨v.importCache, rfl⟩
    obtain ⟨cache, rfl⟩ := hcache
    rcases ht with rfl | ⟨path, rfl⟩
    · exact .inl ⟨w, cache, hw, rfl⟩
    · rw [unit?_unitFor] at hw
      split at hw
      · next hn =>
        obtain rfl := Option.some.inj hw
        exact .inr ⟨path, cache, by rw [hn.2, unit?_size], hn.1, rfl⟩
      · exact .inl ⟨w, cache, hw, rfl⟩

/-! ## What a step does -/

/-- What a step of binding does to a unit. -/
inductive BindChange (s : Session) (file : FileId) (u : SourceUnit) : SourceUnit → Prop
  | cache (entries : List ((String × Nat) × Option FileId)) :
    BindChange s file u { u with importCache := entries }
  | parse {content : String} (hs : u.state = .unseen ∨ u.state = .stale .content)
    (hc : s.content? file = some content) :
    BindChange s file u (u.parsed content (Text.fingerprint content))
  | discard (hs : u.state = .stale .dependency) : BindChange s file u u.discardEvaluation
  | bind (binding : Binding) (hb : u.Blank) : BindChange s file u (u.bound binding s.generation)

theorem BindChange.same (s : Session) (file : FileId) (u : SourceUnit) : BindChange s file u u :=
  .cache u.importCache

/-- What parsing a unit changes. -/
theorem parseUnit_eq {u : SourceUnit} (hu : s.unit? file = some u) (content : String) :
    s.parseUnit file content =
      { s.modifyUnit file (·.parsed content (Text.fingerprint content)) with
        counters := { s.counters with parses := s.counters.parses + 1 } } := by
  simp [parseUnit, hu, modifyUnit]

/-- The unit that is bound is the only one that changes. -/
theorem unit?_bindWith (s : Session) (file other : FileId) (binding : Binding)
    (targets : List FileId) :
    (s.bindWith file binding targets).unit? other =
      (s.modifyUnit file (·.bound binding s.generation)).unit? other := rfl

/-- Binding neither takes units away nor changes them in any other than the four ways. -/
theorem BindStep.unit?_of_some (h : BindStep s t) {u : SourceUnit} (hu : s.unit? file = some u) :
    ∃ v, t.unit? file = some v ∧ BindChange s file u v := by
  cases h with
  | resolve importer dotted level =>
    obtain he | ⟨r, entry, hr, he⟩ := resolveImport_cases s importer dotted level
    · exact ⟨u, by rw [he, hu], .same s file u⟩
    · have hr' : r.unit? file = some u := by
        rcases hr with rfl | ⟨path, rfl⟩
        · exact hu
        · exact unit?_unitFor_of_some path hu
      rw [he, unit?_modifyUnit, hr']
      split
      · exact ⟨_, rfl, .cache _⟩
      · exact ⟨u, rfl, .same s file u⟩
  | @parse other w content hw hs hc =>
    rw [parseUnit_eq hw]
    change ∃ v, (s.modifyUnit other _).unit? file = some v ∧ _
    rw [unit?_modifyUnit, hu]
    split
    · next hf =>
      subst hf
      obtain rfl := Option.some.inj (hu.symm.trans hw)
      exact ⟨_, rfl, .parse hs hc⟩
    · exact ⟨u, rfl, .same s file u⟩
  | @discard other w hw hs =>
    rw [unit?_modifyUnit, hu]
    split
    · next hf =>
      subst hf
      obtain rfl := Option.some.inj (hu.symm.trans hw)
      exact ⟨_, rfl, .discard hs⟩
    · exact ⟨u, rfl, .same s file u⟩
  | begin other => exact ⟨u, hu, .same s file u⟩
  | @bind other w binding targets hw hb =>
    rw [unit?_bindWith, unit?_modifyUnit, hu]
    split
    · next hf =>
      subst hf
      obtain rfl := Option.some.inj (hu.symm.trans hw)
      exact ⟨_, rfl, .bind binding hb⟩
    · exact ⟨u, rfl, .same s file u⟩

/-- A unit that a step of binding makes is unseen, and no unit had its path. -/
theorem BindStep.unit?_of_none (h : BindStep s t) (hn : s.unit? file = none)
    (hv : t.unit? file = some v) :
    ∃ path entries, s.find? path = none ∧
      v = { s.unseenUnit path with importCache := entries } := by
  cases h with
  | resolve importer dotted level =>
    obtain ⟨u, -, hu, -⟩ | ⟨path, entries, -, hp, rfl⟩ := unit?_resolveImport hv
    · rw [hn] at hu
      exact nomatch hu
    · exact ⟨path, entries, hp, rfl⟩
  | parse hw hs hc =>
    rw [parseUnit_eq hw] at hv
    obtain ⟨u, hu, -⟩ := unit?_modifyUnit_eq_some (s := s) hv
    rw [hn] at hu
    exact nomatch hu
  | discard hw hs =>
    obtain ⟨u, hu, -⟩ := unit?_modifyUnit_eq_some hv
    rw [hn] at hu
    exact nomatch hu
  | begin other =>
    have hv : s.unit? file = some v := hv
    rw [hn] at hv
    exact nomatch hv
  | bind binding targets hw hb =>
    rw [unit?_bindWith] at hv
    obtain ⟨u, hu, -⟩ := unit?_modifyUnit_eq_some hv
    rw [hn] at hu
    exact nomatch hu

/-- Every unit after a step of binding is one from before, changed in one of the four ways, or a new
one. -/
theorem BindStep.unit?_cases (h : BindStep s t) (hv : t.unit? file = some v) :
    (∃ u, s.unit? file = some u ∧ BindChange s file u v) ∨
    ∃ path entries, s.unit? file = none ∧ s.find? path = none ∧
      v = { s.unseenUnit path with importCache := entries } := by
  cases hu : s.unit? file with
  | some u =>
    obtain ⟨w, hw, hc⟩ := h.unit?_of_some hu
    obtain rfl := Option.some.inj (hv.symm.trans hw)
    exact .inl ⟨u, rfl, hc⟩
  | none =>
    obtain ⟨path, entries, hp, rfl⟩ := h.unit?_of_none hu hv
    exact .inr ⟨path, entries, rfl, hp, rfl⟩

/-- Binding touches nothing but units with their paths, the graph, what is being bound, and the counts
of parses and bindings. -/
theorem BindStep.rest (h : BindStep s t) :
    t = { s with
      units := t.units
      paths := t.paths
      graph := t.graph
      inProgress := t.inProgress
      counters := { s.counters with parses := t.counters.parses, binds := t.counters.binds } } := by
  cases h with
  | resolve importer dotted level =>
    obtain he | ⟨r, entry, rfl | ⟨path, rfl⟩, he⟩ := resolveImport_cases s importer dotted level
    · rw [he]
    · rw [he]
      rfl
    · rw [he, rest_unitFor]
      rfl
  | parse hu hs hc =>
    rw [parseUnit_eq hu]
    rfl
  | discard hu hs => rfl
  | begin other => rfl
  | bind binding targets hu hb => rfl

/-- What binding may change of a session. -/
theorem Binds.rest (h : Binds s t) :
    t = { s with
      units := t.units
      paths := t.paths
      graph := t.graph
      inProgress := t.inProgress
      counters := { s.counters with parses := t.counters.parses, binds := t.counters.binds } } := by
  induction h with
  | refl => rfl
  | tail _ hstep ih =>
    rw [hstep.rest, ih]

/-! ## What binding keeps -/

theorem BindChange.tidy {u : SourceUnit} (h : BindChange s file u v) (hu : u.Tidy) : v.Tidy := by
  cases h with
  | cache entries => exact hu.ofImportCache entries
  | parse hs hc => exact SourceUnit.tidy_parsed u _ _
  | discard hs => exact hu.discardEvaluation
  | bind binding hb => exact hb.tidy_bound binding _

private theorem BindChange.blank {u : SourceUnit} (h : BindChange s file u v) (hu : u.Blank) :
    v.Blank := by
  cases h with
  | cache entries => exact hu
  | parse hs hc => exact SourceUnit.blank_parsed u _ _
  | discard hs => exact ⟨hu.1, rfl⟩
  | bind binding hb => exact ⟨hu.1, (SourceUnit.analysis_bound u binding _).trans hu.2⟩

theorem BindStep.tidy (h : BindStep s t) (hs : s.Tidy) : t.Tidy := by
  intro file v hv
  obtain ⟨u, hu, hc⟩ | ⟨path, entries, -, -, rfl⟩ := h.unit?_cases hv
  · exact hc.tidy (hs file u hu)
  · exact (tidy_unseenUnit s path).ofImportCache entries

/-- Binding keeps units tidy. -/
theorem Binds.tidy (h : Binds s t) (hs : s.Tidy) : t.Tidy :=
  h.induct (fun _ _ hstep => hstep.tidy) hs

theorem BindStep.indexed (h : BindStep s t) (hs : s.Indexed) : t.Indexed := by
  cases h with
  | resolve importer dotted level =>
    obtain he | ⟨r, entry, hr, he⟩ := resolveImport_cases s importer dotted level
    · rw [he]
      exact hs
    · have hr' : r.Indexed := by
        rcases hr with rfl | ⟨path, rfl⟩
        · exact hs
        · exact Indexed.unitFor path hs
      rw [he]
      exact Indexed.modifyUnit importer _ hr' fun _ _ => rfl
  | parse hu hs' hc =>
    rw [parseUnit_eq hu]
    exact hs.modified rfl rfl fun _ _ => rfl
  | @discard other _ _ _ => exact Indexed.modifyUnit other _ hs fun _ _ => rfl
  | begin other => exact hs
  | bind binding targets hu hb => exact hs.modified rfl rfl fun _ _ => rfl

/-- All results that are known behind a step were known before, in the same generation. -/
def Inherits (s t : Session) : Prop :=
  ∀ file v, t.unit? file = some v →
    v.analysis.isEmpty = true ∨ ∃ u, s.unit? file = some u ∧ u.analysis = v.analysis

theorem Inherits.refl (s : Session) : s.Inherits s := fun _ v hv => .inr ⟨v, hv, rfl⟩

theorem Inherits.trans {r : Session} (h : s.Inherits t) (h' : t.Inherits r) : s.Inherits r := by
  intro file v hv
  obtain he | ⟨u, hu, huv⟩ := h' file v hv
  · exact .inl he
  · obtain he | ⟨w, hw, hwu⟩ := h file u hu
    · exact .inl (huv ▸ he)
    · exact .inr ⟨w, hw, hwu.trans huv⟩

theorem Inherits.unit? (h : s.Inherits t) (hv : t.unit? file = some v)
    (hn : v.analysis.isEmpty = false) : ∃ u, s.unit? file = some u ∧ u.analysis = v.analysis := by
  obtain hempty | hu := h file v hv
  · rw [hn] at hempty
    exact nomatch hempty
  · exact hu

/-- Changing a unit in place adds no results, if the unit itself gets none. -/
theorem inherits_modifyUnit {f : SourceUnit → SourceUnit}
    (hf : ∀ u, s.unit? file = some u →
      (f u).analysis.isEmpty = true ∨ (f u).analysis = u.analysis) :
    s.Inherits (s.modifyUnit file f) := by
  intro other v hv
  obtain ⟨u, hu, ⟨rfl, rfl⟩ | ⟨-, rfl⟩⟩ := unit?_modifyUnit_eq_some hv
  · exact (hf u hu).imp_right fun h => ⟨u, hu, h.symm⟩
  · exact .inr ⟨v, hu, rfl⟩

theorem inherits_unitFor (s : Session) (path : String) : s.Inherits (s.unitFor path).2 := by
  intro file v hv
  rw [unit?_unitFor] at hv
  split at hv
  · obtain rfl := Option.some.inj hv
    exact .inl rfl
  · exact .inr ⟨v, hv, rfl⟩

theorem BindStep.inherits (h : BindStep s t) : s.Inherits t := by
  intro file v hv
  obtain ⟨u, hu, hc⟩ | ⟨path, entries, -, -, rfl⟩ := h.unit?_cases hv
  · cases hc with
    | cache entries => exact .inr ⟨u, hu, rfl⟩
    | parse hs hc => exact .inl rfl
    | discard hs => exact .inl rfl
    | bind binding hb => exact .inl ((SourceUnit.analysis_bound u binding _).trans hb.2)
  · exact .inl rfl

theorem Binds.inherits (h : Binds s t) : s.Inherits t :=
  h.induct (P := s.Inherits) (fun _ _ hstep hs => hs.trans hstep.inherits) (.refl s)

private theorem Binds.blank (h : Binds s t) {u : SourceUnit} (hu : s.unit? file = some u)
    (hb : u.Blank) :
    ∃ v, t.unit? file = some v ∧ v.Blank :=
  h.induct (P := fun r => ∃ v, r.unit? file = some v ∧ v.Blank)
    (fun _ _ hstep ⟨_, hv, hvb⟩ =>
      (hstep.unit?_of_some hv).imp fun _ hw => ⟨hw.1, hw.2.blank hvb⟩) ⟨u, hu, hb⟩

/-! ## Up to the last step of binding a unit -/

/-- A property that looking up the imports of a file keeps, and that bringing other units up to date
keeps. -/
structure KeptWhileBinding (ensure : Binder) (file : FileId) (P : Session → Prop) : Prop where
  resolve : ∀ s dotted level, P s → P (s.resolveImport file dotted level).2
  ensure : ∀ s target, P s → P (ensure s target).2

variable {ensure : Binder} {P : Session → Prop}

private theorem KeptWhileBinding.resolveImports (h : KeptWhileBinding ensure file P) (hs : P s)
    (imports : List (String × Nat)) : P (s.resolveImports file imports).2 := by
  induction imports generalizing s with
  | nil => exact hs
  | cons entry rest ih =>
    obtain ⟨dotted, level⟩ := entry
    exact ih (h.resolve s dotted level hs)

theorem KeptWhileBinding.addWildcard (h : KeptWhileBinding ensure file P) (hs : P s)
    (binding : Binding) (index : Nat) : P (addWildcard ensure file (binding, s) index).2 := by
  simp only [Session.addWildcard]
  split
  · exact hs
  · next record _ =>
    have hr := h.resolve s record.path record.level hs
    split
    · next r hr' =>
      rw [hr'] at hr
      exact hr
    · next target r hr' =>
      rw [hr'] at hr
      have ht := h.ensure r target hr
      split
      · next t ht' =>
        rw [ht'] at ht
        exact ht
      · next t ht' =>
        rw [ht'] at ht
        exact ht

private theorem KeptWhileBinding.addWildcards (h : KeptWhileBinding ensure file P) (hs : P s)
    (binding : Binding) (indices : List Nat) :
    P (indices.foldl (Session.addWildcard ensure file) (binding, s)).2 := by
  induction indices generalizing s binding with
  | nil => exact hs
  | cons index rest ih => exact ih (h.addWildcard hs binding index) _

/-- The last step of binding a unit, after the units it takes names from and its imports. -/
theorem bindUnit_eq (ensure : Binder) {u : SourceUnit} {tree : Tree} (hu : s.unit? file = some u)
    (ht : u.tree = some tree) :
    ∃ t binding targets, (∀ P, KeptWhileBinding ensure file P → P (s.binding file) → P t) ∧
      bindUnit ensure s file = (true, t.bindWith file binding targets) := by
  have htree : (s.unit? file).bind (·.tree) = some tree := by rw [hu]; exact ht
  simp only [bindUnit, htree]
  generalize tree.bind = own
  let named := own.wildcards.toList.foldl (addWildcard ensure file) (own, s.binding file)
  let mentioned := named.1.imports.toList.flatMap ImportRecord.mentioned
  let resolved := named.2.resolveImports file mentioned
  refine ⟨resolved.2, named.1, resolved.1, fun P hP hs => ?_, rfl⟩
  exact hP.resolveImports (hP.addWildcards hs own own.wildcards.toList) mentioned

/-! ## Binding is made of steps -/

/-- What a function that binds other units has to do: nothing but steps of binding. -/
def BindsOnly (ensure : Binder) : Prop := ∀ s target, s.Tidy → Binds s (ensure s target).2

private theorem BindsOnly.kept (he : BindsOnly ensure) (s : Session) (file : FileId) :
    KeptWhileBinding ensure file fun t => t.Tidy ∧ Binds s t where
  resolve r dotted level h :=
    have hstep : BindStep r _ := .resolve file dotted level
    ⟨hstep.tidy h.1, h.2.tail hstep⟩
  ensure r target h :=
    have hr := he r target h.1
    ⟨hr.tidy h.1, h.2.trans hr⟩

/-- A unit is bound. -/
def IsBound (s : Session) (file : FileId) : Prop :=
  ∃ u, s.unit? file = some u ∧ u.state.isBound = true

theorem isBound_bindWith {u : SourceUnit} (hu : s.unit? file = some u) (binding : Binding)
    (targets : List FileId) : (s.bindWith file binding targets).IsBound file := by
  refine ⟨u.bound binding s.generation, ?_, rfl⟩
  rw [unit?_bindWith, unit?_modifyUnit_self, hu]
  rfl

/-- Binding a unit that is ready for it takes steps of binding, and the unit is bound behind it. -/
theorem binds_bindUnit (he : BindsOnly ensure) (hs : s.Tidy) {u : SourceUnit}
    (hu : s.unit? file = some u) (hb : u.Blank) :
    Binds s (bindUnit ensure s file).2 ∧ (bindUnit ensure s file).2.IsBound file := by
  obtain ⟨tree, ht⟩ := Option.isSome_iff_exists.mp hb.1
  obtain ⟨t, binding, targets, ht, heq⟩ := bindUnit_eq ensure hu ht
  have hbegin : BindStep s (s.binding file) := .begin file
  have h := (ht _ (he.kept s file) ⟨hbegin.tidy hs, .single hbegin⟩).2
  obtain ⟨v, hv, hvb⟩ := h.blank hu hb
  rw [heq]
  exact ⟨h.tail (.bind binding targets hv hvb), isBound_bindWith hv binding targets⟩

/-- The unit that is parsed holds the tree of its content. -/
theorem unit?_parseUnit {u : SourceUnit} (hu : s.unit? file = some u) (content : String) :
    (s.parseUnit file content).unit? file =
      some (u.parsed content (Text.fingerprint content)) := by
  rw [parseUnit_eq hu]
  change (s.modifyUnit file _).unit? file = _
  rw [unit?_modifyUnit_self, hu]
  rfl

-- The common case of a unit that was never seen and of one whose content changed.
private theorem ensureParsed (he : BindsOnly ensure) (hs : s.Tidy)
    {u : SourceUnit} (hu : s.unit? file = some u)
    (hstate : u.state = .unseen ∨ u.state = .stale .content) :
    let result : Bool × Session :=
      match s.content? file with
      | some content => bindUnit ensure (s.parseUnit file content) file
      | none => (false, s)
    Binds s result.2 ∧ (result.1 = true → result.2.IsBound file) := by
  cases hc : s.content? file with
  | none => exact ⟨.refl, nofun⟩
  | some content =>
    have hp : BindStep s (s.parseUnit file content) := .parse hu hstate hc
    have h := binds_bindUnit he (hp.tidy hs) (unit?_parseUnit hu content)
      (SourceUnit.blank_parsed u content _)
    exact ⟨.head hp h.1, fun _ => h.2⟩

/-- Bringing a unit up to date takes steps of binding; the answer is right. -/
theorem binds_ensureBoundUpTo (fuel : Nat) (hs : s.Tidy) (file : FileId) :
    Binds s (ensureBoundUpTo fuel s file).2 ∧
      ((ensureBoundUpTo fuel s file).1 = true →
        (ensureBoundUpTo fuel s file).2.IsBound file) := by
  induction fuel generalizing s file with
  | zero => exact ⟨.refl, nofun⟩
  | succ fuel ih =>
    have he : BindsOnly (ensureBoundUpTo fuel) := fun s target hs => (ih hs target).1
    simp only [ensureBoundUpTo]
    split
    · exact ⟨.refl, nofun⟩
    · cases hu : s.unit? file with
      | none => exact ⟨.refl, nofun⟩
      | some u =>
        simp only [Option.map_some]
        split
        · next h => exact nomatch h
        · next h => exact ⟨.refl, fun _ => ⟨u, hu, by rw [Option.some.inj h]; rfl⟩⟩
        · next h => exact ⟨.refl, fun _ => ⟨u, hu, by rw [Option.some.inj h]; rfl⟩⟩
        · next h =>
          have h := binds_bindUnit he hs hu ((hs file u hu).blank (Option.some.inj h))
          exact ⟨h.1, fun _ => h.2⟩
        · next h =>
          have hd : BindStep s (s.modifyUnit file SourceUnit.discardEvaluation) :=
            .discard hu (Option.some.inj h)
          have hv : (s.modifyUnit file SourceUnit.discardEvaluation).unit? file =
              some u.discardEvaluation := by
            rw [unit?_modifyUnit_self, hu]
            rfl
          have h := binds_bindUnit he (hd.tidy hs) hv
            ⟨(hs file u hu).stale (Option.some.inj h), rfl⟩
          exact ⟨.head hd h.1, fun _ => h.2⟩
        · next h => exact ensureParsed he hs hu (.inl (Option.some.inj h))
        · next h => exact ensureParsed he hs hu (.inr (Option.some.inj h))

/-- On demand a file is bound, if the answer is that it is. -/
theorem binds_ensureBound (hs : s.Tidy) (file : FileId) :
    Binds s (s.ensureBound file).2 ∧
      ((s.ensureBound file).1 = true → (s.ensureBound file).2.IsBound file) :=
  binds_ensureBoundUpTo _ hs file

/-- Binding a parsed unit takes steps of binding, and the unit is bound behind it. -/
theorem binds_bindParsed (hs : s.Tidy) {u : SourceUnit} (hu : s.unit? file = some u)
    (hp : u.state = .parsed) : Binds s (s.bindParsed file) ∧ (s.bindParsed file).IsBound file :=
  binds_bindUnit (fun _ target hs => (binds_ensureBound hs target).1) hs hu ((hs file u hu).blank hp)

end Session
end LiveCheck
