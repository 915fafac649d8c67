import LiveCheck.Proofs.Session.Binding
import LiveCheck.Session.Flush

/-!
# What a flush does to a session

A flush goes through the changed units one by one, binds those that it has parsed again, and then
begins a new generation unless there was nothing to do. For each of the three parts it is said what
can happen to a unit.
-/

namespace LiveCheck

/-! ## Units between two steps -/

namespace SourceUnit

variable {u : SourceUnit}

/-- The unit after something that it imports has changed. -/
def outdated (u : SourceUnit) : SourceUnit :=
  if u.state == .unseen || u.state == .stale .content then u
  else { u with state := .stale .dependency }

private theorem outdated_outdated (u : SourceUnit) : u.outdated.outdated = u.outdated := by
  unfold outdated
  split
  · simp
  · rfl

theorem rest_outdated (u : SourceUnit) : u.outdated = { u with state := u.outdated.state } := by
  unfold outdated
  split <;> rfl

private theorem Tidy.outdated (h : u.Tidy) : u.outdated.Tidy := by
  unfold SourceUnit.outdated
  split
  · exact h
  · next hs =>
    have htree : u.tree.isSome = true := by
      cases hstate : u.state with
      | unseen => simp [hstate] at hs
      | parsed => exact (h.parsed hstate).1
      | bound => exact (h.bound (by rw [hstate]; rfl)).1
      | evaluated complete => exact (h.bound (by rw [hstate]; rfl)).1
      | stale reason =>
        cases reason with
        | content => simp [hstate] at hs
        | dependency => exact h.stale hstate
    exact ⟨nofun, nofun, fun _ => htree, h.unbound⟩

private theorem Tidy.restored (h : u.Tidy) (ht : u.tree.isSome = true) : u.restored.Tidy := by
  cases hb : u.binding with
  | none =>
    have hstate : u.restored.state = .parsed := by simp [SourceUnit.restored, hb]
    refine ⟨fun hs => ?_, fun _ => ⟨ht, hb⟩, fun hs => ?_, h.unbound⟩
    · rw [hstate] at hs
      exact nomatch hs
    · rw [hstate] at hs
      exact nomatch hs
  | some b =>
    have hstate : u.restored.state = .evaluated false ∨ u.restored.state = .bound := by
      simp only [SourceUnit.restored, hb, Option.isNone_some, Bool.false_eq_true, if_false]
      split
      · exact .inl rfl
      · exact .inr rfl
    have hbinding : u.restored.binding.isSome = true := by simp [SourceUnit.restored, hb]
    refine ⟨fun _ => ⟨ht, hbinding⟩, fun hs => ?_, fun hs => ?_, h.unbound⟩
    · rcases hstate with h | h <;> rw [h] at hs <;> exact nomatch hs
    · rcases hstate with h | h <;> rw [h] at hs <;> exact nomatch hs

theorem Tidy.ofContentStale (h : u.Tidy) :
    ({ u with state := .stale .content } : SourceUnit).Tidy :=
  ⟨nofun, nofun, nofun, h.unbound⟩

private theorem Tidy.restampUnit (h : u.Tidy) (generation : Nat) :
    (Session.restampUnit generation u).Tidy := by
  unfold Session.restampUnit
  split
  · exact { h with }
  · exact h

end SourceUnit

namespace Session

variable {s t : Session} {file other : FileId} {v : SourceUnit} {P : Session → Prop}

/-! ## Contents -/

/-- Only the files, and the path and the overlay of a unit, matter for its content. -/
theorem content?_congr {u : SourceUnit} (hu : s.unit? file = some u) (hv : t.unit? file = some v)
    (hp : v.path = u.path) (ho : v.overlay = u.overlay) (hf : t.files = s.files) :
    t.content? file = s.content? file := by
  rw [content?, content?, hu, hv, Option.bind_some, Option.bind_some, hp, ho, hf]

/-! ## Taking units away -/

theorem dropUnit_of_none (h : s.unit? file = none) : s.dropUnit file = s := by
  simp only [dropUnit, h]

theorem dropUnit_of_some {u : SourceUnit} (h : s.unit? file = some u) :
    s.dropUnit file =
      { s with
        units := s.units.modify file fun _ => none
        paths := s.paths.erase u.path
        dirty := s.dirty.filter (· != file)
        graph := s.graph.remove file } := by
  simp only [dropUnit, h]

/-- The unit is gone, the others are there. -/
theorem unit?_dropUnit (s : Session) (file other : FileId) :
    (s.dropUnit file).unit? other = if other = file then none else s.unit? other := by
  cases hu : s.unit? file with
  | none =>
    rw [dropUnit_of_none hu]
    split
    · next ho => rw [ho, hu]
    · rfl
  | some u =>
    rw [dropUnit_of_some hu]
    simp only [unit?, Array.getElem?_modify, eq_comm (a := other)]
    by_cases h : file = other
    · simp only [h, if_true]
      cases s.units[other]? <;> rfl
    · simp only [h, if_false]

/-- The path of a unit that is taken away leads nowhere. -/
theorem Indexed.dropUnit (hs : s.Indexed) (file : FileId) : (s.dropUnit file).Indexed := by
  cases hu : s.unit? file with
  | none => rwa [dropUnit_of_none hu]
  | some u =>
    intro path other
    have hfind : (s.dropUnit file).find? path =
        if path = u.path then none else s.find? path := by
      rw [dropUnit_of_some hu]
      simp only [find?, Std.TreeMap.getElem?_erase, Std.compare_eq_iff_eq, eq_comm (a := path)]
    have hpath : (s.dropUnit file).path? other = if other = file then none else s.path? other := by
      rw [path?, unit?_dropUnit]
      split <;> rfl
    rw [hfind, hpath]
    have hfile : s.find? u.path = some file := find?_path hs hu
    by_cases hp : path = u.path
    · by_cases ho : other = file
      · rw [if_pos hp, if_pos ho]
        exact iff_of_false (Option.some_ne_none _).symm (Option.some_ne_none _).symm
      · rw [if_pos hp, if_neg ho, ← hs path, hp, hfile]
        exact iff_of_false (Option.some_ne_none _).symm fun h => ho (Option.some.inj h).symm
    · by_cases ho : other = file
      · rw [if_neg hp, if_pos ho, hs path, ho, path?_eq_some hu]
        exact iff_of_false (fun h => hp (Option.some.inj h).symm) (Option.some_ne_none _).symm
      · rw [if_neg hp, if_neg ho]
        exact hs path other

/-- What dropping a unit changes of a session. -/
theorem rest_dropUnit (s : Session) (file : FileId) :
    s.dropUnit file =
      { s with
        units := (s.dropUnit file).units
        paths := (s.dropUnit file).paths
        dirty := (s.dropUnit file).dirty
        graph := (s.dropUnit file).graph } := by
  unfold dropUnit
  split <;> rfl

/-- A forgotten unit is gone, the others are there. -/
theorem unit?_forget (s : Session) (file other : FileId) :
    (s.forget file).unit? other = if other = file then none else s.unit? other :=
  unit?_dropUnit s file other

/-- A unit that is there was not the forgotten one. -/
theorem unit?_forget_eq_some (h : (s.forget file).unit? other = some v) :
    other ≠ file ∧ s.unit? other = some v := by
  rw [unit?_forget] at h
  split at h
  · exact nomatch h
  · next hne => exact ⟨hne, h⟩

/-! ## Going through the changed units -/

/-- What is done about one changed unit. -/
inductive ReparseStep (s : Session) (file : FileId) : Session → Prop
  /-- The unit is not there any more. -/
  | skip (hu : s.unit? file = none) : ReparseStep s file s
  /-- The unit has no content any more. -/
  | forget {u : SourceUnit} (hu : s.unit? file = some u) (hc : s.content? file = none) :
    ReparseStep s file (s.forget file)
  /-- The content has the fingerprint of the one that the tree was parsed from. -/
  | restore {u : SourceUnit} {content : String} (hu : s.unit? file = some u)
    (hc : s.content? file = some content) (ht : u.tree.isSome = true)
    (hf : u.fingerprint = some (Text.fingerprint content)) :
    ReparseStep s file (s.modifyUnit file SourceUnit.restored)
  /-- The content is a new one. -/
  | parse {u : SourceUnit} {content : String} (hu : s.unit? file = some u)
    (hc : s.content? file = some content)
    (hn : ¬ (u.tree.isSome = true ∧ u.fingerprint = some (Text.fingerprint content))) :
    ReparseStep s file (s.parseUnit file content)

/-- What is done about some changed units, one after the other. -/
inductive Reparses : Session → List FileId → Session → Prop
  | nil (s : Session) : Reparses s [] s
  | cons {s t r : Session} {file : FileId} {files : List FileId} (h : ReparseStep s file t)
    (hrest : Reparses t files r) : Reparses s (file :: files) r

private theorem reparses_reparse (scope : InvalidationScope) (s : Session) (files : List FileId) :
    Reparses s files (reparse scope s files).2.2 := by
  induction files generalizing scope s with
  | nil => exact .nil s
  | cons file files ih =>
    rw [reparse]
    split
    · next hu => exact .cons (.skip hu) (ih scope s)
    · next u hu =>
      split
      · next hc => exact .cons (.forget hu hc) (ih .full _)
      · next content hc =>
        split
        · next h =>
          obtain ⟨ht, hf⟩ := Bool.and_eq_true_iff.mp h
          exact .cons (.restore hu hc ht (by simpa using hf)) (ih scope _)
        · next h =>
          refine .cons (.parse hu hc fun hn => h ?_) (ih scope _)
          simp [hn.1, hn.2]

theorem ReparseStep.tidy (h : ReparseStep s file t) (hs : s.Tidy) : t.Tidy := by
  cases h with
  | skip hu => exact hs
  | forget hu hc => exact fun other v hv => hs other v (unit?_forget_eq_some hv).2
  | restore hu hc ht hf =>
    refine Tidy.modifyUnit hs fun v hv => ?_
    obtain rfl := Option.some.inj (hv.symm.trans hu)
    exact (hs file v hv).restored ht
  | parse hu hc hn =>
    rw [parseUnit_eq hu]
    exact Tidy.modifyUnit (s := s) hs fun v _ => SourceUnit.tidy_parsed v _ _

theorem Reparses.tidy {files : List FileId} (h : Reparses s files t) (hs : s.Tidy) : t.Tidy := by
  induction h with
  | nil s => exact hs
  | cons hstep _ ih => exact ih (hstep.tidy hs)

private theorem Reparses.induct {files : List FileId}
    (hP : ∀ t r file, t.Tidy → ReparseStep t file r → P t → P r) (h : Reparses s files t)
    (hs : s.Tidy) (hstart : P s) : P t := by
  induction h with
  | nil s => exact hstart
  | cons hstep _ ih => exact ih (hstep.tidy hs) (hP _ _ _ hs hstep hstart)

section

variable (h : ReparseStep s file t)
include h

theorem ReparseStep.indexed (hs : s.Indexed) : t.Indexed := by
  cases h with
  | skip hu => exact hs
  | forget hu hc => exact hs.dropUnit file
  | restore hu hc ht hf => exact hs.modified rfl rfl fun _ _ => rfl
  | parse hu hc hn =>
    rw [parseUnit_eq hu]
    exact hs.modified rfl rfl fun _ _ => rfl

/-- Going through the changed units touches nothing but the units, what refers to them, and the
count of parses. -/
theorem ReparseStep.rest :
    t = { s with
      units := t.units
      paths := t.paths
      dirty := t.dirty
      graph := t.graph
      roots := t.roots
      openFiles := t.openFiles
      pendingFull := t.pendingFull
      counters := { s.counters with parses := t.counters.parses } } := by
  cases h with
  | skip hu => rfl
  | forget hu hc =>
    rw [Session.forget, rest_dropUnit]
  | restore hu hc ht hf => rfl
  | parse hu hc hn =>
    rw [parseUnit_eq hu]
    rfl

theorem ReparseStep.files : t.files = s.files := by rw [h.rest]

/-- A step looks at one unit only. -/
theorem ReparseStep.unit?_of_ne (hne : other ≠ file) :
    t.unit? other = s.unit? other := by
  cases h with
  | skip hu => rfl
  | forget hu hc => rw [unit?_forget, if_neg hne]
  | restore hu hc ht hf => exact unit?_modifyUnit_of_ne s file _ hne
  | parse hu hc hn =>
    rw [parseUnit_eq hu]
    exact unit?_modifyUnit_of_ne s file _ hne

private theorem ReparseStep.dirty (hd : s.dirty = []) : t.dirty = [] := by
  cases h with
  | skip hu => exact hd
  | forget hu hc =>
    change (s.dropUnit file).dirty = []
    rw [dropUnit_of_some hu]
    simp [hd]
  | restore hu hc ht hf => exact hd
  | parse hu hc hn =>
    rw [parseUnit_eq hu]
    exact hd

private theorem ReparseStep.inherits : s.Inherits t := by
  cases h with
  | skip hu => exact .refl s
  | forget hu hc => exact fun _ v hv => .inr ⟨v, (unit?_forget_eq_some hv).2, rfl⟩
  | restore hu hc ht hf => exact inherits_modifyUnit fun _ _ => .inr rfl
  | parse hu hc hn =>
    rw [parseUnit_eq hu]
    exact inherits_modifyUnit (s := s) fun _ _ => .inl rfl

end

/-- What going through changed units may change. -/
theorem Reparses.rest {files : List FileId} (h : Reparses s files t) :
    t = { s with
      units := t.units
      paths := t.paths
      dirty := t.dirty
      graph := t.graph
      roots := t.roots
      openFiles := t.openFiles
      pendingFull := t.pendingFull
      counters := { s.counters with parses := t.counters.parses } } := by
  induction h with
  | nil s => rfl
  | cons hstep _ ih => rw [ih, hstep.rest]

theorem Reparses.unit?_of_not_mem {files : List FileId} (h : Reparses s files t)
    (hf : file ∉ files) : t.unit? file = s.unit? file := by
  induction h with
  | nil s => rfl
  | cons hstep _ ih =>
    rw [List.mem_cons, not_or] at hf
    rw [ih hf.2, hstep.unit?_of_ne hf.1]

private theorem Reparses.inherits {files : List FileId} (h : Reparses s files t) :
    s.Inherits t := by
  induction h with
  | nil s => exact .refl s
  | cons hstep _ ih => exact hstep.inherits.trans ih

/-! ## Binding what was parsed again -/

theorem binds_rebind (scope : InvalidationScope) (hs : s.Tidy) (reparsed : List Reparsed) :
    Binds s (rebind scope s reparsed).2.2 := by
  induction reparsed generalizing scope s with
  | nil => exact .refl
  | cons entry rest ih =>
    obtain ⟨file, before⟩ := entry
    simp only [rebind]
    have h : Binds s
        (if (s.unit? file).any (·.state == .parsed) then s.bindParsed file else s) := by
      split
      · next hp =>
        obtain ⟨u, hu, hstate⟩ := (Option.any_eq_true _ _).mp hp
        exact (binds_bindParsed hs hu (by simpa using hstate)).1
      · exact .refl
    exact h.trans (ih _ (h.tidy hs))

/-! ## Beginning a generation -/

theorem markDependencyStale_eq (s : Session) (file : FileId) :
    s.markDependencyStale file = s.modifyUnit file SourceUnit.outdated := rfl

theorem rest_markAll (s : Session) (files : List FileId) :
    files.foldl markDependencyStale s =
      { s with units := (files.foldl markDependencyStale s).units } := by
  induction files generalizing s with
  | nil => rfl
  | cons file files ih =>
    rw [List.foldl_cons, ih, markDependencyStale_eq]
    rfl

private theorem generation_markAll (s : Session) (files : List FileId) :
    (files.foldl markDependencyStale s).generation = s.generation := by
  rw [rest_markAll]

private theorem unit?_markAll (s : Session) (files : List FileId) (file : FileId) :
    (files.foldl markDependencyStale s).unit? file =
      if file ∈ files then (s.unit? file).map SourceUnit.outdated else s.unit? file := by
  induction files generalizing s with
  | nil => simp
  | cons other files ih =>
    rw [List.foldl_cons, ih, markDependencyStale_eq, unit?_modifyUnit]
    by_cases h : file = other
    · subst h
      simp only [if_true, List.mem_cons, true_or, Option.map_map]
      split
      · congr 1
        exact funext SourceUnit.outdated_outdated
      · rfl
    · simp [h]

/-- How a flush ends. -/
inductive FlushEnd (s : Session) : Session → Prop
  /-- There was nothing to do. -/
  | calm : FlushEnd s s
  /-- Everything is looked at again. -/
  | full (rebuilt : List FileId) : FlushEnd s (s.nextGeneration.invalidateAll rebuilt)
  /-- The dependents of what changed are looked at again. -/
  | dependents (rebuilt affected : List FileId) :
    FlushEnd s (s.nextGeneration.invalidateDependents rebuilt affected)

theorem unit?_invalidateAll (s : Session) (rebuilt : List FileId) (file : FileId) :
    (s.invalidateAll rebuilt).unit? file =
      if file ∈ rebuilt then s.unit? file else (s.unit? file).map SourceUnit.outdated := by
  change (List.foldl markDependencyStale _ _).unit? file = _
  rw [unit?_markAll]
  have hmem : file ∈ ({ s with types := .initial } : Session).ids.filter (!rebuilt.contains ·) ↔
      (s.unit? file).isSome = true ∧ file ∉ rebuilt := by
    rw [List.mem_filter, mem_ids]
    simp only [Bool.not_eq_true', List.contains_eq_mem, decide_eq_false_iff_not]
    rfl
  change ite _ ((s.unit? file).map _) (s.unit? file) = _
  by_cases hr : file ∈ rebuilt
  · rw [if_pos hr, if_neg fun h => (hmem.mp h).2 hr]
  · rw [if_neg hr]
    split
    · rfl
    · next hn =>
      cases hu : s.unit? file with
      | none => rfl
      | some u => exact absurd (hmem.mpr ⟨by rw [hu]; rfl, hr⟩) hn

theorem unit?_invalidateDependents (s : Session) (rebuilt affected : List FileId)
    (file : FileId) :
    (s.invalidateDependents rebuilt affected).unit? file =
      (if file ∈ affected ∧ file ∉ rebuilt then (s.unit? file).map SourceUnit.outdated
        else s.unit? file).map (restampUnit s.generation) := by
  let marked := (affected.filter (!rebuilt.contains ·)).foldl markDependencyStale s
  have hmem : file ∈ affected.filter (!rebuilt.contains ·) ↔ file ∈ affected ∧ file ∉ rebuilt := by
    simp
  have hgen : marked.generation = s.generation := generation_markAll s _
  have hmap : (s.invalidateDependents rebuilt affected).unit? file =
      (marked.unit? file).map (restampUnit marked.generation) := by
    change ((marked.units.map (·.map (restampUnit marked.generation)))[file]?).join = _
    rw [Array.getElem?_map, unit?]
    cases marked.units[file]? <;> rfl
  rw [hmap, hgen, unit?_markAll]
  simp only [hmem]

theorem rest_restampUnit (generation : Nat) (u : SourceUnit) :
    restampUnit generation u = { u with analysis := (restampUnit generation u).analysis } := by
  unfold restampUnit
  split <;> rfl

theorem generation_invalidateAll (s : Session) (rebuilt : List FileId) :
    (s.invalidateAll rebuilt).generation = s.generation := generation_markAll _ _

theorem types_invalidateAll (s : Session) (rebuilt : List FileId) :
    (s.invalidateAll rebuilt).types = .initial := by
  simp only [invalidateAll]
  rw [rest_markAll]

theorem counters_invalidateAll (s : Session) (rebuilt : List FileId) :
    (s.invalidateAll rebuilt).counters =
      { s.counters with fullInvalidations := s.counters.fullInvalidations + 1 } := by
  simp only [invalidateAll]
  rw [rest_markAll]

/-- What the invalidation of dependents may change. -/
theorem rest_invalidateDependents (s : Session) (rebuilt affected : List FileId) :
    s.invalidateDependents rebuilt affected =
      { s with
        units := (s.invalidateDependents rebuilt affected).units
        counters :=
          { s.counters with localInvalidations := s.counters.localInvalidations + 1 } } := by
  simp only [invalidateDependents]
  rw [rest_markAll]

/-- The units behind the end of a flush that moves results to a new generation. -/
theorem unit?_dependents {rebuilt affected : List FileId}
    (hv : (s.nextGeneration.invalidateDependents rebuilt affected).unit? file = some v) :
    ∃ u, s.unit? file = some u ∧ v.analysis.entries = u.analysis.entries ∧
      v.analysis.stamp = if v.state.isBound && v.tree.isSome then s.generation + 1
        else u.analysis.stamp := by
  rw [unit?_invalidateDependents] at hv
  change (ite _ ((s.unit? file).map _) (s.unit? file)).map (restampUnit (s.generation + 1)) =
    some v at hv
  obtain ⟨w, hw, rfl⟩ := Option.map_eq_some_iff.mp hv
  have hrestamp (w : SourceUnit) :
      (restampUnit (s.generation + 1) w).analysis.entries = w.analysis.entries ∧
        (restampUnit (s.generation + 1) w).analysis.stamp =
          if (restampUnit (s.generation + 1) w).state.isBound &&
              (restampUnit (s.generation + 1) w).tree.isSome then s.generation + 1
          else w.analysis.stamp := by
    unfold restampUnit
    split <;> exact ⟨rfl, rfl⟩
  split at hw
  · obtain ⟨u, hu, rfl⟩ := Option.map_eq_some_iff.mp hw
    refine ⟨u, hu, ?_⟩
    have houtdated : u.outdated.analysis = u.analysis := by rw [u.rest_outdated]
    rw [← houtdated]
    exact hrestamp u.outdated
  · exact ⟨w, hw, hrestamp w⟩

section

variable (h : FlushEnd s t)
include h

/-- The end of a flush takes no units away, and changes at most how far they have come and the
generation of their results. -/
theorem FlushEnd.unit?_of_some {u : SourceUnit} (hu : s.unit? file = some u) :
    ∃ v, t.unit? file = some v ∧ (v = u ∨ v = u.outdated ∨
      v = restampUnit t.generation u ∨ v = restampUnit t.generation u.outdated) := by
  cases h with
  | calm => exact ⟨u, hu, .inl rfl⟩
  | full rebuilt =>
    rw [unit?_invalidateAll]
    change ∃ v, ite _ (s.unit? file) ((s.unit? file).map _) = some v ∧ _
    rw [hu]
    split
    · exact ⟨u, rfl, .inl rfl⟩
    · exact ⟨u.outdated, rfl, .inr (.inl rfl)⟩
  | dependents rebuilt affected =>
    have hgen : (s.nextGeneration.invalidateDependents rebuilt affected).generation =
        s.nextGeneration.generation := generation_markAll s.nextGeneration _
    rw [unit?_invalidateDependents, hgen]
    change ∃ v, (ite _ ((s.unit? file).map _) (s.unit? file)).map _ = some v ∧ _
    rw [hu]
    split
    · exact ⟨_, rfl, .inr (.inr (.inr rfl))⟩
    · exact ⟨_, rfl, .inr (.inr (.inl rfl))⟩

theorem FlushEnd.unit?_of_none (hu : s.unit? file = none) :
    t.unit? file = none := by
  cases h with
  | calm => exact hu
  | full rebuilt =>
    rw [unit?_invalidateAll]
    change ite _ (s.unit? file) ((s.unit? file).map _) = none
    rw [hu]
    split <;> rfl
  | dependents rebuilt affected =>
    rw [unit?_invalidateDependents]
    change (ite _ ((s.unit? file).map _) (s.unit? file)).map _ = none
    rw [hu]
    split <;> rfl

/-- The units behind the end of a flush, one by one. -/
theorem FlushEnd.unit?_cases (hv : t.unit? file = some v) :
    ∃ u, s.unit? file = some u ∧ (v = u ∨ v = u.outdated ∨
      v = restampUnit t.generation u ∨ v = restampUnit t.generation u.outdated) := by
  cases hu : s.unit? file with
  | none =>
    rw [h.unit?_of_none hu] at hv
    exact nomatch hv
  | some u =>
    obtain ⟨w, hw, hc⟩ := h.unit?_of_some hu
    obtain rfl := Option.some.inj (hv.symm.trans hw)
    exact ⟨u, rfl, hc⟩

/-- The end of a flush changes the state and results of units. -/
theorem FlushEnd.unit?_rest (hv : t.unit? file = some v) :
    ∃ u, s.unit? file = some u ∧ v = { u with state := v.state, analysis := v.analysis } := by
  obtain ⟨u, hu, rfl | rfl | rfl | rfl⟩ := h.unit?_cases hv
  · exact ⟨v, hu, rfl⟩
  · exact ⟨u, hu, by rw [u.rest_outdated]⟩
  · exact ⟨u, hu, by rw [rest_restampUnit]⟩
  · exact ⟨u, hu, by rw [rest_restampUnit, u.rest_outdated]⟩

/-- The end of a flush touches nothing but units, types, the generation with its handles, and the
counts of changes. -/
theorem FlushEnd.rest :
    t = { s with
      units := t.units
      types := t.types
      generation := t.generation
      handles := t.handles
      counters :=
        { s.counters with
          localInvalidations := t.counters.localInvalidations
          fullInvalidations := t.counters.fullInvalidations } } := by
  cases h with
  | calm => rfl
  | full rebuilt =>
    simp only [invalidateAll]
    rw [rest_markAll]
    rfl
  | dependents rebuilt affected =>
    simp only [invalidateDependents]
    rw [rest_markAll]
    rfl

/-- The end of a flush keeps units tidy. -/
theorem FlushEnd.tidy (hs : s.Tidy) : t.Tidy := by
  intro file v hv
  obtain ⟨u, hu, rfl | rfl | rfl | rfl⟩ := h.unit?_cases hv
  · exact hs file v hu
  · exact (hs file u hu).outdated
  · exact (hs file u hu).restampUnit _
  · exact (hs file u hu).outdated.restampUnit _

theorem FlushEnd.indexed (hs : s.Indexed) : t.Indexed := by
  refine hs.congr (by rw [h.rest]) fun file => ?_
  cases hv : t.unit? file with
  | none =>
    cases hu : s.unit? file with
    | none => rw [path?, path?, hu, hv]
    | some u =>
      obtain ⟨v, hv', -⟩ := h.unit?_of_some hu
      exact absurd (hv'.symm.trans hv) (Option.some_ne_none v)
  | some v =>
    obtain ⟨u, hu, hrest⟩ := h.unit?_rest hv
    rw [path?_eq_some hu, path?_eq_some hv, hrest]

end

/-! ## The whole of a flush -/

theorem scope_reparse_full (s : Session) (files : List FileId) :
    (reparse .full s files).2.1 = .full := by
  induction files generalizing s with
  | nil => rfl
  | cons file files ih =>
    rw [reparse]
    split
    · exact ih s
    · split
      · exact ih _
      · split
        · exact ih _
        · exact ih _

theorem scope_rebind_full (s : Session) (reparsed : List Reparsed) :
    (rebind .full s reparsed).2.1 = .full := by
  induction reparsed generalizing s with
  | nil => rfl
  | cons entry rest ih =>
    obtain ⟨file, before⟩ := entry
    simp only [rebind, ite_self]
    exact ih _

/-- The first part of a flush: the changed units have been gone through. -/
def reparsed (s : Session) : List Reparsed × InvalidationScope × Session :=
  reparse (if s.pendingFull then .full else .dependents)
    { s with dirty := [], pendingFull := false } s.dirty

/-- The second part of a flush: what was parsed again has been bound. -/
def rebound (s : Session) : List FileId × InvalidationScope × Session :=
  rebind s.reparsed.2.1 s.reparsed.2.2 s.reparsed.1

theorem flush_eq (hp : s.hasPendingChanges = true) :
    s.flush =
      if s.reparsed.1.isEmpty && s.rebound.2.1 == .dependents then s.rebound.2.2
      else if s.rebound.2.1 == .full then
        s.rebound.2.2.nextGeneration.invalidateAll (s.reparsed.1.map (·.1))
      else s.rebound.2.2.nextGeneration.invalidateDependents (s.reparsed.1.map (·.1))
        s.rebound.1 := by
  rw [flush, hp]
  rfl

/-- A flush ends behind the binding of what it has parsed. -/
theorem flushEnd_rebound (hp : s.hasPendingChanges = true) : FlushEnd s.rebound.2.2 s.flush := by
  rw [flush_eq hp]
  split
  · exact .calm
  · split
    · exact .full _
    · exact .dependents _ _

/-- A flush goes through the changed units first. -/
theorem reparses_reparsed (s : Session) :
    Reparses { s with dirty := [], pendingFull := false } s.dirty s.reparsed.2.2 :=
  reparses_reparse _ _ s.dirty

/-- A flush binds what it has parsed. -/
theorem binds_rebound (hs : s.Tidy) : Binds s.reparsed.2.2 s.rebound.2.2 :=
  binds_rebind _ ((reparses_reparsed s).tidy hs) _

/-- A flush that has something to do goes through the changed units, binds what it has parsed again,
and ends in one of three ways; after a file has come or gone it looks at everything again. -/
theorem flush_cases (hs : s.Tidy) (hp : s.hasPendingChanges = true) :
    ∃ t r, Reparses { s with dirty := [], pendingFull := false } s.dirty t ∧ Binds t r ∧
      FlushEnd r s.flush ∧ (s.pendingFull = true →
        ∃ rebuilt, s.flush = r.nextGeneration.invalidateAll rebuilt) := by
  refine ⟨s.reparsed.2.2, s.rebound.2.2, reparses_reparsed s, binds_rebound hs,
    flushEnd_rebound hp, fun hfull => ?_⟩
  have hscope : s.reparsed.2.1 = .full := by
    rw [reparsed, if_pos hfull]
    exact scope_reparse_full _ s.dirty
  have hbound : s.rebound.2.1 = .full := by
    rw [rebound, hscope]
    exact scope_rebind_full _ _
  rw [flush_eq hp, hbound]
  exact ⟨s.reparsed.1.map (·.1), by simp⟩

/-- Without pending changes a flush does nothing. -/
theorem flush_of_not_pending (h : s.hasPendingChanges = false) : s.flush = s := by
  simp [flush, h]

variable (hs : s.Tidy)
include hs

/-- A property that the three parts of a flush keep is kept by the flush. -/
theorem flush_induct (hclear : P s → P { s with dirty := [], pendingFull := false })
    (hreparse : ∀ t r file, t.Tidy → ReparseStep t file r → P t → P r)
    (hbind : ∀ t r, BindStep t r → P t → P r) (hend : ∀ t r, t.Tidy → FlushEnd t r → P t → P r)
    (h : P s) : P s.flush := by
  cases hp : s.hasPendingChanges with
  | false => rwa [flush_of_not_pending hp]
  | true =>
    obtain ⟨t, r, hrep, hb, he, -⟩ := flush_cases hs hp
    have hcleared : ({ s with dirty := [], pendingFull := false } : Session).Tidy := hs
    have ht : t.Tidy := hrep.tidy hcleared
    refine hend r _ (hb.tidy ht) he (hb.induct hbind ?_)
    exact hrep.induct hreparse hcleared (hclear h)

/-- A flush keeps units tidy. -/
theorem Tidy.flush : s.flush.Tidy :=
  flush_induct hs id (fun _ _ _ _ h => h.tidy) (fun _ _ h => h.tidy) (fun _ _ _ h => h.tidy) hs

theorem Indexed.flush (hd : s.Indexed) : s.flush.Indexed :=
  flush_induct hs id (fun _ _ _ _ h => h.indexed) (fun _ _ h => h.indexed)
    (fun _ _ _ h => h.indexed) hd

/-- Behind a flush, no unit waits. -/
theorem dirty_flush : s.flush.dirty = [] := by
  cases hp : s.hasPendingChanges with
  | false =>
    rw [flush_of_not_pending hp]
    simpa [hasPendingChanges] using (Bool.or_eq_false_iff.mp hp).2
  | true =>
    obtain ⟨t, r, hrep, hb, he, -⟩ := flush_cases hs hp
    have ht : t.dirty = [] :=
      hrep.induct (P := fun s => s.dirty = []) (fun _ _ _ _ h => h.dirty) hs rfl
    rw [he.rest, hb.rest]
    exact ht

/-- Up to its end, a flush adds no results, and it leaves the types, the generation and the counts
of changes alone. -/
theorem flush_end :
    ∃ r, s.Inherits r ∧ r.Tidy ∧ r.types = s.types ∧ r.generation = s.generation ∧
      r.counters.fullInvalidations = s.counters.fullInvalidations ∧
      r.counters.localInvalidations = s.counters.localInvalidations ∧ FlushEnd r s.flush := by
  cases hp : s.hasPendingChanges with
  | false =>
    rw [flush_of_not_pending hp]
    exact ⟨s, .refl s, hs, rfl, rfl, rfl, rfl, .calm⟩
  | true =>
    obtain ⟨t, r, hrep, hb, he, -⟩ := flush_cases hs hp
    have ht : t.Tidy := hrep.tidy (s := { s with dirty := [], pendingFull := false }) hs
    have hinherits : s.Inherits t := hrep.inherits
    refine ⟨r, hinherits.trans hb.inherits, hb.tidy ht, ?_, ?_, ?_, ?_, he⟩
    all_goals rw [hb.rest, hrep.rest]

theorem fullInvalidations_flush_le :
    s.counters.fullInvalidations ≤ s.flush.counters.fullInvalidations := by
  obtain ⟨r, -, -, -, -, hfull, -, he⟩ := flush_end hs
  generalize s.flush = t at he ⊢
  rw [← hfull]
  cases he with
  | calm => exact Nat.le_refl _
  | full rebuilt =>
    rw [counters_invalidateAll]
    exact Nat.le_succ _
  | dependents rebuilt affected =>
    rw [rest_invalidateDependents]
    exact Nat.le_refl _

/-- After a file has come or gone, a flush begins a new table of types and moves no results. -/
theorem counters_flush (hp : s.pendingFull = true) :
    s.flush.counters.fullInvalidations = s.counters.fullInvalidations + 1 ∧
      s.flush.counters.localInvalidations = s.counters.localInvalidations := by
  obtain ⟨t, r, hrep, hb, -, hfull⟩ := flush_cases hs (by simp [hasPendingChanges, hp])
  obtain ⟨rebuilt, heq⟩ := hfull hp
  rw [heq, counters_invalidateAll]
  simp only [nextGeneration]
  rw [hb.rest, hrep.rest]
  exact ⟨rfl, rfl⟩

end Session
end LiveCheck
