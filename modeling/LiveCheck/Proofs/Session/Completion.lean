import LiveCheck.Proofs.Session.Binding

/-!
# What binding leaves behind

All that is begun while names are bound is finished, and evaluation does nothing else to names.
-/

/-!
## What is begun gets done

A unit that is parsed on the way to an answer is bound before the answer is given, whatever else has
to be bound first. So a unit is left without its binding, or counts as being bound, only if it was so
from the start. What is bound is not bound again.
-/

namespace LiveCheck

/-- The unit is bound, to the same tree and with the same names as another one. -/
structure SourceUnit.StaysBound (u v : SourceUnit) : Prop where
  isBound : v.state.isBound = true
  tree : v.tree = u.tree
  binding : v.binding = u.binding

namespace Session

variable {s t : Session} {file other : FileId}

/-- A unit has a new tree that is not bound yet. -/
def IsParsed (s : Session) (file : FileId) : Prop :=
  ∃ u, s.unit? file = some u ∧ u.state = .parsed

/-- All units that are parsed behind a step were so before, the same units are being bound, and what
was bound still is. -/
structure Completes (s t : Session) : Prop where
  parsed : ∀ file, t.IsParsed file → s.IsParsed file
  inProgress : t.inProgress = s.inProgress
  bound : ∀ file u, s.unit? file = some u → u.state.isBound = true →
    ∃ v, t.unit? file = some v ∧ u.StaysBound v

theorem Completes.refl (s : Session) : s.Completes s :=
  ⟨fun _ h => h, rfl, fun _ u hu hb => ⟨u, hu, hb, rfl, rfl⟩⟩

theorem Completes.trans {r : Session} (h : s.Completes t) (h' : t.Completes r) : s.Completes r where
  parsed file hf := h.parsed file (h'.parsed file hf)
  inProgress := h'.inProgress.trans h.inProgress
  bound file u hu hb := by
    obtain ⟨v, hv, hbound⟩ := h.bound file u hu hb
    obtain ⟨w, hw, hbound'⟩ := h'.bound file v hv hbound.isBound
    exact ⟨w, hw, hbound'.isBound, hbound'.tree.trans hbound.tree,
      hbound'.binding.trans hbound.binding⟩

/-- Changing nothing about units leaves nothing undone. -/
theorem completes_of_units (hu : t.units = s.units) (hp : t.inProgress = s.inProgress) :
    s.Completes t := by
  have hunit (file : FileId) : t.unit? file = s.unit? file := by rw [unit?, unit?, hu]
  refine ⟨?_, hp, fun file u hu hb => ⟨u, (hunit file).trans hu, hb, rfl, rfl⟩⟩
  rintro file ⟨u, hu, hstate⟩
  exact ⟨u, hunit file ▸ hu, hstate⟩

/-- Changing a unit in place leaves nothing undone if the unit is neither parsed nor bound anew. -/
theorem completes_modifyUnit
    (hf : ∀ u, s.unit? file = some u → (f u).state = .parsed → u.state = .parsed)
    (hb : ∀ u, s.unit? file = some u → u.state.isBound = true → u.StaysBound (f u)) :
    s.Completes (s.modifyUnit file f) := by
  refine ⟨fun other h => ?_, rfl, fun other u hu hbound => ?_⟩
  · obtain ⟨v, hv, hstate⟩ := h
    obtain ⟨u, hu, ⟨rfl, rfl⟩ | ⟨-, rfl⟩⟩ := unit?_modifyUnit_eq_some hv
    · exact ⟨u, hu, hf u hu hstate⟩
    · exact ⟨v, hu, hstate⟩
  · rw [unit?_modifyUnit, hu]
    split
    · next h =>
      subst h
      exact ⟨f u, rfl, hb u hu hbound⟩
    · exact ⟨u, rfl, hbound, rfl, rfl⟩

theorem completes_unitFor (s : Session) (path : String) : s.Completes (s.unitFor path).2 := by
  refine ⟨fun other h => ?_, by rw [rest_unitFor], fun other u hu hbound => ?_⟩
  · obtain ⟨v, hv, hstate⟩ := h
    rw [unit?_unitFor] at hv
    split at hv
    · obtain rfl := Option.some.inj hv
      exact nomatch hstate
    · exact ⟨v, hv, hstate⟩
  · exact ⟨u, unit?_unitFor_of_some path hu, hbound, rfl, rfl⟩

/-- To look up an import leaves no unit half bound. -/
theorem completes_resolveImport (s : Session) (file : FileId) (dotted : String) (level : Nat) :
    s.Completes (s.resolveImport file dotted level).2 := by
  obtain he | ⟨t, cache, ht, he⟩ := resolveImport_cases s file dotted level
  · rw [he]
    exact .refl s
  · have hmeet : s.Completes t := by
      rcases ht with rfl | ⟨path, rfl⟩
      · exact .refl t
      · exact completes_unitFor s path
    rw [he]
    exact hmeet.trans (completes_modifyUnit (fun _ _ h => h) fun _ _ h => ⟨h, rfl, rfl⟩)

private theorem IsParsed.of_parseUnit {content : String}
    (h : (s.parseUnit file content).IsParsed other)
    (hne : other ≠ file) : s.IsParsed other := by
  obtain ⟨v, hv, hstate⟩ := h
  cases hu : s.unit? file with
  | none =>
    have heq : s.parseUnit file content = s := by simp [parseUnit, hu]
    rw [heq] at hv
    exact ⟨v, hv, hstate⟩
  | some u =>
    rw [parseUnit_eq hu] at hv
    change (s.modifyUnit file _).unit? other = some v at hv
    rw [unit?_modifyUnit_of_ne s file _ hne] at hv
    exact ⟨v, hv, hstate⟩

theorem IsBound.not_isParsed (h : s.IsBound file) : ¬ s.IsParsed file := by
  intro hp
  obtain ⟨u, hu, hbound⟩ := h
  obtain ⟨v, hv, hstate⟩ := hp
  obtain rfl := Option.some.inj (hv.symm.trans hu)
  rw [hstate] at hbound
  exact nomatch hbound

variable {ensure : Binder}

/-- Bringing a unit up to date leaves nothing undone. -/
def CompletesOnly (ensure : Binder) : Prop := ∀ s target, Completes s (ensure s target).2

section

variable (he : CompletesOnly ensure)
include he

private theorem kept_completes (s : Session) (file : FileId) :
    KeptWhileBinding ensure file s.Completes where
  resolve r dotted level h := h.trans (completes_resolveImport r file dotted level)
  ensure r target h := h.trans (he r target)

private theorem isParsed_bindUnit (h : (bindUnit ensure s file).2.IsParsed other) :
    s.IsParsed other ∧ ((s.unit? file).any (·.tree.isSome) = true → other ≠ file) := by
  cases htree : (s.unit? file).bind (·.tree) with
  | none =>
    have heq : bindUnit ensure s file = (false, s) := by simp [bindUnit, htree]
    rw [heq] at h
    refine ⟨h, fun hsome => ?_⟩
    obtain ⟨u, hu, hsome⟩ := (Option.any_eq_true _ _).mp hsome
    simp [hu] at htree
    simp [htree] at hsome
  | some tree =>
    obtain ⟨u, hu, ht⟩ := Option.bind_eq_some_iff.mp htree
    obtain ⟨t, binding, targets, hkept, heq⟩ := bindUnit_eq ensure hu ht
    have hcompletes := hkept _ (kept_completes he (s.binding file) file) (.refl _)
    rw [heq] at h
    obtain ⟨v, hv, hstate⟩ := h
    rw [unit?_bindWith] at hv
    obtain ⟨w, hw, ⟨rfl, rfl⟩ | ⟨hne, rfl⟩⟩ := unit?_modifyUnit_eq_some hv
    · cases hstate
    · exact ⟨hcompletes.parsed other ⟨v, hw, hstate⟩, fun _ => hne⟩

private theorem inProgress_bindUnit (hfile : file ∉ s.inProgress) :
    (bindUnit ensure s file).2.inProgress = s.inProgress := by
  cases htree : (s.unit? file).bind (·.tree) with
  | none => simp [bindUnit, htree]
  | some tree =>
    obtain ⟨u, hu, ht⟩ := Option.bind_eq_some_iff.mp htree
    obtain ⟨t, binding, targets, hkept, heq⟩ := bindUnit_eq ensure hu ht
    have hcompletes := hkept _ (kept_completes he (s.binding file) file) (.refl _)
    have hothers : ∀ other ∈ s.inProgress, other ≠ file := fun _ h he => hfile (he ▸ h)
    rw [heq]
    change t.inProgress.filter (· != file) = s.inProgress
    rw [hcompletes.inProgress, Session.binding]
    simpa using hothers

private theorem staysBound_bindUnit (hne : other ≠ file) {u : SourceUnit}
    (hu : s.unit? other = some u)
    (hbound : u.state.isBound = true) :
    ∃ v, (bindUnit ensure s file).2.unit? other = some v ∧ u.StaysBound v := by
  cases htree : (s.unit? file).bind (·.tree) with
  | none =>
    have heq : bindUnit ensure s file = (false, s) := by simp [bindUnit, htree]
    rw [heq]
    exact ⟨u, hu, hbound, rfl, rfl⟩
  | some tree =>
    obtain ⟨w, hw, ht⟩ := Option.bind_eq_some_iff.mp htree
    obtain ⟨t, binding, targets, hkept, heq⟩ := bindUnit_eq ensure hw ht
    have hcompletes := hkept _ (kept_completes he (s.binding file) file) (.refl _)
    obtain ⟨v, hv, hstays⟩ := hcompletes.bound other u hu hbound
    refine ⟨v, ?_, hstays⟩
    rw [heq, unit?_bindWith, unit?_modifyUnit_of_ne t file _ hne, hv]

private theorem completes_bindUnit (hfile : file ∉ s.inProgress) (hn : ¬ s.IsBound file) :
    s.Completes (bindUnit ensure s file).2 where
  parsed _ h := (isParsed_bindUnit he h).1
  inProgress := inProgress_bindUnit he hfile
  bound other u hu hbound := by
    refine staysBound_bindUnit he ?_ hu hbound
    rintro rfl
    exact hn ⟨u, hu, hbound⟩

private theorem completes_parse_bindUnit (hfile : file ∉ s.inProgress) (hn : ¬ s.IsBound file)
    (content : String) :
    s.Completes (bindUnit ensure (s.parseUnit file content) file).2 := by
  cases hu : s.unit? file with
  | none =>
    have heq : s.parseUnit file content = s := by simp [parseUnit, hu]
    rw [heq]
    exact completes_bindUnit he hfile hn
  | some u =>
    have hprogress : (s.parseUnit file content).inProgress = s.inProgress := by
      rw [parseUnit_eq hu]
      rfl
    refine ⟨fun other h => ?_, (inProgress_bindUnit he (hprogress ▸ hfile)).trans hprogress,
      fun other v hv hbound => ?_⟩
    · obtain ⟨hp, hne⟩ := isParsed_bindUnit he h
      refine hp.of_parseUnit (hne ?_)
      rw [unit?_parseUnit hu]
      rfl
    · have hne : other ≠ file := by
        rintro rfl
        exact hn ⟨v, hv, hbound⟩
      refine staysBound_bindUnit he hne ?_ hbound
      rw [parseUnit_eq hu]
      change (s.modifyUnit file _).unit? other = some v
      rw [unit?_modifyUnit_of_ne s file _ hne, hv]

end

/-- A unit in another state is not bound. -/
theorem not_isBound_of_state {state : UnitState} (h : (s.unit? file).map SourceUnit.state = some state)
    (hs : state.isBound = false) : ¬ s.IsBound file := by
  rintro ⟨u, hu, hbound⟩
  rw [hu] at h
  obtain rfl := Option.some.inj h
  rw [hs] at hbound
  exact nomatch hbound

/-- Bringing a unit up to date leaves nothing undone that was not so before. -/
theorem completes_ensureBoundUpTo (fuel : Nat) (s : Session) (file : FileId) :
    s.Completes (ensureBoundUpTo fuel s file).2 := by
  induction fuel generalizing s file with
  | zero => exact .refl s
  | succ fuel ih =>
    have he : CompletesOnly (ensureBoundUpTo fuel) := ih
    simp only [ensureBoundUpTo]
    split
    · exact .refl s
    · next hfile =>
      have hfile : file ∉ s.inProgress := by simpa using hfile
      split
      · exact .refl s
      · exact .refl s
      · exact .refl s
      · next h => exact completes_bindUnit he hfile (not_isBound_of_state h rfl)
      · next h =>
        have hdrop : s.Completes (s.modifyUnit file SourceUnit.discardEvaluation) :=
          completes_modifyUnit (fun _ _ h => h) fun _ _ h => ⟨h, rfl, rfl⟩
        have hstate : ((s.modifyUnit file SourceUnit.discardEvaluation).unit? file).map
            SourceUnit.state = some (.stale .dependency) := by
          rw [unit?_modifyUnit_self, Option.map_map]
          exact h
        refine hdrop.trans (completes_bindUnit he (hdrop.inProgress ▸ hfile) ?_)
        exact not_isBound_of_state hstate rfl
      · next h =>
        split
        · exact completes_parse_bindUnit he hfile (not_isBound_of_state h rfl) _
        · exact .refl s
      · next h =>
        split
        · exact completes_parse_bindUnit he hfile (not_isBound_of_state h rfl) _
        · exact .refl s

/-- To bind on demand leaves no unit half bound. -/
theorem completes_ensureBound (s : Session) (file : FileId) :
    s.Completes (s.ensureBound file).2 := completes_ensureBoundUpTo _ s file

theorem completes_bindParsed (hfile : file ∉ s.inProgress) (hn : ¬ s.IsBound file) :
    s.Completes (s.bindParsed file) := completes_bindUnit completes_ensureBound hfile hn

end Session
end LiveCheck

/-!
## What evaluation does to names

Evaluation brings units up to date, looks up imports and makes units for the files that it meets.
All else that it does is about types and problems, and spares the names. A property that the former
keep, and that does not look at the latter, is kept by whole evaluations; it need not hold in the
midst of a binding.
-/

namespace LiveCheck

/-- Nothing that has to do with names differs between two units. -/
structure SourceUnit.SameNames (u v : SourceUnit) : Prop where
  rest : v =
    { u with
      state := v.state
      analysis := v.analysis
      checkReports := v.checkReports
      stats := { u.stats with checks := v.stats.checks } }
  state : v.state = u.state ∨ u.state.isBound = true ∧ v.state.isBound = true
  analysis : v.analysis = u.analysis ∨ u.state.isBound = true

namespace SourceUnit.SameNames

variable {u v : SourceUnit}

private theorem refl (u : SourceUnit) : u.SameNames u := ⟨rfl, .inl rfl, .inl rfl⟩

theorem isBound (h : u.SameNames v) : v.state.isBound = u.state.isBound := by
  rcases h.state with hs | ⟨hu, hv⟩
  · rw [hs]
  · rw [hu, hv]

/-- Only units that are bound before and after come into other states. -/
theorem state_eq (h : u.SameNames v) (hb : v.state.isBound = false) : v.state = u.state := by
  rcases h.state with hs | ⟨-, hv⟩
  · exact hs
  · rw [hb] at hv
    exact nomatch hv

theorem tidy (h : u.SameNames v) (hu : u.Tidy) : v.Tidy where
  bound hb := by
    rw [h.rest]
    exact hu.bound (h.isBound ▸ hb)
  parsed hs := by
    rw [h.rest]
    exact hu.parsed ((h.state_eq (by rw [hs]; rfl)).symm.trans hs)
  stale hs := by
    rw [h.rest]
    exact hu.stale ((h.state_eq (by rw [hs]; rfl)).symm.trans hs)
  unbound hb := by
    have hbinding : u.binding = none := by
      rw [h.rest] at hb
      exact hb
    rcases h.analysis with ha | hbound
    · rw [ha]
      exact hu.unbound hbinding
    · have hsome := (hu.bound hbound).2
      rw [hbinding] at hsome
      exact nomatch hsome

end SourceUnit.SameNames

namespace Session

variable {s t : Session} {file : FileId}

/-- The units are the same but for types and problems, and nothing is different about files, paths
and what is to be done. -/
structure Spares (s t : Session) : Prop where
  rest : t =
    { s with
      units := t.units
      graph := t.graph
      types := t.types
      handles := t.handles
      counters := t.counters }
  unit : ∀ file u, s.unit? file = some u → ∃ v, t.unit? file = some v ∧ u.SameNames v
  unit_back : ∀ file v, t.unit? file = some v → ∃ u, s.unit? file = some u ∧ u.SameNames v

/-- Changing a unit in place spares the names if it spares those of the unit. -/
theorem spares_modifyUnit (hf : ∀ u, s.unit? file = some u → u.SameNames (f u)) :
    s.Spares (s.modifyUnit file f) where
  rest := rfl
  unit other u hu := by
    rw [unit?_modifyUnit, hu]
    split
    · next h =>
      subst h
      exact ⟨f u, rfl, hf u hu⟩
    · exact ⟨u, rfl, .refl u⟩
  unit_back other v hv := by
    obtain ⟨u, hu, ⟨rfl, rfl⟩ | ⟨-, rfl⟩⟩ := unit?_modifyUnit_eq_some hv
    · exact ⟨u, hu, hf u hu⟩
    · exact ⟨v, hu, .refl v⟩

/-- Changing nothing about units spares the names. -/
theorem spares_of_units
    (h : t =
      { s with graph := t.graph, types := t.types, handles := t.handles, counters := t.counters }) :
    s.Spares t := by
  have hunits : t.units = s.units := by rw [h]
  have hunit (file : FileId) : t.unit? file = s.unit? file := by rw [unit?, unit?, hunits]
  refine ⟨?_, fun file u hu => ⟨u, (hunit file).trans hu, .refl u⟩, fun file v hv => ?_⟩
  · rw [hunits]
    exact h
  · exact ⟨v, (hunit file).symm.trans hv, .refl v⟩

/-- A property of the names that whole bindings and lookups keep. -/
structure Sustained (P : Session → Prop) : Prop where
  bind : ∀ s file, P s → P (s.ensureBound file).2
  resolve : ∀ s file dotted level, P s → P (s.resolveImport file dotted level).2
  meet : ∀ s path, P s → P (s.unitFor path).2
  spare : ∀ s t, s.Spares t → P s → P t

end Session
end LiveCheck
