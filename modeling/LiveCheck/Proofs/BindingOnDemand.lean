import LiveCheck.Proofs.Session.Completion
import Mathlib.Data.Finset.Card

/-!
# Binding on demand

Bringing a unit up to date ends for any files and any states of their units, circles of imports
included: there is always room for the units that are still to be bound, so nothing is ever asked for
where the bound on the depth would end the recursion.
-/

/-!
## The recursion of binding

To bring a unit up to date, the units are brought up to date that it takes all names from, and so on.
The units that are being bound meanwhile are different ones, and a new unit is made only for a file
that had none, which bounds their number. On the way, each unit is bound once at most, and what counts
as being bound is the same behind it as before.
-/

namespace LiveCheck.Session

variable {s t : Session} {file target : FileId} {ensure ensure' : Binder} {P : Session → Prop}
  {n m : Nat} {path : String} {f : SourceUnit → SourceUnit} {u : SourceUnit}

/-! ### The recursion -/

/-- Brings a unit up to date, where `ensure` does so with the units that it takes all names from. -/
def ensureBoundBy (ensure : Binder) : Binder := fun s file =>
  if s.inProgress.contains file then (false, s)
  else
    match (s.unit? file).map SourceUnit.state with
    | none => (false, s)
    | some .bound | some (.evaluated _) => (true, s)
    | some .parsed => bindUnit ensure s file
    | some (.stale .dependency) =>
      bindUnit ensure (s.modifyUnit file SourceUnit.discardEvaluation) file
    | some .unseen | some (.stale .content) =>
      match s.content? file with
      | some content => bindUnit ensure (s.parseUnit file content) file
      | none => (false, s)

theorem ensureBoundUpTo_succ (n : Nat) :
    ensureBoundUpTo (n + 1) = ensureBoundBy (ensureBoundUpTo n) := rfl

private theorem ensureBoundUpTo_add (n m : Nat) :
    ensureBoundUpTo (n + m) = ensureBoundBy^[n] (ensureBoundUpTo m) := by
  induction n with
  | zero => rw [Nat.zero_add, Function.iterate_zero_apply]
  | succ n ih => rw [Nat.succ_add, ensureBoundUpTo_succ, ih, Function.iterate_succ_apply']

private theorem bindUnit_congr (hP : KeptWhileBinding ensure file P)
    (heq : ∀ t target, P t → ensure t target = ensure' t target) (hs : P (s.binding file)) :
    bindUnit ensure s file = bindUnit ensure' s file := by
  have hone (t : Session) (b : Binding) (index : Nat) (ht : P t) :
      addWildcard ensure file (b, t) index = addWildcard ensure' file (b, t) index := by
    simp only [addWildcard]
    split
    · rfl
    · next record _ =>
      have hr := hP.resolve t record.path record.level ht
      split
      · rfl
      · next target r hresolve =>
        rw [hresolve] at hr
        rw [heq r target hr]
  have hall (indices : List Nat) (t : Session) (b : Binding) (ht : P t) :
      indices.foldl (addWildcard ensure file) (b, t) =
        indices.foldl (addWildcard ensure' file) (b, t) := by
    induction indices generalizing t b with
    | nil => rfl
    | cons index rest ih =>
      rw [List.foldl_cons, List.foldl_cons, ← hone t b index ht]
      exact ih _ _ (hP.addWildcard ht b index)
  simp only [bindUnit]
  split
  · rfl
  · next tree _ =>
    have hnamed := hall tree.bind.wildcards.toList (s.binding file) tree.bind hs
    rw [Session.binding] at hnamed
    rw [hnamed]

/-! ### Room -/

/-- The files without a unit. -/
def unmet (s : Session) : Finset String :=
  {path ∈ s.files.files.keys.toFinset | s.find? path = none}

/-- How many units there are, and can be. -/
def capacity (s : Session) : Nat := s.units.size + s.unmet.card

private def begun (s : Session) :
    Finset FileId := {file ∈ Finset.range s.units.size | file ∈ s.inProgress}

private def HasRoom (n : Nat) (s : Session) : Prop := s.capacity < n + s.begun.card

private theorem mem_unmet :
    path ∈ s.unmet ↔ s.files.contains path = true ∧ s.find? path = none := by
  simp [unmet, FileStore.contains]

private theorem card_begun_le (s : Session) : s.begun.card ≤ s.capacity := by
  have hle : s.begun.card ≤ s.units.size := by
    simpa [begun] using Finset.card_filter_le (Finset.range s.units.size) (· ∈ s.inProgress)
  exact Nat.le_trans hle (Nat.le_add_right _ _)

theorem capacity_lt_bindingDepth (s : Session) : s.capacity < s.bindingDepth := by
  have hle : s.unmet.card ≤ s.files.size := by
    calc s.unmet.card ≤ s.files.files.keys.toFinset.card := Finset.card_filter_le _ _
      _ ≤ s.files.files.keys.length := s.files.files.keys.toFinset_card_le
      _ = s.files.size := Std.TreeMap.length_keys
  unfold capacity bindingDepth
  omega

private theorem hasRoom_bindingDepth (s : Session) : HasRoom s.bindingDepth s :=
  Nat.lt_add_right _ s.capacity_lt_bindingDepth

private theorem HasRoom.pos (h : HasRoom n s) : 0 < n := by
  have hle := s.card_begun_le
  unfold HasRoom at h
  omega

private theorem HasRoom.mono (h : HasRoom n s) (hle : n ≤ m) : HasRoom m s :=
  Nat.lt_of_lt_of_le h (Nat.add_le_add_right hle _)

private theorem HasRoom.binding (h : HasRoom (n + 1) s) (hfile : file ∉ s.inProgress)
    (hu : (s.unit? file).isSome = true) : HasRoom n (s.binding file) := by
  have hsub : s.begun ⊆ (s.binding file).begun := by
    intro other hother
    simp only [begun, Session.binding, Finset.mem_filter, List.mem_cons] at hother ⊢
    exact ⟨hother.1, .inr hother.2⟩
  have hnew : file ∈ (s.binding file).begun ∧ file ∉ s.begun := by
    obtain ⟨u, hu⟩ := Option.isSome_iff_exists.mp hu
    simp [begun, Session.binding, lt_size_of_unit? hu, hfile]
  have hlt : s.begun.card < (s.binding file).begun.card :=
    Finset.card_lt_card ((Finset.ssubset_iff_of_subset hsub).mpr ⟨file, hnew⟩)
  have hcapacity : (s.binding file).capacity = s.capacity := rfl
  unfold HasRoom at h ⊢
  omega

/-! ### What bringing units up to date does -/

/-- How often a unit was bound. -/
def bindCount (s : Session) (file : FileId) : Nat := (s.unit? file).elim 0 (·.stats.binds)

/-- The unit was bound as often as before, or else once more, if it was neither bound nor being
bound. -/
def BindsOnce (s t : Session) (file : FileId) : Prop :=
  t.bindCount file = s.bindCount file ∨
    (¬ s.IsBound file ∧ file ∉ s.inProgress ∧ t.IsBound file ∧
      t.bindCount file = s.bindCount file + 1)

/-- No unit goes away, none is bound no more or twice, the same units are being bound, and new units
are made for files that had none. -/
structure Furthers (s t : Session) : Prop where
  present : ∀ file, (s.unit? file).isSome = true → (t.unit? file).isSome = true
  bound : ∀ file, s.IsBound file → t.IsBound file
  once : ∀ file, s.BindsOnce t file
  inProgress : t.inProgress = s.inProgress
  size : s.units.size ≤ t.units.size
  capacity : t.capacity ≤ s.capacity

theorem Furthers.refl (s : Session) : s.Furthers s :=
  ⟨fun _ h => h, fun _ h => h, fun _ => .inl rfl, rfl, Nat.le_refl _, Nat.le_refl _⟩

theorem Furthers.trans {r : Session} (h : s.Furthers t) (h' : t.Furthers r) : s.Furthers r where
  present file hu := h'.present file (h.present file hu)
  bound file hb := h'.bound file (h.bound file hb)
  once file := by
    rcases h.once file with heq | ⟨hn, hfile, hb, heq⟩
    · rcases h'.once file with heq' | ⟨hn', hfile', hb', heq'⟩
      · exact .inl (heq'.trans heq)
      · exact .inr ⟨fun hb => hn' (h.bound file hb), h.inProgress ▸ hfile', hb', by rw [heq', heq]⟩
    · rcases h'.once file with heq' | ⟨hn', -⟩
      · exact .inr ⟨hn, hfile, h'.bound file hb, heq'.trans heq⟩
      · exact absurd hb hn'
  inProgress := h'.inProgress.trans h.inProgress
  size := Nat.le_trans h.size h'.size
  capacity := Nat.le_trans h'.capacity h.capacity

private theorem Furthers.hasRoom (h : s.Furthers t) (hs : HasRoom n s) : HasRoom n t := by
  have hbegun : s.begun.card ≤ t.begun.card := by
    refine Finset.card_le_card fun other hother => ?_
    simp only [begun, Finset.mem_filter, Finset.mem_range, h.inProgress] at hother ⊢
    exact ⟨Nat.lt_of_lt_of_le hother.1 h.size, hother.2⟩
  have hcapacity := h.capacity
  unfold HasRoom at hs ⊢
  omega

private theorem furthers_modified (hunits : t.units = (s.modifyUnit file f).units)
    (hpaths : t.paths = s.paths) (hfiles : t.files = s.files) (hp : t.inProgress = s.inProgress)
    (hcount : ∀ u, (f u).stats.binds = u.stats.binds)
    (hb : ∀ u, s.unit? file = some u → u.state.isBound = true → (f u).state.isBound = true) :
    s.Furthers t := by
  have hunit (other : FileId) :
      t.unit? other = if other = file then (s.unit? other).map f else s.unit? other := by
    rw [← unit?_modifyUnit, unit?, hunits]
    rfl
  have hsize : t.units.size = s.units.size := by rw [hunits]; simp [modifyUnit]
  have hunmet : t.unmet = s.unmet := by
    ext path
    rw [mem_unmet, mem_unmet, find?, find?, hpaths, hfiles]
  refine ⟨fun other hu => ?_, fun other hbound => ?_, fun other => .inl ?_, hp,
    Nat.le_of_eq hsize.symm, Nat.le_of_eq ?_⟩
  · rw [hunit]
    split
    · rwa [Option.isSome_map]
    · exact hu
  · obtain ⟨u, hu, hstate⟩ := hbound
    by_cases ho : other = file
    · subst ho
      exact ⟨f u, by rw [hunit, if_pos rfl, hu]; rfl, hb u hu hstate⟩
    · exact ⟨u, by rw [hunit, if_neg ho, hu], hstate⟩
  · rw [bindCount, bindCount, hunit]
    split
    · cases s.unit? other with
      | none => rfl
      | some u => exact hcount u
    · rfl
  · rw [capacity, capacity, hsize, hunmet]

private theorem furthers_modifyUnit (hcount : ∀ u, (f u).stats.binds = u.stats.binds)
    (hstate : ∀ u, (f u).state = u.state) :
    s.Furthers (s.modifyUnit file f) :=
  furthers_modified rfl rfl rfl rfl hcount fun u _ hb => by rwa [hstate]

private theorem furthers_parseUnit (hn : ¬ s.IsBound file) (content : String) :
    s.Furthers (s.parseUnit file content) := by
  cases hu : s.unit? file with
  | none =>
    have heq : s.parseUnit file content = s := by simp [parseUnit, hu]
    rw [heq]
    exact .refl s
  | some u =>
    rw [parseUnit_eq hu]
    refine furthers_modified (show _ = (s.modifyUnit file _).units from rfl) rfl rfl rfl
      (fun _ => rfl) fun v hv hb => ?_
    exact absurd ⟨v, hv, hb⟩ hn

/-- The unit of a file that exists is found, or else one file fewer is without a unit. -/
theorem furthers_unitFor (h : s.pathExists path = true) :
    s.Furthers (s.unitFor path).2 := by
  cases hfind : s.find? path with
  | some file =>
    rw [unitFor_of_find? file hfind]
    exact .refl s
  | none =>
    have hcontains : s.files.contains path = true := by simpa [pathExists, hfind] using h
    have hunit {other : FileId} (hu : (s.unit? other).isSome = true) :
        (s.unitFor path).2.unit? other = s.unit? other := by
      obtain ⟨u, hu⟩ := Option.isSome_iff_exists.mp hu
      rw [unit?_unitFor_of_some path hu, hu]
    have hunmet {other : String} : other ∈ (s.unitFor path).2.unmet ↔
        other ≠ path ∧ other ∈ s.unmet := by
      rw [mem_unmet, mem_unmet, find?_unitFor]
      rw [s.rest_unitFor path]
      by_cases ho : other = path <;> simp [ho, hfind]
    have hlt : (s.unitFor path).2.unmet.card < s.unmet.card := by
      have hsub : (s.unitFor path).2.unmet ⊆ s.unmet := fun _ ho => (hunmet.mp ho).2
      exact Finset.card_lt_card ((Finset.ssubset_iff_of_subset hsub).mpr
        ⟨path, mem_unmet.mpr ⟨hcontains, hfind⟩, fun hp => (hunmet.mp hp).1 rfl⟩)
    have hsize : (s.unitFor path).2.units.size = s.units.size + 1 := by
      rw [unitFor_of_not_find? hfind]
      simp
    refine ⟨fun other hu => by rwa [hunit hu], ?_, fun other => .inl ?_, by rw [rest_unitFor],
      by omega, ?_⟩
    · rintro other ⟨u, hu, hb⟩
      exact ⟨u, by rw [hunit (by rw [hu]; rfl), hu], hb⟩
    · rw [bindCount, bindCount, unit?_unitFor]
      split
      · next ho =>
        rw [ho.2, unit?_size]
        rfl
      · rfl
    · unfold capacity
      omega

/-- To look up an import undoes nothing and binds nothing. -/
theorem furthers_resolveImport (s : Session) (file : FileId) (dotted : String) (level : Nat) :
    s.Furthers (s.resolveImport file dotted level).2 := by
  simp only [resolveImport]
  split
  · exact .refl s
  · next u _ =>
    split
    · exact .refl s
    · have hmet : s.Furthers (s.unitForOption
          (s.resolver.resolve? s.pathExists u.path dotted level)).2 := by
        cases hr : s.resolver.resolve? s.pathExists u.path dotted level with
        | none => exact .refl s
        | some path => exact furthers_unitFor (List.find?_some hr)
      exact hmet.trans (furthers_modifyUnit (fun _ => rfl) fun _ => rfl)

/-- Whatever a function does that brings other units up to date, it furthers. -/
def FurthersOnly (ensure : Binder) : Prop := ∀ s target, Furthers s (ensure s target).2

private theorem FurthersOnly.kept (he : FurthersOnly ensure) (s : Session) (file : FileId) :
    KeptWhileBinding ensure file s.Furthers where
  resolve r dotted level h := h.trans (furthers_resolveImport r file dotted level)
  ensure r target h := h.trans (he r target)

/-- A unit is not bound while it is being bound, and it is bound at the end of that. -/
theorem furthers_bindUnit (he : FurthersOnly ensure) (hfile : file ∉ s.inProgress)
    (hn : ¬ s.IsBound file) : s.Furthers (bindUnit ensure s file).2 := by
  cases htree : (s.unit? file).bind (·.tree) with
  | none =>
    have heq : bindUnit ensure s file = (false, s) := by simp [bindUnit, htree]
    rw [heq]
    exact .refl s
  | some tree =>
    obtain ⟨u, hu, ht⟩ := Option.bind_eq_some_iff.mp htree
    obtain ⟨t, binding, targets, hkept, heq⟩ := bindUnit_eq ensure hu ht
    have hbegun : (s.binding file).Furthers t := hkept _ (he.kept _ file) (.refl _)
    have hpresent : ((s.binding file).unit? file).isSome = true := Option.isSome_of_eq_some hu
    obtain ⟨v, hv⟩ := Option.isSome_iff_exists.mp (hbegun.present file hpresent)
    have hunit (other : FileId) : (t.bindWith file binding targets).unit? other =
        if other = file then (t.unit? other).map (·.bound binding t.generation)
        else t.unit? other := by rw [unit?_bindWith, unit?_modifyUnit]
    have hsize : (t.bindWith file binding targets).units.size = t.units.size := by
      simp [bindWith, modifyUnit]
    have hcapacity : (t.bindWith file binding targets).capacity = t.capacity := by
      rw [capacity, hsize]
      rfl
    have hothers : ∀ other ∈ s.inProgress, other ≠ file := fun _ h ho => hfile (ho ▸ h)
    have hstays {other : FileId} (ho : other ≠ file) (hb : t.IsBound other) :
        (t.bindWith file binding targets).IsBound other := by
      obtain ⟨w, hw, hb⟩ := hb
      exact ⟨w, by rw [hunit, if_neg ho, hw], hb⟩
    rw [heq]
    refine ⟨fun other hother => ?_, fun other hb => ?_, fun other => ?_, ?_, ?_, ?_⟩
    · rw [hunit]
      split
      · rw [Option.isSome_map]
        exact hbegun.present other hother
      · exact hbegun.present other hother
    · exact hstays (fun ho => hn (ho ▸ hb)) (hbegun.bound other hb)
    · by_cases ho : other = file
      · subst ho
        have hcount : t.bindCount other = s.bindCount other :=
          (hbegun.once other).resolve_right fun h => h.2.1 List.mem_cons_self
        refine .inr ⟨hn, hfile, isBound_bindWith hv binding targets, ?_⟩
        rw [← hcount, bindCount, bindCount, hunit, if_pos rfl, hv]
        rfl
      · have hcount : (t.bindWith file binding targets).bindCount other = t.bindCount other := by
          rw [bindCount, bindCount, hunit, if_neg ho]
        refine (hbegun.once other).imp hcount.trans fun hlater => ?_
        obtain ⟨hn, hother, hb, hmore⟩ := hlater
        exact ⟨hn, fun h => hother (List.mem_cons_of_mem file h), hstays ho hb, hcount.trans hmore⟩
    · change t.inProgress.filter (· != file) = s.inProgress
      rw [hbegun.inProgress, Session.binding]
      simpa using hothers
    · rw [hsize]
      exact hbegun.size
    · rw [hcapacity]
      exact hbegun.capacity

/-- A unit that is neither bound nor being bound is ready to be so; no other unit was changed for
that. -/
structure Readies (s : Session) (file : FileId) (t : Session) : Prop where
  notBegun : file ∉ s.inProgress
  furthers : s.Furthers t
  unit : ∃ v, t.unit? file = some v ∧ v.state.isBound = false ∧ (s.Tidy → v.Blank)
  others : ∀ other, other ≠ file → t.unit? other = s.unit? other
  tidy : s.Tidy → t.Tidy
  files : t.files = s.files

theorem Readies.notBound (h : s.Readies file t) : ¬ t.IsBound file := by
  obtain ⟨v, hv, hn, -⟩ := h.unit
  exact not_isBound_of_state (by rw [hv, Option.map_some]) hn

private theorem readies_parsed (hfile : file ∉ s.inProgress) (hu : s.unit? file = some u)
    (hp : u.state = .parsed) : s.Readies file s where
  notBegun := hfile
  furthers := .refl s
  unit := ⟨u, hu, by rw [hp]; rfl, fun hs => (hs file u hu).blank hp⟩
  others _ _ := rfl
  tidy hs := hs
  files := rfl

private theorem readies_parseUnit (hfile : file ∉ s.inProgress) (hu : s.unit? file = some u)
    (hn : u.state.isBound = false) (content : String) :
    s.Readies file (s.parseUnit file content) where
  notBegun := hfile
  furthers := furthers_parseUnit (not_isBound_of_state (by rw [hu, Option.map_some]) hn) content
  unit := ⟨_, unit?_parseUnit hu content, rfl, fun _ => SourceUnit.blank_parsed u content _⟩
  others other ho := by
    rw [parseUnit_eq hu]
    exact unit?_modifyUnit_of_ne s file _ ho
  tidy hs := by
    rw [parseUnit_eq hu]
    exact Tidy.modifyUnit (s := s) hs fun v _ => SourceUnit.tidy_parsed v _ _
  files := by
    rw [parseUnit_eq hu]
    rfl

private theorem readies_discard (hfile : file ∉ s.inProgress) (hu : s.unit? file = some u)
    (hstate : u.state = .stale .dependency) :
    s.Readies file (s.modifyUnit file SourceUnit.discardEvaluation) where
  notBegun := hfile
  furthers := furthers_modifyUnit (fun _ => rfl) fun _ => rfl
  unit := by
    refine ⟨u.discardEvaluation, by rw [unit?_modifyUnit_self, hu, Option.map_some], ?_,
      fun hs => ⟨(hs file u hu).stale hstate, rfl⟩⟩
    change u.state.isBound = false
    rw [hstate]
    rfl
  others other ho := unit?_modifyUnit_of_ne s file _ ho
  tidy hs := Tidy.modifyUnit hs fun v hv => (hs file v hv).discardEvaluation
  files := rfl

/-- Nothing is done about a unit that is asked for, and this is the answer: it is being bound, or is not
there, or has no content, or it is bound. -/
inductive Rests (s : Session) (file : FileId) : Bool → Prop
  | begun (h : file ∈ s.inProgress) : Rests s file false
  | gone (h : s.unit? file = none) : Rests s file false
  | unread {u : SourceUnit} (hu : s.unit? file = some u)
    (hstate : u.state = .unseen ∨ u.state = .stale .content) (hc : s.content? file = none) :
    Rests s file false
  | bound {u : SourceUnit} (hfile : file ∉ s.inProgress) (hu : s.unit? file = some u)
    (hb : u.state.isBound = true) : Rests s file true

theorem Rests.ensureBoundBy_eq {answer : Bool} (h : s.Rests file answer) (ensure : Binder) :
    ensureBoundBy ensure s file = (answer, s) := by
  cases h with
  | begun h => exact if_pos (by simpa using h)
  | gone h => simp [ensureBoundBy, h]
  | unread hu hstate hc =>
    rcases hstate with hstate | hstate <;> simp [ensureBoundBy, hu, hstate, hc]
  | @bound u hfile hu hb =>
    cases hstate : u.state with
    | bound => simp [ensureBoundBy, hfile, hu, hstate]
    | evaluated complete => simp [ensureBoundBy, hfile, hu, hstate]
    | unseen => exact nomatch hstate ▸ hb
    | parsed => exact nomatch hstate ▸ hb
    | stale reason => exact nomatch hstate ▸ hb

/-- A unit is left as it is, or it is bound as soon as it is ready, whatever is asked for
meanwhile. -/
theorem ensureBoundBy_cases (s : Session) (file : FileId) :
    (∃ answer, s.Rests file answer) ∨
      ∃ t, s.Readies file t ∧ ∀ ensure, ensureBoundBy ensure s file = bindUnit ensure t file := by
  by_cases hfile : file ∈ s.inProgress
  · exact .inl ⟨false, .begun hfile⟩
  cases hu : s.unit? file with
  | none => exact .inl ⟨false, .gone hu⟩
  | some u =>
    cases hstate : u.state with
    | unseen =>
      cases hc : s.content? file with
      | none => exact .inl ⟨false, .unread hu (.inl hstate) hc⟩
      | some content =>
        exact .inr ⟨_, readies_parseUnit hfile hu (by rw [hstate]; rfl) content,
          fun _ => by simp [ensureBoundBy, hfile, hu, hstate, hc]⟩
    | parsed =>
      exact .inr ⟨s, readies_parsed hfile hu hstate,
        fun _ => by simp [ensureBoundBy, hfile, hu, hstate]⟩
    | bound => exact .inl ⟨true, .bound hfile hu (by rw [hstate]; rfl)⟩
    | evaluated complete => exact .inl ⟨true, .bound hfile hu (by rw [hstate]; rfl)⟩
    | stale reason =>
      cases reason with
      | content =>
        cases hc : s.content? file with
        | none => exact .inl ⟨false, .unread hu (.inr hstate) hc⟩
        | some content =>
          exact .inr ⟨_, readies_parseUnit hfile hu (by rw [hstate]; rfl) content,
            fun _ => by simp [ensureBoundBy, hfile, hu, hstate, hc]⟩
      | dependency =>
        exact .inr ⟨_, readies_discard hfile hu hstate,
          fun _ => by simp [ensureBoundBy, hfile, hu, hstate]⟩

private theorem furthers_ensureBoundBy (he : FurthersOnly ensure) :
    FurthersOnly (ensureBoundBy ensure) := by
  intro s file
  rcases s.ensureBoundBy_cases file with ⟨answer, h⟩ | ⟨t, ht, heq⟩
  · rw [h.ensureBoundBy_eq]
    exact .refl s
  · rw [heq]
    exact ht.furthers.trans
      (furthers_bindUnit he (ht.furthers.inProgress ▸ ht.notBegun) ht.notBound)

theorem furthers_ensureBoundUpTo (n : Nat) : FurthersOnly (ensureBoundUpTo n) := by
  induction n with
  | zero => exact fun s _ => .refl s
  | succ n ih => exact furthers_ensureBoundBy ih

/-- To bind on demand undoes nothing and binds no unit twice. -/
theorem furthers_ensureBound (s : Session) (file : FileId) : s.Furthers (s.ensureBound file).2 :=
  furthers_ensureBoundUpTo _ s file

end LiveCheck.Session

namespace LiveCheck.Session

variable {s t : Session} {file : FileId} {ensure ensure' : Binder} {n : Nat}

/-! ## Where the recursion ends -/

private theorem ensureBoundBy_congr (he : FurthersOnly ensure)
    (heq : ∀ t target, HasRoom n t → ensure t target = ensure' t target)
    (hroom : HasRoom (n + 1) s) : ensureBoundBy ensure s file = ensureBoundBy ensure' s file := by
  rcases s.ensureBoundBy_cases file with ⟨answer, h⟩ | ⟨t, ht, h⟩
  · rw [h.ensureBoundBy_eq, h.ensureBoundBy_eq]
  · rw [h, h]
    have hbegun : HasRoom n (t.binding file) :=
      (ht.furthers.hasRoom hroom).binding (ht.furthers.inProgress ▸ ht.notBegun)
        (ht.unit.elim fun _ hv => Option.isSome_of_eq_some hv.1)
    exact bindUnit_congr (he.kept (t.binding file) file)
      (fun r target hr => heq r target (hr.hasRoom hbegun)) (.refl _)

private theorem iterate_ensureBoundBy (hroom : HasRoom n s) (ensure : Binder) (file : FileId) :
    ensureBoundBy^[n] ensure s file = ensureBoundUpTo n s file := by
  induction n generalizing s file with
  | zero => exact absurd hroom.pos (Nat.lt_irrefl 0)
  | succ n ih =>
    rw [Function.iterate_succ_apply', ensureBoundUpTo_succ]
    exact (ensureBoundBy_congr (furthers_ensureBoundUpTo n) (fun t target ht => (ih ht target).symm)
      hroom).symm

private theorem ensureBoundUpTo_of_hasRoom (hroom : HasRoom n s) (file : FileId) :
    ensureBoundUpTo n s file = s.ensureBound file := by
  rw [ensureBound, ← iterate_ensureBoundBy hroom (ensureBoundUpTo s.bindingDepth),
    ← ensureBoundUpTo_add, Nat.add_comm, ensureBoundUpTo_add,
    iterate_ensureBoundBy s.hasRoom_bindingDepth]

private theorem ensureBound_eq (s : Session) (file : FileId) :
    s.ensureBound file = ensureBoundBy ensureBound s file := by
  have hroom : HasRoom (s.bindingDepth + 1) s := s.hasRoom_bindingDepth.mono (Nat.le_succ _)
  rw [← ensureBoundUpTo_of_hasRoom hroom, ensureBoundUpTo_succ]
  exact ensureBoundBy_congr (furthers_ensureBoundUpTo _)
    (fun t target ht => ensureBoundUpTo_of_hasRoom ht target) hroom

private theorem BindsOnce.le (h : s.BindsOnce t file) :
    t.bindCount file ≤ s.bindCount file + 1 := by
  rcases h with heq | ⟨-, -, -, heq⟩
  · exact Nat.le_of_eq heq |>.trans (Nat.le_succ _)
  · exact Nat.le_of_eq heq

/-- **Binding on demand ends.** Whatever the files, the imports between them and the states of the
units, to bring a unit up to date satisfies the equation of the recursion, and nothing is asked for
more units deep than there are units and files: what stands for such calls makes no difference. The
same units count as being bound behind it as before, and every unit has been bound once more at
most. -/
theorem ensureBound_ends (s : Session) (file : FileId) :
    s.ensureBound file = ensureBoundBy ensureBound s file ∧
      (∀ ensure, ensureBoundBy^[s.bindingDepth] ensure s file = s.ensureBound file) ∧
      (s.ensureBound file).2.inProgress = s.inProgress ∧
      ∀ other, (s.ensureBound file).2.bindCount other ≤ s.bindCount other + 1 := by
  have hfurthers := s.furthers_ensureBound file
  refine ⟨s.ensureBound_eq file, fun ensure => ?_, hfurthers.inProgress, fun other => ?_⟩
  · exact iterate_ensureBoundBy s.hasRoom_bindingDepth ensure file
  · exact (hfurthers.once other).le

end LiveCheck.Session
