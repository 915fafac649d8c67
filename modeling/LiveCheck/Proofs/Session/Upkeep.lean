import LiveCheck.Proofs.Session.Runs

/-!
# The upkeep of units

Between two operations, every unit holds what its state promises: nothing is left half done, and the
units that wait for the next flush are exactly those whose content changed. A flush goes through
these units, binds whatever it has parsed, and leaves none of them waiting; from then on a question
may bind units, but it marks none.
-/

namespace LiveCheck

/-! ## Units -/

namespace SourceUnit

variable {u v : SourceUnit}

/-- A unit that was never seen holds nothing, and unless it has just been parsed, a unit has a
binding if it has a tree. -/
structure Whole (u : SourceUnit) : Prop where
  unseen : u.state = .unseen → u.tree = none ∧ u.binding = none
  derived : u.state ≠ .parsed → u.binding.isSome = u.tree.isSome

private theorem whole_parsed (u : SourceUnit) (content : String) (word : UInt64) :
    (u.parsed content word).Whole := ⟨nofun, fun h => absurd rfl h⟩

private theorem Blank.whole_bound (h : u.Blank) (binding : Binding) (generation : Nat) :
    (u.bound binding generation).Whole := ⟨nofun, fun _ => h.1.symm⟩

private theorem Whole.ofState (h : u.Whole) (hp : u.state ≠ .parsed) (htree : v.tree = u.tree)
    (hbinding : v.binding = u.binding) (hs : v.state = .unseen → u.state = .unseen) : v.Whole where
  unseen hv := by
    rw [htree, hbinding]
    exact h.unseen (hs hv)
  derived _ := by
    rw [htree, hbinding]
    exact h.derived hp

private theorem Whole.ofBound (h : u.Whole) (hb : u.state.isBound = true) (htree : v.tree = u.tree)
    (hbinding : v.binding = u.binding) (hv : v.state.isBound = true) : v.Whole := by
  refine h.ofState (fun hp => ?_) htree hbinding fun hu => ?_
  · rw [hp] at hb
    exact nomatch hb
  · rw [hu] at hv
    exact nomatch hv

private theorem state_outdated (u : SourceUnit) :
    u.outdated.state = u.state ∨ u.outdated.state = .stale .dependency := by
  unfold outdated
  split
  · exact .inl rfl
  · exact .inr rfl

/-- A unit whose content turned out to be the same comes back with its binding. -/
theorem isBound_restored (hb : u.binding.isSome = true) : u.restored.state.isBound = true := by
  have hn : u.binding.isNone = false := by rw [← Option.not_isSome, hb]; rfl
  simp only [restored, hn, Bool.false_eq_true, if_false]
  split <;> rfl

private theorem Whole.isBound_restored (h : u.Whole) (hp : u.state ≠ .parsed)
    (ht : u.tree.isSome = true) : u.restored.state.isBound = true :=
  SourceUnit.isBound_restored ((h.derived hp).trans ht)

private theorem Whole.restored (h : u.Whole) (hp : u.state ≠ .parsed) (ht : u.tree.isSome = true) :
    u.restored.Whole := by
  refine h.ofState hp rfl rfl fun hu => ?_
  have hb := h.isBound_restored hp ht
  rw [hu] at hb
  exact nomatch hb

end SourceUnit

namespace Session

variable {s t : Session} {file other : FileId} {texts : List String} {slack : Nat}
  {files : List FileId}

/-- All units are whole. -/
def Whole (s : Session) : Prop := ∀ file u, s.unit? file = some u → u.Whole

/-- The content of a unit changed, and the unit has not been looked at since. -/
def IsChanged (s : Session) (file : FileId) : Prop :=
  ∃ u, s.unit? file = some u ∧ u.state = .stale .content

theorem not_isParsed_iff {u : SourceUnit} (hu : s.unit? file = some u) :
    ¬ s.IsParsed file ↔ u.state ≠ .parsed := by
  constructor
  · exact fun h hp => h ⟨u, hu, hp⟩
  · rintro h ⟨v, hv, hp⟩
    obtain rfl := Option.some.inj (hv.symm.trans hu)
    exact h hp

/-! ## Evaluations -/

private theorem whole_unseenUnit (s : Session) (path : String) : (s.unseenUnit path).Whole :=
  ⟨fun _ => ⟨rfl, rfl⟩, fun _ => rfl⟩

private theorem EvalChange.whole {u v : SourceUnit} (h : EvalChange s file u v) (hu : u.Whole) :
    v.Whole := by
  cases h with
  | bind h =>
    cases h with
    | cache entries => exact ⟨hu.unseen, hu.derived⟩
    | parse hs hc => exact u.whole_parsed _ _
    | discard hs => exact ⟨hu.unseen, hu.derived⟩
    | bind binding hb => exact hb.whole_bound binding _
  | enter hb =>
    have hrest := u.rest_evaluating s.generation
    exact hu.ofBound hb (by rw [hrest]) (by rw [hrest]) (SourceUnit.isBound_evaluating hb _)
  | report d =>
    rw [u.rest_report]
    exact ⟨hu.unseen, hu.derived⟩
  | learn node key type hb => exact ⟨hu.unseen, hu.derived⟩

theorem EvalStep.whole (h : EvalStep slack s t) (hs : s.Whole) : t.Whole := by
  intro file v hv
  obtain ⟨u, hu, hc⟩ | ⟨path, entries, -, -, rfl⟩ := h.unit?_cases hv
  · exact hc.whole (hs file u hu)
  · exact ⟨fun _ => ⟨rfl, rfl⟩, fun _ => rfl⟩

private theorem EvalChange.state {u v : SourceUnit} (h : EvalChange s file u v)
    (hv : v.state = .stale .content) : u.state = .stale .content := by
  cases h with
  | bind h =>
    cases h with
    | cache entries => exact hv
    | parse hs hc => exact nomatch hv
    | discard hs => exact hv
    | bind binding hb => exact nomatch hv
  | enter hb =>
    have := SourceUnit.isBound_evaluating hb s.generation
    rw [hv] at this
    exact nomatch this
  | report d =>
    rw [u.rest_report] at hv
    exact hv
  | learn node key type hb => exact hv

/-- An evaluation marks no unit. -/
theorem EvalStep.isChanged (h : EvalStep slack s t) (hf : t.IsChanged file) : s.IsChanged file := by
  obtain ⟨v, hv, hstate⟩ := hf
  obtain ⟨u, hu, hc⟩ | ⟨path, entries, -, -, rfl⟩ := h.unit?_cases hv
  · exact ⟨u, hu, hc.state hstate⟩
  · exact nomatch hstate

/-- A step of binding is one of evaluation. -/
theorem BindStep.evalStep (h : BindStep s t) : EvalStep slack s t := .quiet (.bind h)

/-! ## Going through the changed units -/

private theorem ReparseStep.whole (h : ReparseStep s file t) (hs : s.Whole)
    (hp : ¬ s.IsParsed file) :
    t.Whole := by
  intro other v hv
  by_cases hne : other = file
  · subst hne
    cases h with
    | skip hu => exact hs other v hv
    | forget hu hc => exact absurd rfl (unit?_forget_eq_some hv).1
    | restore hu hc ht hf =>
      rw [unit?_modifyUnit_self, hu] at hv
      obtain rfl := Option.some.inj hv
      exact (hs other _ hu).restored ((not_isParsed_iff hu).mp hp) ht
    | parse hu hc hn =>
      rw [unit?_parseUnit hu] at hv
      obtain rfl := Option.some.inj hv
      exact SourceUnit.whole_parsed _ _ _
  · rw [h.unit?_of_ne hne] at hv
    exact hs other v hv

private theorem ReparseStep.isChanged (h : ReparseStep s file t) (hs : s.Whole)
    (hp : ¬ s.IsParsed file)
    (ho : t.IsChanged other) : other ≠ file ∧ s.IsChanged other := by
  obtain ⟨v, hv, hstate⟩ := ho
  by_cases hne : other = file
  · subst hne
    exfalso
    cases h with
    | skip hu =>
      rw [hu] at hv
      exact nomatch hv
    | forget hu hc => exact (unit?_forget_eq_some hv).1 rfl
    | restore hu hc ht hf =>
      rw [unit?_modifyUnit_self, hu] at hv
      obtain rfl := Option.some.inj hv
      have hb := (hs other _ hu).isBound_restored ((not_isParsed_iff hu).mp hp) ht
      rw [hstate] at hb
      exact nomatch hb
    | parse hu hc hn =>
      rw [unit?_parseUnit hu] at hv
      obtain rfl := Option.some.inj hv
      exact nomatch hstate
  · rw [h.unit?_of_ne hne] at hv
    exact ⟨hne, v, hv, hstate⟩

private theorem ReparseStep.not_isParsed (h : ReparseStep s file t) (hnodup : (file :: files).Nodup)
    (hp : ∀ other ∈ file :: files, ¬ s.IsParsed other) :
    ∀ other ∈ files, ¬ t.IsParsed other := by
  intro other hmem hparsed
  have hne : other ≠ file := fun heq => (List.nodup_cons.mp hnodup).1 (heq ▸ hmem)
  obtain ⟨v, hv, hstate⟩ := hparsed
  rw [h.unit?_of_ne hne] at hv
  exact hp other (List.mem_cons_of_mem file hmem) ⟨v, hv, hstate⟩

private theorem Reparses.whole (h : Reparses s files t) (hs : s.Whole) (hnodup : files.Nodup)
    (hp : ∀ file ∈ files, ¬ s.IsParsed file) : t.Whole := by
  induction h with
  | nil s => exact hs
  | @cons s t r file files hstep _ ih =>
    have hwhole := hstep.whole hs (hp file List.mem_cons_self)
    exact ih hwhole (List.nodup_cons.mp hnodup).2 (hstep.not_isParsed hnodup hp)

private theorem Reparses.isChanged (h : Reparses s files t) (hs : s.Whole) (hnodup : files.Nodup)
    (hp : ∀ file ∈ files, ¬ s.IsParsed file) (hf : t.IsChanged file) :
    file ∉ files ∧ s.IsChanged file := by
  induction h with
  | nil s => exact ⟨nofun, hf⟩
  | @cons s t r first files hstep _ ih =>
    have hfirst := hp first List.mem_cons_self
    obtain ⟨hmem, hchanged⟩ := ih (hstep.whole hs hfirst) (List.nodup_cons.mp hnodup).2
      (hstep.not_isParsed hnodup hp) hf
    obtain ⟨hne, hchanged⟩ := hstep.isChanged hs hfirst hchanged
    exact ⟨fun h => (List.mem_cons.mp h).elim hne hmem, hchanged⟩

private theorem reparse_cons (scope : InvalidationScope) (s : Session) (first : FileId)
    (files : List FileId) :
    ∃ scope' t, ReparseStep s first t ∧
      (reparse scope s (first :: files)).2.2 = (reparse scope' t files).2.2 ∧
      ((reparse scope s (first :: files)).1 = (reparse scope' t files).1 ∧
          (¬ s.IsParsed first → s.Whole → ¬ t.IsParsed first) ∨
        ∃ before, (reparse scope s (first :: files)).1 =
          (first, before) :: (reparse scope' t files).1) := by
  rw [reparse]
  split
  · next hu =>
    exact ⟨scope, s, .skip hu, rfl, .inl ⟨rfl, fun h _ => h⟩⟩
  · next u hu =>
    split
    · next hc =>
      refine ⟨.full, s.forget first, .forget hu hc, rfl, .inl ⟨rfl, fun _ _ => ?_⟩⟩
      rintro ⟨v, hv, -⟩
      exact (unit?_forget_eq_some hv).1 rfl
    · next content hc =>
      split
      · next h =>
        obtain ⟨ht, hf⟩ := Bool.and_eq_true_iff.mp h
        refine ⟨scope, _, .restore hu hc ht (by simpa using hf), rfl, .inl ⟨rfl, fun hp hs => ?_⟩⟩
        have hb := (hs first u hu).isBound_restored ((not_isParsed_iff hu).mp hp) ht
        refine IsBound.not_isParsed ⟨u.restored, ?_, hb⟩
        rw [unit?_modifyUnit_self, hu]
        rfl
      · next h =>
        refine ⟨scope, _, .parse hu hc fun hn => h ?_, rfl, .inr ⟨_, rfl⟩⟩
        simp [hn.1, hn.2]

private theorem isParsed_reparse (scope : InvalidationScope) (hs : s.Whole) (hnodup : files.Nodup)
    (hp : ∀ file ∈ files, ¬ s.IsParsed file) (hf : (reparse scope s files).2.2.IsParsed file) :
    s.IsParsed file ∨ file ∈ (reparse scope s files).1.map (·.1) := by
  induction files generalizing scope s with
  | nil => exact .inl hf
  | cons first files ih =>
    have hfirst := hp first List.mem_cons_self
    obtain ⟨scope', t, hstep, hend, hlist⟩ := reparse_cons scope s first files
    rw [hend] at hf
    have hothers (hne : file ≠ first) (h : t.IsParsed file) : s.IsParsed file := by
      obtain ⟨v, hv, hstate⟩ := h
      rw [hstep.unit?_of_ne hne] at hv
      exact ⟨v, hv, hstate⟩
    have hrest := ih scope' (hstep.whole hs hfirst) (List.nodup_cons.mp hnodup).2
      (hstep.not_isParsed hnodup hp) hf
    obtain ⟨hsame, hdone⟩ | ⟨before, hlisted⟩ := hlist
    · rw [hsame]
      refine hrest.imp_left fun h => hothers (fun heq => ?_) h
      exact hdone hfirst hs (heq ▸ h)
    · rw [hlisted, List.map_cons, List.mem_cons]
      by_cases heq : file = first
      · exact .inr (.inl heq)
      · exact hrest.imp (hothers heq) .inr

/-! ## Binding what was parsed again -/

/-- Binding a unit if it is parsed leaves it parsed no more. -/
theorem completes_bindIfParsed (hs : s.Tidy) (hidle : s.inProgress = []) (file : FileId) :
    let t := if (s.unit? file).any (·.state == .parsed) then s.bindParsed file else s
    t.Tidy ∧ s.Completes t ∧ ¬ t.IsParsed file := by
  intro t
  by_cases hp : (s.unit? file).any (·.state == .parsed) = true
  · obtain ⟨u, hu, hstate⟩ := (Option.any_eq_true _ _).mp hp
    have hstate : u.state = .parsed := by simpa using hstate
    obtain ⟨hbinds, hbound⟩ := binds_bindParsed hs hu hstate
    have hn : ¬ s.IsBound file := not_isBound_of_state (by rw [hu, Option.map_some, hstate]) rfl
    simp only [t, if_pos hp]
    exact ⟨hbinds.tidy hs, completes_bindParsed (by simp [hidle]) hn, hbound.not_isParsed⟩
  · simp only [t, if_neg hp]
    refine ⟨hs, .refl s, fun ⟨u, hu, hstate⟩ => hp ?_⟩
    simp [hu, hstate]

private theorem completes_rebind (scope : InvalidationScope) (hs : s.Tidy)
    (hidle : s.inProgress = [])
    (list : List Reparsed) :
    s.Completes (rebind scope s list).2.2 ∧
      ∀ file ∈ list.map (·.1), ¬ (rebind scope s list).2.2.IsParsed file := by
  induction list generalizing scope s with
  | nil => exact ⟨.refl s, nofun⟩
  | cons entry rest ih =>
    obtain ⟨first, before⟩ := entry
    obtain ⟨htidy, hcompletes, hfirst⟩ := completes_bindIfParsed hs hidle first
    simp only [rebind]
    obtain ⟨hrest, hnone⟩ := ih _ htidy (hcompletes.inProgress.trans hidle)
    refine ⟨hcompletes.trans hrest, fun file hmem => ?_⟩
    obtain rfl | hmem := List.mem_cons.mp hmem
    · exact fun h => hfirst (hrest.parsed file h)
    · exact hnone file hmem

/-! ## The whole of a flush -/

private theorem FlushEnd.state {v : SourceUnit} (h : FlushEnd s t) (hv : t.unit? file = some v) :
    ∃ u, s.unit? file = some u ∧ (v.state = u.state ∨ v.state = .stale .dependency) := by
  have hrestamp (generation : Nat) (u : SourceUnit) :
      (restampUnit generation u).state = u.state := by rw [rest_restampUnit]
  obtain ⟨u, hu, rfl | rfl | rfl | rfl⟩ := h.unit?_cases hv
  · exact ⟨v, hu, .inl rfl⟩
  · exact ⟨u, hu, u.state_outdated⟩
  · exact ⟨u, hu, .inl (hrestamp _ u)⟩
  · exact ⟨u, hu, by rw [hrestamp]; exact u.state_outdated⟩

private theorem FlushEnd.isParsed (h : FlushEnd s t) (hf : t.IsParsed file) : s.IsParsed file := by
  obtain ⟨v, hv, hstate⟩ := hf
  obtain ⟨u, hu, hs | hs⟩ := h.state hv
  · exact ⟨u, hu, hs ▸ hstate⟩
  · rw [hs] at hstate
    exact nomatch hstate

private theorem FlushEnd.isChanged (h : FlushEnd s t) (hf : t.IsChanged file) :
    s.IsChanged file := by
  obtain ⟨v, hv, hstate⟩ := hf
  obtain ⟨u, hu, hs | hs⟩ := h.state hv
  · exact ⟨u, hu, hs ▸ hstate⟩
  · rw [hs] at hstate
    exact nomatch hstate

private theorem FlushEnd.whole (h : FlushEnd s t) (hs : s.Whole) (hp : ∀ file, ¬ s.IsParsed file) :
    t.Whole := by
  intro file v hv
  obtain ⟨u, hu, hrest⟩ := h.unit?_rest hv
  obtain ⟨u', hu', hstate⟩ := h.state hv
  obtain rfl := Option.some.inj (hu'.symm.trans hu)
  refine (hs file u' hu).ofState ((not_isParsed_iff hu).mp (hp file)) (by rw [hrest])
    (by rw [hrest]) fun hunseen => ?_
  rcases hstate with hstate | hstate
  · exact hstate ▸ hunseen
  · rw [hstate] at hunseen
    exact nomatch hunseen

/-- Every unit holds what its state promises and is found by its path, nothing is half done, and the
units that wait for the next flush are those that changed. -/
structure Maintained (s : Session) : Prop where
  orderly : s.Orderly
  whole : s.Whole
  bound : ∀ file, ¬ s.IsParsed file
  idle : s.inProgress = []
  nodup : s.dirty.Nodup
  dirty : ∀ file, file ∈ s.dirty ↔ s.IsChanged file

/-- Besides, no unit waits. -/
def Fresh (s : Session) : Prop := s.Maintained ∧ s.dirty = []

/-- Behind the first part of a flush, no unit is changed, and what is parsed is on the list. -/
theorem Maintained.reparsed (hs : s.Maintained) :
    s.reparsed.2.2.Whole ∧ (∀ file, ¬ s.reparsed.2.2.IsChanged file) ∧
      ∀ file, s.reparsed.2.2.IsParsed file → file ∈ s.reparsed.1.map (·.1) := by
  have hrep := reparses_reparsed s
  have hwhole : ({ s with dirty := [], pendingFull := false } : Session).Whole := hs.whole
  have hbound : ∀ file ∈ s.dirty,
      ¬ ({ s with dirty := [], pendingFull := false } : Session).IsParsed file :=
    fun file _ => hs.bound file
  refine ⟨hrep.whole hwhole hs.nodup hbound, fun file h => ?_, fun file h => ?_⟩
  · obtain ⟨hmem, hchanged⟩ := hrep.isChanged hwhole hs.nodup hbound h
    exact hmem ((hs.dirty file).mpr hchanged)
  · exact (isParsed_reparse _ hwhole hs.nodup hbound h).resolve_left (hs.bound file)

private theorem Maintained.rebound (hs : s.Maintained) :
    s.rebound.2.2.Whole ∧ (∀ file, ¬ s.rebound.2.2.IsChanged file) ∧
      (∀ file, ¬ s.rebound.2.2.IsParsed file) ∧ s.rebound.2.2.inProgress = [] := by
  obtain ⟨hwhole, hchanged, hlisted⟩ := hs.reparsed
  have hrep := reparses_reparsed s
  have hbinds := binds_rebound hs.orderly.1
  have hidle : s.reparsed.2.2.inProgress = [] := by
    rw [hrep.rest]
    exact hs.idle
  obtain ⟨hcompletes, hdone⟩ :=
    completes_rebind s.reparsed.2.1 (hrep.tidy hs.orderly.1) hidle s.reparsed.1
  refine ⟨?_, fun file => ?_, fun file h => ?_, hcompletes.inProgress.trans hidle⟩
  · exact hbinds.induct (fun _ _ hstep => (BindStep.evalStep hstep : EvalStep 0 _ _).whole) hwhole
  · refine hbinds.induct (P := fun r => ¬ r.IsChanged file) (fun _ _ hstep hr h => ?_) (hchanged file)
    exact hr ((BindStep.evalStep hstep : EvalStep 0 _ _).isChanged h)
  · exact hdone file (hlisted file (hcompletes.parsed file h)) h

private theorem fresh_of_not_isChanged (ho : s.Orderly) (hw : s.Whole)
    (hp : ∀ file, ¬ s.IsParsed file)
    (hi : s.inProgress = []) (hd : s.dirty = []) (hc : ∀ file, ¬ s.IsChanged file) : s.Fresh := by
  refine ⟨⟨ho, hw, hp, hi, ?_, fun file => ?_⟩, hd⟩
  · rw [hd]
    exact List.nodup_nil
  · rw [hd]
    exact iff_of_false nofun (hc file)

/-- Where no unit waits for a flush, none is changed. -/
theorem Fresh.not_isChanged (hs : s.Fresh) (file : FileId) : ¬ s.IsChanged file := by
  rw [← hs.1.dirty, hs.2]
  exact nofun

/-- A flush leaves no unit waiting and nothing half done. -/
theorem Maintained.flush (hs : s.Maintained) : s.flush.Fresh := by
  have hempty := dirty_flush hs.orderly.1
  cases hp : s.hasPendingChanges with
  | false =>
    rw [flush_of_not_pending hp] at hempty ⊢
    exact ⟨hs, hempty⟩
  | true =>
    obtain ⟨hwhole, hchanged, hbound, hidle⟩ := hs.rebound
    have hend := flushEnd_rebound hp
    have hflush : s.flush.inProgress = [] := by
      rw [hend.rest]
      exact hidle
    exact fresh_of_not_isChanged hs.orderly.flush (hend.whole hwhole hbound)
      (fun file h => hbound file (hend.isParsed h)) hflush hempty
      fun file h => hchanged file (hend.isChanged h)

/-! ## Questions -/

/-- An evaluation leaves nothing half done and marks no unit. -/
theorem Fresh.performs (hs : s.Fresh) (h : Performs slack s t) : t.Fresh := by
  have hdirty : t.dirty = [] := by
    rw [h.steps.rest]
    exact hs.2
  refine fresh_of_not_isChanged ?_ ?_ (fun file hp => hs.1.bound file (h.completes.parsed file hp))
    (h.completes.inProgress.trans hs.1.idle) hdirty fun file => ?_
  · exact h.steps.induct (fun _ _ hstep => hstep.orderly) hs.1.orderly
  · exact h.steps.induct (fun _ _ hstep => hstep.whole) hs.1.whole
  · exact h.steps.induct (P := fun r => ¬ r.IsChanged file)
      (fun _ _ hstep hr hc => hr (hstep.isChanged hc)) (hs.not_isChanged file)

theorem unit?_markChecked {v : SourceUnit} (hv : (Query.markChecked file s).unit? other = some v)
    (hb : s.IsBound file) :
    ∃ u, s.unit? other = some u ∧ v.tree = u.tree ∧ v.binding = u.binding ∧
      (v.state = u.state ∨ u.state.isBound = true ∧ v.state = .evaluated true) := by
  obtain ⟨u, hu, ⟨rfl, rfl⟩ | ⟨-, rfl⟩⟩ := unit?_modifyUnit_eq_some (s := s) hv
  · obtain ⟨w, hw, hbound⟩ := hb
    obtain rfl := Option.some.inj (hu.symm.trans hw)
    exact ⟨u, hu, rfl, rfl, .inr ⟨hbound, rfl⟩⟩
  · exact ⟨v, hu, rfl, rfl, .inl rfl⟩

theorem Fresh.markChecked (hs : s.Fresh) (hb : s.IsBound file) :
    (Query.markChecked file s).Fresh := by
  refine fresh_of_not_isChanged (hs.1.orderly.markChecked hb) (fun other v hv => ?_)
    (fun other h => ?_) hs.1.idle hs.2 fun other h => ?_
  · obtain ⟨u, hu, htree, hbinding, hstate | ⟨hbound, hstate⟩⟩ := unit?_markChecked hv hb
    · exact (hs.1.whole other u hu).ofState ((not_isParsed_iff hu).mp (hs.1.bound other)) htree
        hbinding fun h => hstate ▸ h
    · exact (hs.1.whole other u hu).ofBound hbound htree hbinding (by rw [hstate]; rfl)
  · obtain ⟨v, hv, hparsed⟩ := h
    obtain ⟨u, hu, -, -, hstate | ⟨-, hstate⟩⟩ := unit?_markChecked hv hb
    · exact hs.1.bound other ⟨u, hu, hstate ▸ hparsed⟩
    · rw [hstate] at hparsed
      exact nomatch hparsed
  · obtain ⟨v, hv, hchanged⟩ := h
    obtain ⟨u, hu, -, -, hstate | ⟨-, hstate⟩⟩ := unit?_markChecked hv hb
    · exact hs.not_isChanged other ⟨u, hu, hstate ▸ hchanged⟩
    · rw [hstate] at hchanged
      exact nomatch hchanged

/-- Questions leave no unit waiting for a flush. -/
theorem respected_fresh : Query.Respected Fresh where
  flush _ hs := hs.1.flush
  evaluate s hs := by
    obtain ⟨slack, hc⟩ := hs.1.orderly.1.exists_coherent
    exact ⟨slack, hc, fun _ ht => hs.performs ht⟩
  check _ _ hs hb := hs.markChecked hb
  register _ _ hs := ⟨⟨hs.1.orderly, hs.1.whole, hs.1.bound, hs.1.idle, hs.1.nodup, hs.1.dirty⟩, hs.2⟩

/-! ## Changes -/

private theorem EditChange.whole {u v : SourceUnit} (h : EditChange u v) (hu : u.Whole)
    (hp : u.state ≠ .parsed) : v.Whole := by
  cases h with
  | same => exact hu
  | replace overlay => exact hu.ofState hp rfl rfl nofun
  | touch => exact hu.ofState hp rfl rfl nofun

private theorem EditStep.whole (h : EditStep texts s t) (hs : s.Maintained) : t.Whole := by
  intro file v hv
  obtain ⟨u, hu, hc⟩ | ⟨path, -, -, rfl⟩ := h.unit?_cases hv
  · exact hc.whole (hs.whole file u hu) ((not_isParsed_iff hu).mp (hs.bound file))
  · exact whole_unseenUnit s path

private theorem EditStep.not_isParsed (h : EditStep texts s t) (hs : s.Maintained) (file : FileId) :
    ¬ t.IsParsed file := by
  rintro ⟨v, hv, hstate⟩
  obtain ⟨u, hu, hc⟩ | ⟨path, -, -, rfl⟩ := h.unit?_cases hv
  · cases hc with
    | same => exact hs.bound file ⟨v, hu, hstate⟩
    | replace overlay => exact nomatch hstate
    | touch => exact nomatch hstate
  · exact nomatch hstate

private theorem isChanged_markContentStale :
    (s.markContentStale file).IsChanged other ↔
      s.IsChanged other ∨ (other = file ∧ (s.unit? file).isSome = true) := by
  simp only [IsChanged, unit?_markContentStale]
  by_cases h : other = file
  · subst h
    cases hu : s.unit? other <;> simp
  · simp [h]

private theorem nodup_markContentStale (h : s.dirty.Nodup) (file : FileId) :
    (s.markContentStale file).dirty.Nodup := by
  rw [dirty_markContentStale_eq]
  split
  · next hnew => simpa [List.nodup_append] using ⟨h, fun other hmem heq => hnew.2 (heq ▸ hmem)⟩
  · exact h

private theorem mem_dirty_iff_markContentStale (hn : s.dirty.Nodup)
    (hd : ∀ file, file ∈ s.dirty ↔ s.IsChanged file) (file : FileId) :
    (s.markContentStale file).dirty.Nodup ∧
      ∀ other, other ∈ (s.markContentStale file).dirty ↔
        (s.markContentStale file).IsChanged other := by
  refine ⟨nodup_markContentStale hn file, fun other => ?_⟩
  rw [mem_dirty_markContentStale_iff, isChanged_markContentStale, hd]

private theorem isChanged_modifyUnit {f : SourceUnit → SourceUnit}
    (hf : ∀ u, (f u).state = u.state) :
    (s.modifyUnit file f).IsChanged other ↔ s.IsChanged other := by
  simp only [IsChanged, unit?_modifyUnit]
  by_cases h : other = file
  · cases hu : s.unit? other <;> simp [h, hf]
  · simp [h]

private theorem isChanged_unitFor (path : String) :
    (s.unitFor path).2.IsChanged file ↔ s.IsChanged file := by
  simp only [IsChanged, unit?_unitFor]
  by_cases h : s.find? path = none ∧ file = s.units.size
  · have hnone : s.unit? file = none := by rw [h.2, unit?_size]
    simp [h.1, hnone, ← h.2, unseenUnit]
  · simp [h]

private theorem isChanged_dropUnit :
    (s.dropUnit file).IsChanged other ↔ other ≠ file ∧ s.IsChanged other := by
  simp only [IsChanged, unit?_dropUnit]
  by_cases h : other = file <;> simp [h]

private theorem dirty_dropUnit_eq (hs : s.Maintained) (file : FileId) :
    (s.dropUnit file).dirty = s.dirty.filter (· != file) := by
  cases hu : s.unit? file with
  | none =>
    rw [dropUnit_of_none hu, eq_comm, List.filter_eq_self]
    intro other hmem
    obtain ⟨u, hu', -⟩ := (hs.dirty other).mp hmem
    have hne : other ≠ file := fun heq => by
      rw [heq, hu] at hu'
      exact nomatch hu'
    simpa using hne
  | some u => rw [dropUnit_of_some hu]

private theorem EditStep.mem_dirty (h : EditStep texts s t) (hs : s.Maintained) :
    t.dirty.Nodup ∧ ∀ file, file ∈ t.dirty ↔ t.IsChanged file := by
  cases h with
  | meet path =>
    have hdirty : (s.unitFor path).2.dirty = s.dirty := by rw [rest_unitFor]
    rw [hdirty]
    exact ⟨hs.nodup, fun file => (hs.dirty file).trans (isChanged_unitFor path).symm⟩
  | replace other overlay ho =>
    rw [replaced]
    refine mem_dirty_iff_markContentStale ?_ (fun file => ?_) other
    · exact hs.nodup
    · rw [isChanged_modifyUnit fun u => ?_]
      · exact hs.dirty file
      · rfl
  | touch other => exact mem_dirty_iff_markContentStale hs.nodup hs.dirty other
  | drop other =>
    rw [dirty_dropUnit_eq hs]
    refine ⟨hs.nodup.filter _, fun file => ?_⟩
    rw [List.mem_filter, isChanged_dropUnit, hs.dirty, and_comm]
    simp
  | settle policy roots openFiles pendingFull => exact ⟨hs.nodup, hs.dirty⟩

private theorem EditStep.maintained (h : EditStep texts s t) (hs : s.Maintained) :
    t.Maintained where
  orderly := ⟨h.tidy hs.orderly.1, h.indexed hs.orderly.2⟩
  whole := h.whole hs
  bound := h.not_isParsed hs
  idle := by
    rw [h.rest]
    exact hs.idle
  nodup := (h.mem_dirty hs).1
  dirty := (h.mem_dirty hs).2

/-! ## Every run -/

theorem Maintained.apply (hs : s.Maintained) (op : Operation) : (s.apply op).Maintained := by
  rcases s.apply_cases op with h | ⟨files, h⟩ | h | ⟨question, h⟩
  · exact h.induct (fun _ _ hstep => hstep.maintained) hs
  · rw [h]
    exact { hs with }
  · rw [h]
    exact hs.flush.1
  · rw [h]
    exact (respected_fresh.asked hs.flush question).1

theorem maintained_new (options : Options) (files : FileStore) (hostPaths : List String) :
    (Session.new options files hostPaths).Maintained := by
  have hnone (file : FileId) (u : SourceUnit) :
      (Session.new options files hostPaths).unit? file ≠ some u := nofun
  have hfresh : (Session.new options files hostPaths).Fresh :=
    fresh_of_not_isChanged (orderly_new options files hostPaths)
      (fun file u hu => absurd hu (hnone file u)) (fun file ⟨u, hu, _⟩ => hnone file u hu) rfl rfl
      fun file ⟨u, hu, _⟩ => hnone file u hu
  exact hfresh.1

/-- In every run, units are kept up. -/
theorem maintained_after (options : Options) (files : FileStore) (hostPaths : List String)
    (ops : List Operation) : ((Session.new options files hostPaths).after ops).Maintained :=
  after_induct (fun _ op hs => hs.apply op) (maintained_new options files hostPaths) ops

/-- The session is one that a run of operations leads to. -/
def Reached (s : Session) : Prop :=
  ∃ options files hostPaths ops, s = (Session.new options files hostPaths).after ops

theorem Reached.after (hs : s.Reached) (ops : List Operation) : (s.after ops).Reached := by
  obtain ⟨options, files, hostPaths, before, rfl⟩ := hs
  exact ⟨options, files, hostPaths, before ++ ops, List.foldl_append.symm⟩

theorem Reached.apply (hs : s.Reached) (op : Operation) : (s.apply op).Reached := hs.after [op]

/-- Every session of a run is maintained. -/
theorem Reached.maintained (hs : s.Reached) : s.Maintained := by
  obtain ⟨options, files, hostPaths, ops, rfl⟩ := hs
  exact maintained_after options files hostPaths ops

end Session
end LiveCheck
