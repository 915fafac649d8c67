import LiveCheck.Proofs.Session.Runs

/-!
# Flushing settles a session

Behind a flush nothing is pending, and another flush changes nothing, unless the content of a
changed unit has vanished: such a unit is forgotten in the middle of the flush, which leaves a mark
for the next one.
-/

namespace LiveCheck.Session

variable {s t : Session} {file : FileId}

/-- There is a unit, but it has no content any more. -/
def Vanished (s : Session) (file : FileId) : Prop :=
  (s.unit? file).isSome = true ∧ s.content? file = none

instance (s : Session) (file : FileId) : Decidable (s.Vanished file) :=
  inferInstanceAs (Decidable (_ ∧ _))

/-! ## What the changed units leave behind -/

private theorem ReparseStep.vanished_of_ne (h : ReparseStep s file t) {other : FileId}
    (hne : other ≠ file) : t.Vanished other ↔ s.Vanished other := by
  have hcontent : t.content? other = s.content? other := by
    rw [content?, content?, h.unit?_of_ne hne, h.files]
  rw [Vanished, Vanished, h.unit?_of_ne hne, hcontent]

private theorem ReparseStep.not_vanished (h : ReparseStep s file t) : ¬ t.Vanished file := by
  intro hv
  cases h with
  | skip hu => simp [Vanished, hu] at hv
  | forget hu hc => simp [Vanished, unit?_forget] at hv
  | @restore u content hu hc ht hf =>
    have hcontent := content?_congr (t := s.modifyUnit file SourceUnit.restored) hu
      (v := u.restored) (by rw [unit?_modifyUnit_self, hu]; rfl) rfl rfl rfl
    rw [Vanished, hcontent, hc] at hv
    exact nomatch hv.2
  | @parse u content hu hc hn =>
    have hcontent := content?_congr hu (unit?_parseUnit hu content) rfl rfl
      (ReparseStep.parse hu hc hn).files
    rw [Vanished, hcontent, hc] at hv
    exact nomatch hv.2

private theorem ReparseStep.pendingFull (h : ReparseStep s file t) :
    t.pendingFull = true ↔ s.pendingFull = true ∨ s.Vanished file := by
  cases h with
  | skip hu => simp [Vanished, hu]
  | forget hu hc =>
    have hv : s.Vanished file := ⟨by rw [hu]; rfl, hc⟩
    exact ⟨fun _ => .inr hv, fun _ => rfl⟩
  | restore hu hc ht hf =>
    have hv : ¬ s.Vanished file := fun hv => by simp [Vanished, hc] at hv
    simp [hv, modifyUnit]
  | parse hu hc hn =>
    have hv : ¬ s.Vanished file := fun hv => by simp [Vanished, hc] at hv
    rw [parseUnit_eq hu]
    simp [hv, modifyUnit]

private theorem Reparses.pendingFull {files : List FileId} (h : Reparses s files t) :
    t.pendingFull = true ↔ s.pendingFull = true ∨ ∃ file ∈ files, s.Vanished file := by
  induction h with
  | nil s => simp
  | @cons s t r file files hstep _ ih =>
    rw [ih, hstep.pendingFull]
    constructor
    · rintro ((hp | hv) | ⟨other, hmem, hv⟩)
      · exact .inl hp
      · exact .inr ⟨file, by simp, hv⟩
      · by_cases hne : other = file
        · exact absurd (hne ▸ hv) hstep.not_vanished
        · exact .inr ⟨other, by simp [hmem], (hstep.vanished_of_ne hne).mp hv⟩
    · rintro (hp | ⟨other, hmem, hv⟩)
      · exact .inl (.inl hp)
      · by_cases hne : other = file
        · exact .inl (.inr (hne ▸ hv))
        · have hmem : other ∈ files := (List.mem_cons.mp hmem).resolve_left hne
          exact .inr ⟨other, hmem, (hstep.vanished_of_ne hne).mpr hv⟩

/-! ## Behind a flush -/

private theorem pendingFull_flush (hs : s.Tidy) :
    s.flush.pendingFull = true ↔ ∃ file ∈ s.dirty, s.Vanished file := by
  cases hp : s.hasPendingChanges with
  | false =>
    obtain ⟨hfull, hdirty⟩ := Bool.or_eq_false_iff.mp hp
    have hdirty : s.dirty = [] := by simpa using hdirty
    rw [flush_of_not_pending hp, hfull, hdirty]
    simp
  | true =>
    obtain ⟨t, r, hrep, hb, he, -⟩ := flush_cases hs hp
    have hr : s.flush.pendingFull = t.pendingFull := by rw [he.rest, hb.rest]
    rw [hr, hrep.pendingFull]
    exact or_iff_right nofun

private theorem hasPendingChanges_flush (hs : s.Tidy) :
    s.flush.hasPendingChanges = true ↔ ∃ file ∈ s.dirty, s.Vanished file := by
  rw [← pendingFull_flush hs, hasPendingChanges, dirty_flush hs]
  simp

private theorem generation_flush (hs : s.Tidy) (hp : s.pendingFull = true) :
    s.flush.generation = s.generation + 1 := by
  obtain ⟨t, r, hrep, hb, -, hfull⟩ := flush_cases hs (by simp [hasPendingChanges, hp])
  obtain ⟨rebuilt, heq⟩ := hfull hp
  rw [heq, generation_invalidateAll, nextGeneration, hb.rest, hrep.rest]

private theorem flush_eq_self_iff (hs : s.Tidy) (hd : s.dirty = []) :
    s.flush = s ↔ s.hasPendingChanges = false := by
  constructor
  · intro h
    cases hp : s.pendingFull with
    | false => simp [hasPendingChanges, hp, hd]
    | true =>
      have hg := generation_flush hs hp
      rw [h] at hg
      omega
  · exact flush_of_not_pending

/-- In every run, a flush settles the session, and another one changes nothing, exactly if no
changed unit has lost its content. -/
theorem flush_settles_iff (options : Options) (files : FileStore) (hostPaths : List String)
    (ops : List Operation) :
    let s := (Session.new options files hostPaths).after ops
    (s.flush.hasPendingChanges = false ∧ s.flush.flush = s.flush) ↔
      ∀ file ∈ s.dirty, ¬ s.Vanished file := by
  intro s
  have hs : s.Tidy := (orderly_after options files hostPaths ops).1
  have hpending : s.flush.hasPendingChanges = false ↔ ∀ file ∈ s.dirty, ¬ s.Vanished file := by
    rw [← Bool.not_eq_true, hasPendingChanges_flush hs]
    simp
  rw [flush_eq_self_iff hs.flush (dirty_flush hs), and_self, hpending]

/-- A root that is announced but does not exist is forgotten by the flush, and the next flush
retires all handles and types. -/
theorem flush_leaves_pending :
    let s := (Session.new {} {} []).after [.setRoots ["a.py"], .notify "a.py"]
    s.flush.hasPendingChanges = true ∧ s.flush.generation = 2 ∧ s.flush.flush.generation = 3 := by
  decide +kernel

end LiveCheck.Session
