import LiveCheck.Proofs.Consistency
import LiveCheck.Proofs.HandleLineage

/-!
# What lasts for a generation

A later session is of the same generation or of a later one. As long as the generation lasts, types
keep their numbers, handles lead to what they were given out for, and the names of a unit that was
bound are not made anew: a flush that finds nothing to parse begins no generation, and a flush that
parses anything does.
-/

namespace LiveCheck

/-- The names of the unit were bound, and they stay until the next generation. -/
structure SourceUnit.Firm (u : SourceUnit) : Prop where
  binding : u.binding.isSome = true
  state : u.state.isBound = true ∨ u.state = .stale .content

namespace Session

variable {s t : Session} {file : FileId} {texts : List String} {slack : Nat}

/-- All that lasts for a generation has lasted. -/
structure Stays (s t : Session) : Prop where
  types : s.types.Extends t.types
  handles : s.handles.entries ⊆ t.handles.entries
  bindings : ∀ file u v, s.unit? file = some u → u.Firm → t.unit? file = some v →
    v.Firm ∧ v.binding = u.binding

/-- The second session comes after the first one. -/
structure Later (s t : Session) : Prop where
  generation : s.generation ≤ t.generation
  continues : s.Continues t
  stays : t.generation = s.generation → s.Stays t

private theorem Later.refl (s : Session) : s.Later s where
  generation := Nat.le_refl _
  continues := .refl s
  stays _ := by
    refine ⟨.refl s.types, List.Subset.refl _, fun file u v hu hfirm hv => ?_⟩
    obtain rfl := Option.some.inj (hu.symm.trans hv)
    exact ⟨hfirm, rfl⟩

theorem Later.trans {r : Session} (h : s.Later t) (h' : t.Later r) : s.Later r where
  generation := Nat.le_trans h.generation h'.generation
  continues := h.continues.trans h'.continues
  stays hg := by
    have hle := h.generation
    have hle' := h'.generation
    have hs := h.stays (by omega)
    have ht := h'.stays (by omega)
    refine ⟨hs.types.trans ht.types, List.Subset.trans hs.handles ht.handles,
      fun file u w hu hfirm hw => ?_⟩
    -- A number that is in use in the last session was in use in between.
    have hlt : file < s.units.size := lt_size_of_unit? hu
    have hpath := h'.continues.path file (Nat.lt_of_lt_of_le hlt h.continues.size) w.path
      (path?_eq_some hw)
    obtain ⟨v, hv, -⟩ := Option.map_eq_some_iff.mp hpath
    obtain ⟨hfirm', hsame⟩ := hs.bindings file u v hu hfirm hv
    obtain ⟨hfirm'', hsame'⟩ := ht.bindings file v w hv hfirm' hw
    exact ⟨hfirm'', hsame'.trans hsame⟩

/-! ## Changes -/

private theorem EditStep.later (h : EditStep texts s t) : s.Later t where
  generation := Nat.le_of_eq (by rw [h.rest])
  continues := h.continues
  stays _ := by
    refine ⟨?_, ?_, fun file u v hu hfirm hv => ?_⟩
    · rw [h.rest]
      exact .refl s.types
    · rw [h.rest]
      exact List.Subset.refl _
    · obtain ⟨w, hw, hc⟩ | ⟨path, hnone, -, -⟩ := h.unit?_cases hv
      · obtain rfl := Option.some.inj (hu.symm.trans hw)
        cases hc with
        | same => exact ⟨hfirm, rfl⟩
        | replace overlay => exact ⟨⟨hfirm.binding, .inr rfl⟩, rfl⟩
        | touch => exact ⟨⟨hfirm.binding, .inr rfl⟩, rfl⟩
      · rw [hu] at hnone
        exact nomatch hnone

private theorem Edits.later (h : Edits texts s t) : s.Later t :=
  h.induct (P := s.Later) (fun _ _ hstep hs => hs.trans hstep.later) (.refl s)

/-! ## Flushes -/

private theorem unit?_reparse_of_nil {scope : InvalidationScope} {files : List FileId}
    (h : (reparse scope s files).1 = []) {v : SourceUnit}
    (hv : (reparse scope s files).2.2.unit? file = some v) :
    ∃ u, s.unit? file = some u ∧ (u.Firm → v.Firm ∧ v.binding = u.binding) := by
  induction files generalizing s scope with
  | nil => exact ⟨v, hv, fun hfirm => ⟨hfirm, rfl⟩⟩
  | cons first files ih =>
    rw [reparse] at h hv
    split at h
    · next hnone =>
      rw [hnone] at hv
      exact ih h hv
    · next w hw =>
      rw [hw] at hv
      dsimp only at hv
      split at h
      · next hc =>
        rw [hc] at hv
        obtain ⟨u, hu, hkeeps⟩ := ih h hv
        exact ⟨u, (unit?_forget_eq_some hu).2, hkeeps⟩
      · next content hc =>
        rw [hc] at hv
        dsimp only at hv
        split at h
        · next hsame =>
          rw [if_pos hsame] at hv
          obtain ⟨u, hu, hkeeps⟩ := ih h hv
          obtain ⟨old, hold, ⟨-, rfl⟩ | ⟨-, rfl⟩⟩ := unit?_modifyUnit_eq_some hu
          · refine ⟨old, hold, fun hfirm => ?_⟩
            exact hkeeps ⟨hfirm.binding, .inl (SourceUnit.isBound_restored hfirm.binding)⟩
          · exact ⟨u, hold, hkeeps⟩
        · exact absurd h (List.cons_ne_nil _ _)

private theorem flush_generation (hs : s.Tidy) (hp : s.hasPendingChanges = true) :
    (s.reparsed.1 = [] ∧ s.flush = s.reparsed.2.2) ∨ s.flush.generation = s.generation + 1 := by
  have hbefore : s.rebound.2.2.generation = s.generation := by
    rw [(binds_rebound hs).rest, (reparses_reparsed s).rest]
  rw [flush_eq hp]
  split
  · next hcalm =>
    have hnil : s.reparsed.1 = [] := by
      simpa using (Bool.and_eq_true_iff.mp hcalm).1
    refine .inl ⟨hnil, ?_⟩
    rw [rebound, hnil]
    rfl
  · refine .inr ?_
    split
    · rw [generation_invalidateAll, nextGeneration, hbefore]
    · rw [rest_invalidateDependents, nextGeneration, hbefore]

theorem later_flush (hs : s.Tidy) : s.Later s.flush := by
  cases hp : s.hasPendingChanges with
  | false =>
    rw [flush_of_not_pending hp]
    exact .refl s
  | true =>
    have hcontinues : s.Continues s.flush := by
      refine flush_induct hs (P := s.Continues) (fun h => ⟨h.size, h.path⟩)
        (fun _ _ _ _ h hr => hr.trans h.continues) (fun _ _ h hr => hr.trans h.continues)
        (fun _ _ _ h hr => hr.trans h.continues) (.refl s)
    rcases flush_generation hs hp with ⟨hnil, hflush⟩ | hnext
    · have hrest := (reparses_reparsed s).rest
      refine ⟨?_, hcontinues, fun _ => ⟨?_, ?_, fun file u v hu hfirm hv => ?_⟩⟩
      · exact Nat.le_of_eq (by rw [hflush, hrest])
      · rw [hflush, hrest]
        exact .refl s.types
      · rw [hflush, hrest]
        exact List.Subset.refl _
      · rw [hflush] at hv
        obtain ⟨w, hw, hkeeps⟩ := unit?_reparse_of_nil hnil hv
        obtain rfl := Option.some.inj (hu.symm.trans hw)
        exact hkeeps hfirm
    · exact ⟨by omega, hcontinues, fun hg => absurd hg (by omega)⟩

/-! ## Questions -/

private theorem Fresh.later_performs (hs : s.Fresh) (h : Performs slack s t) : s.Later t where
  generation := Nat.le_of_eq (by rw [h.steps.rest])
  continues := h.steps.induct (P := s.Continues) (fun _ _ hstep hr => hr.trans hstep.continues)
    (.refl s)
  stays _ := by
    refine ⟨h.steps.extends, ?_, fun file u v hu hfirm hv => ?_⟩
    · rw [h.steps.rest]
      exact List.Subset.refl _
    · have hbound : u.state.isBound = true :=
        hfirm.state.resolve_right fun hc => hs.not_isChanged file ⟨u, hu, hc⟩
      obtain ⟨w, hw, hstays⟩ := h.completes.bound file u hu hbound
      obtain rfl := Option.some.inj (hv.symm.trans hw)
      exact ⟨⟨hstays.binding ▸ hfirm.binding, .inl hstays.isBound⟩, hstays.binding⟩

private theorem later_markChecked (hb : s.IsBound file) : s.Later (Query.markChecked file s) where
  generation := Nat.le_refl _
  continues := continues_modified rfl fun _ _ => rfl
  stays _ := by
    refine ⟨.refl s.types, List.Subset.refl _, fun other u v hu hfirm hv => ?_⟩
    obtain ⟨w, hw, -, hbinding, hstate⟩ := unit?_markChecked hv hb
    obtain rfl := Option.some.inj (hu.symm.trans hw)
    refine ⟨⟨hbinding ▸ hfirm.binding, ?_⟩, hbinding⟩
    rcases hstate with hstate | ⟨-, hstate⟩ <;> rw [hstate]
    · exact hfirm.state
    · exact .inl rfl

private theorem entries_subset_register (r : HandleRegistry) (target : HandleTarget) :
    r.entries ⊆ (r.register target).2.entries := by
  unfold HandleRegistry.register
  split
  · exact List.Subset.refl _
  · split
    · exact List.Subset.refl _
    · exact List.subset_append_left _ _

private theorem later_register (s : Session) (target : HandleTarget) :
    s.Later { s with handles := (s.handles.register target).2 } where
  generation := Nat.le_refl _
  continues := ⟨Nat.le_refl _, fun _ _ _ h => h⟩
  stays _ := ⟨.refl s.types, entries_subset_register s.handles target,
    ((Later.refl s).stays rfl).bindings⟩

private theorem respected_later (s : Session) : Query.Respected fun t => t.Fresh ∧ s.Later t where
  flush t ht := ⟨ht.1.1.flush, ht.2.trans (later_flush ht.1.1.orderly.1)⟩
  evaluate t ht := by
    obtain ⟨slack, hc, hkeeps⟩ := respected_fresh.evaluate t ht.1
    exact ⟨slack, hc, fun r hr => ⟨hkeeps r hr, ht.2.trans (ht.1.later_performs hr)⟩⟩
  check t file ht hb := ⟨respected_fresh.check t file ht.1 hb, ht.2.trans (later_markChecked hb)⟩
  register t target ht :=
    ⟨respected_fresh.register t target ht.1, ht.2.trans (later_register t target)⟩

/-! ## Every run -/

theorem Maintained.later_apply (hs : s.Maintained) (op : Operation) : s.Later (s.apply op) := by
  rcases s.apply_cases op with h | ⟨files, h⟩ | h | ⟨question, h⟩
  · exact h.later
  · rw [h]
    have hsame := Later.refl s
    have hstays := hsame.stays rfl
    exact ⟨hsame.generation, ⟨hsame.continues.size, hsame.continues.path⟩,
      fun _ => { hstays with }⟩
  · rw [h]
    exact later_flush hs.orderly.1
  · rw [h]
    exact ((respected_later s).asked ⟨hs.flush, later_flush hs.orderly.1⟩ question).2

/-- Whatever happens to a session, the one behind it is a later one. -/
theorem Maintained.later_after (hs : s.Maintained) (ops : List Operation) :
    s.Later (s.after ops) := by
  induction ops generalizing s with
  | nil => exact .refl s
  | cons op ops ih => exact (hs.later_apply op).trans (ih (hs.apply op))

/-! ## Registries -/

/-- The registry is well-formed and gives out handles for the current generation. -/
def Registers (s : Session) : Prop := s.handles.WF ∧ s.Issuing

private theorem Registers.ofHandles (hs : s.Registers) (hh : t.handles = s.handles)
    (hg : t.generation = s.generation) : t.Registers := by
  refine ⟨hh ▸ hs.1, ?_⟩
  rw [Issuing, hh, hg]
  exact hs.2

private theorem FlushEnd.registers (h : FlushEnd s t) (hs : s.Registers) : t.Registers := by
  refine ⟨?_, h.issuing hs.2⟩
  cases h with
  | calm => exact hs.1
  | full rebuilt =>
    simp only [invalidateAll]
    rw [rest_markAll]
    exact HandleRegistry.wf_new _ _
  | dependents rebuilt affected =>
    rw [rest_invalidateDependents]
    exact HandleRegistry.wf_new _ _

private theorem Registers.flush (ht : s.Tidy) (hs : s.Registers) : s.flush.Registers := by
  refine flush_induct ht (fun h => h) (fun _ _ _ _ h hr => ?_) (fun _ _ h hr => ?_)
    (fun _ _ _ h => h.registers) hs
  · exact hr.ofHandles (by rw [h.rest]) (by rw [h.rest])
  · exact hr.ofHandles (by rw [h.rest]) (by rw [h.rest])

private theorem respected_registers : Query.Respected fun s => s.Tidy ∧ s.Registers where
  flush _ hs := ⟨hs.1.flush, hs.2.flush hs.1⟩
  evaluate s hs := by
    obtain ⟨slack, hc⟩ := hs.1.exists_coherent
    refine ⟨slack, hc, fun t ht => ⟨(ht.steps.coherent hc).tidy, ?_⟩⟩
    exact hs.2.ofHandles (by rw [ht.steps.rest]) (by rw [ht.steps.rest])
  check s file hs hb := ⟨hs.1.markChecked hb, hs.2⟩
  register s target hs :=
    ⟨hs.1, HandleRegistry.wf_register hs.2.1 target, issuing_register hs.2.2 target⟩

private theorem Registers.apply (ht : s.Tidy) (hs : s.Registers) (op : Operation) :
    (s.apply op).Registers := by
  rcases s.apply_cases op with h | ⟨files, h⟩ | h | ⟨question, h⟩
  · exact h.induct (fun _ _ hstep hr => hr.ofHandles (by rw [hstep.rest]) (by rw [hstep.rest])) hs
  · rw [h]
    exact hs
  · rw [h]
    exact hs.flush ht
  · rw [h]
    exact (respected_registers.asked ⟨ht.flush, hs.flush ht⟩ question).2

private theorem registers_after (options : Options) (files : FileStore) (hostPaths : List String)
    (ops : List Operation) : ((Session.new options files hostPaths).after ops).Registers := by
  have hstart : (Session.new options files hostPaths).Registers :=
    ⟨HandleRegistry.wf_new _ _, rfl, rfl⟩
  exact (after_induct (P := fun s => s.Orderly ∧ s.Registers)
    (fun _ op hs => ⟨hs.1.apply op, hs.2.apply hs.1.1 op⟩)
    ⟨orderly_new options files hostPaths, hstart⟩ ops).2

theorem Reached.registers (hs : s.Reached) : s.Registers := by
  obtain ⟨options, files, hostPaths, ops, rfl⟩ := hs
  exact registers_after options files hostPaths ops

/-- A handle that was given out leads nowhere in a later generation, and in the same one to what it
was given out for. -/
theorem Registers.target?_of_later (hs : s.Registers) (ht : t.Registers) (hlater : s.Later t)
    {handle : Handle} {target other : HandleTarget} (hmem : (handle, target) ∈ s.handles.entries)
    (hfound : t.handles.target? handle.text = some other) :
    other = target ∧ t.generation = s.generation := by
  obtain ⟨same, htext, hother⟩ := (HandleRegistry.target?_eq_some_iff ht.1).mp hfound
  obtain rfl := Handle.text_injective htext
  have hgeneration : t.generation = s.generation := by
    rw [← hs.2.2, ← ht.2.2, ← (hs.1.handle _ hmem).1, ← (ht.1.handle _ hother).1]
  have hstill := (hlater.stays hgeneration).handles hmem
  have hsame := (HandleRegistry.target?_eq_some_iff ht.1).mpr ⟨same, rfl, hstill⟩
  exact ⟨Option.some.inj (hfound.symm.trans hsame), hgeneration⟩

end Session

/-- A handle that a registry gives for a target is that of an entry. -/
theorem HandleRegistry.mem_register {r : HandleRegistry} (hr : r.WF) {target : HandleTarget}
    {text : String} (h : (r.register target).1 = some text) :
    ∃ handle, handle.text = text ∧ (handle, target) ∈ (r.register target).2.entries := by
  cases hlive : r.retired with
  | true =>
    rw [register_of_retired hlive] at h
    exact nomatch h
  | false =>
    by_cases hmem : ∃ handle, (handle, target) ∈ r.entries
    · obtain ⟨handle, hmem⟩ := hmem
      rw [register_of_mem hr hmem] at h ⊢
      exact ⟨handle, Option.some.inj h, hmem⟩
    · have hnot : ∀ handle, (handle, target) ∉ r.entries := fun handle h => hmem ⟨handle, h⟩
      rw [register_of_not_mem hlive hnot] at h ⊢
      exact ⟨_, Option.some.inj h, List.mem_append_right _ List.mem_cons_self⟩

end LiveCheck
