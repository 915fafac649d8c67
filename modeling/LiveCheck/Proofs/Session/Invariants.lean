import LiveCheck.Proofs.Consistency
import LiveCheck.Proofs.MirroredImports

/-!
# Invariants of runs

What holds of a new session and is kept by every single step holds of every session that is reached.
That is so of the graph of imports, whose directions mirror each other, and of the imports that were
looked up, which lead to units that have been made.
-/

namespace LiveCheck.Session

variable {P : Session → Prop} {s t : Session} {file : FileId} {slack : Nat} {texts : List String}

/-! ## From steps to runs -/

/-- The property holds of new sessions, and all that can happen to a session keeps it. -/
structure Invariant (P : Session → Prop) : Prop where
  start : ∀ options files hostPaths, P (.new options files hostPaths)
  edit : ∀ texts s t, EditStep texts s t → P s → P t
  write : ∀ (s : Session) files, P s → P { s with files := files }
  clear : ∀ (s : Session), P s → P { s with dirty := [], pendingFull := false }
  reparse : ∀ s t file, ReparseStep s file t → P s → P t
  finish : ∀ s t, FlushEnd s t → P s → P t
  evaluate : ∀ slack s t, s.Indexed → EvalStep slack s t → P s → P t
  check : ∀ s file, P s → P (Query.markChecked file s)
  register : ∀ (s : Session) handles, P s → P { s with handles := handles }

variable (h : Invariant P)

include h

theorem Invariant.reparses {files : List FileId} (hr : Reparses s files t) (hs : P s) : P t := by
  induction hr with
  | nil s => exact hs
  | cons hstep _ ih => exact ih (h.reparse _ _ _ hstep hs)

theorem Invariant.flush (ho : s.Orderly) (hs : P s) : P s.flush := by
  suffices hall : s.flush.Orderly ∧ P s.flush from hall.2
  refine flush_induct (P := fun s => s.Orderly ∧ P s) ho.1 (fun hs => ⟨hs.1, h.clear s hs.2⟩)
    (fun t r file _ hstep ht => ?_) (fun t r hstep ht => ?_) (fun t r _ hend ht => ?_) ⟨ho, hs⟩
  · exact ⟨⟨hstep.tidy ht.1.1, hstep.indexed ht.1.2⟩, h.reparse t r file hstep ht.2⟩
  · exact ⟨⟨hstep.tidy ht.1.1, hstep.indexed ht.1.2⟩,
      h.evaluate 0 t r ht.1.2 (BindStep.evalStep hstep) ht.2⟩
  · exact ⟨⟨hend.tidy ht.1.1, hend.indexed ht.1.2⟩, h.finish t r hend ht.2⟩

theorem Invariant.respected : Query.Respected fun s => s.Orderly ∧ P s where
  flush s hs := ⟨hs.1.flush, h.flush hs.1 hs.2⟩
  evaluate s hs := by
    obtain ⟨slack, hc⟩ := hs.1.1.exists_coherent
    exact ⟨slack, hc, fun t ht => ht.steps.induct (P := fun s => s.Orderly ∧ P s)
      (fun _ _ hstep hs => ⟨hstep.orderly hs.1, h.evaluate slack _ _ hs.1.2 hstep hs.2⟩) hs⟩
  check s file hs hb := ⟨hs.1.markChecked hb, h.check s file hs.2⟩
  register s _ hs := ⟨hs.1, h.register s _ hs.2⟩

private theorem Invariant.apply (hs : s.Orderly ∧ P s) (op : Operation) :
    (s.apply op).Orderly ∧ P (s.apply op) := by
  refine ⟨hs.1.apply op, ?_⟩
  rcases s.apply_cases op with hedits | ⟨files, heq⟩ | heq | ⟨question, heq⟩
  · exact hedits.induct (fun t r hstep => h.edit _ t r hstep) hs.2
  · rw [heq]
    exact h.write s files hs.2
  · rw [heq]
    exact h.flush hs.1 hs.2
  · rw [heq]
    exact (h.respected.asked ⟨hs.1.flush, h.flush hs.1 hs.2⟩ question).2

/-- An invariant holds of every session that is reached. -/
theorem Invariant.reached (hs : s.Reached) : P s := by
  obtain ⟨options, files, hostPaths, ops, rfl⟩ := hs
  exact (after_induct (P := fun s => s.Orderly ∧ P s) (fun _ op hs => h.apply hs op)
    ⟨orderly_new options files hostPaths, h.start options files hostPaths⟩ ops).2

omit h

/-! ## The graph of imports -/

theorem BindStep.mirrored (h : BindStep s t) (hs : s.graph.Mirrored) : t.graph.Mirrored := by
  cases h with
  | resolve importer dotted level =>
    obtain he | ⟨r, entry, rfl | ⟨path, rfl⟩, he⟩ := resolveImport_cases s importer dotted level
    · rwa [he]
    · rw [he]
      exact hs
    · rw [he]
      change (s.unitFor path).2.graph.Mirrored
      rwa [rest_unitFor]
  | parse hu hs' hc =>
    rw [parseUnit_eq hu]
    exact hs
  | discard hu hs' => exact hs
  | begin other => exact hs
  | @bind other u binding targets hu hb => exact hs.update other targets

private theorem EvalStep.mirrored (h : EvalStep slack s t) (hs : s.graph.Mirrored) :
    t.graph.Mirrored := by
  cases h with
  | learn node key hu hb hstamp htype => exact hs
  | quiet h =>
    cases h with
    | bind hstep => exact hstep.mirrored hs
    | enter hu hb => exact hs
    | meet path => rwa [rest_unitFor]
    | link importer target => exact hs.add importer target
    | report other d => exact hs
    | make he hc => exact hs

private theorem mirrored_dropUnit (hs : s.graph.Mirrored) (file : FileId) :
    (s.dropUnit file).graph.Mirrored := by
  cases hu : s.unit? file with
  | none => rwa [dropUnit_of_none hu]
  | some u =>
    rw [dropUnit_of_some hu]
    exact hs.remove file

/-- The two directions of the graph of imports mirror each other in every session. -/
theorem invariant_mirrored : Invariant fun s => s.graph.Mirrored where
  start _ _ _ := ImportGraph.mirrored_empty
  edit _ s t h hs := by
    cases h with
    | meet path => rwa [rest_unitFor]
    | replace other overlay ho =>
      rw [replaced, rest_markContentStale]
      exact hs
    | touch other => rwa [rest_markContentStale]
    | drop other => exact mirrored_dropUnit hs other
    | settle policy roots openFiles pendingFull => exact hs
  write _ _ hs := hs
  clear _ hs := hs
  reparse s t file h hs := by
    cases h with
    | skip hu => exact hs
    | forget hu hc => exact mirrored_dropUnit hs file
    | restore hu hc ht hf => exact hs
    | parse hu hc hn =>
      rw [parseUnit_eq hu]
      exact hs
  finish _ _ h hs := by rwa [h.rest]
  evaluate _ _ _ _ h hs := h.mirrored hs
  check _ _ hs := hs
  register _ _ hs := hs

/-! ## Imports that were looked up -/

/-- All imports that were looked up with success lead to units that have been made. -/
def Catalogued (s : Session) : Prop :=
  ∀ file u, s.unit? file = some u → ∀ key target, u.importCache.lookup key = some (some target) →
    target < s.units.size

private theorem Catalogued.of_units (hs : s.Catalogued) (hsize : s.units.size ≤ t.units.size)
    (h : ∀ file v, t.unit? file = some v → v.importCache = [] ∨
      ∃ u, s.unit? file = some u ∧ v.importCache = u.importCache) : t.Catalogued := by
  intro file v hv key target hlookup
  rcases h file v hv with hempty | ⟨u, hu, hsame⟩
  · rw [hempty] at hlookup
    exact nomatch hlookup
  · exact Nat.lt_of_lt_of_le (hs file u hu key target (hsame ▸ hlookup)) hsize

private theorem Catalogued.modified {f : SourceUnit → SourceUnit} (hs : s.Catalogued)
    (hunits : t.units = (s.modifyUnit file f).units)
    (hf : ∀ u, (f u).importCache = [] ∨ (f u).importCache = u.importCache) : t.Catalogued := by
  refine hs.of_units (by rw [hunits]; simp [modifyUnit]) fun other v hv => ?_
  rw [unit?, hunits] at hv
  obtain ⟨u, hu, ⟨rfl, rfl⟩ | ⟨-, rfl⟩⟩ := unit?_modifyUnit_eq_some (s := s) hv
  · exact (hf u).imp_right fun h => ⟨u, hu, h⟩
  · exact .inr ⟨v, hu, rfl⟩

private theorem Catalogued.unitFor (hs : s.Catalogued) (path : String) :
    (s.unitFor path).2.Catalogued := by
  refine hs.of_units (continues_unitFor s path).size fun file v hv => ?_
  rw [unit?_unitFor] at hv
  split at hv
  · obtain rfl := Option.some.inj hv
    exact .inl rfl
  · exact .inr ⟨v, hv, rfl⟩

private theorem lt_size_unitFor (hd : s.Indexed) (path : String) :
    (s.unitFor path).1 < (s.unitFor path).2.units.size := by
  cases hfind : s.find? path with
  | some file =>
    rw [unitFor_of_find? file hfind]
    obtain ⟨u, hu, -⟩ := Option.map_eq_some_iff.mp ((hd path file).mp hfind)
    exact lt_size_of_unit? hu
  | none =>
    rw [unitFor_of_not_find? hfind]
    simp

private theorem Catalogued.resolveImport (hs : s.Catalogued) (hd : s.Indexed) (file : FileId)
    (dotted : String) (level : Nat) : (s.resolveImport file dotted level).2.Catalogued := by
  have hfound (found : Option String) : (s.unitForOption found).2.Catalogued ∧
      ∀ target ∈ (s.unitForOption found).1, target < (s.unitForOption found).2.units.size := by
    cases found with
    | none => exact ⟨hs, nofun⟩
    | some path =>
      refine ⟨hs.unitFor path, fun target h => ?_⟩
      obtain rfl := Option.some.inj h
      exact lt_size_unitFor hd path
  simp only [Session.resolveImport]
  split
  · exact hs
  · next u _ =>
    split
    · exact hs
    · obtain ⟨hmade, htarget⟩ := hfound (s.resolver.resolve? s.pathExists u.path dotted level)
      generalize s.unitForOption _ = made at *
      intro other v hv key target hlookup
      have hsize : (made.2.modifyUnit file fun u => { u with
          importCache := ((dotted, level), made.1) :: u.importCache }).units.size =
            made.2.units.size := by simp [modifyUnit]
      rw [hsize]
      obtain ⟨w, hw, ⟨-, rfl⟩ | ⟨-, rfl⟩⟩ := unit?_modifyUnit_eq_some hv
      · rw [List.lookup_cons] at hlookup
        split at hlookup
        · exact htarget target (Option.some.inj hlookup)
        · exact hmade other w hw key target hlookup
      · exact hmade other v hw key target hlookup

private theorem BindStep.catalogued (h : BindStep s t) (hd : s.Indexed) (hs : s.Catalogued) :
    t.Catalogued := by
  cases h with
  | resolve importer dotted level => exact hs.resolveImport hd importer dotted level
  | parse hu hs' hc =>
    rw [parseUnit_eq hu]
    exact hs.modified rfl fun _ => .inl rfl
  | discard hu hs' => exact hs.modified rfl fun _ => .inl rfl
  | begin other => exact hs
  | bind binding targets hu hb => exact hs.modified rfl fun _ => .inr rfl

theorem EvalStep.catalogued (h : EvalStep slack s t) (hd : s.Indexed) (hs : s.Catalogued) :
    t.Catalogued := by
  cases h with
  | learn node key hu hb hstamp htype => exact hs.modified rfl fun _ => .inr rfl
  | quiet h =>
    cases h with
    | bind hstep => exact hstep.catalogued hd hs
    | enter hu hb => exact hs.modified rfl fun u => .inr (by rw [u.rest_evaluating])
    | meet path => exact hs.unitFor path
    | link importer target => exact hs
    | report other d => exact hs.modified rfl fun u => .inr (by rw [u.rest_report])
    | make he hc => exact hs

/-- Imports that were looked up lead to units that have been made, in every session. -/
theorem invariant_catalogued : Invariant Catalogued where
  start _ _ _ _ _ hu := nomatch hu
  edit _ s t h hs := by
    refine hs.of_units h.continues.size fun file v hv => ?_
    obtain ⟨u, hu, hc⟩ | ⟨path, -, -, rfl⟩ := h.unit?_cases hv
    · refine .inr ⟨u, hu, ?_⟩
      cases hc <;> rfl
    · exact .inl rfl
  write _ _ hs := hs
  clear _ hs := hs
  reparse s t file h hs := by
    cases h with
    | skip hu => exact hs
    | forget hu hc =>
      refine hs.of_units (continues_dropUnit s file).size fun other v hv => ?_
      exact .inr ⟨v, (unit?_forget_eq_some hv).2, rfl⟩
    | restore hu hc ht hf => exact hs.modified rfl fun _ => .inr rfl
    | parse hu hc hn =>
      rw [parseUnit_eq hu]
      exact hs.modified rfl fun _ => .inl rfl
  finish s t h hs := by
    refine hs.of_units h.continues.size fun file v hv => ?_
    obtain ⟨u, hu, hrest⟩ := h.unit?_rest hv
    exact .inr ⟨u, hu, by rw [hrest]⟩
  evaluate _ _ _ hd h hs := h.catalogued hd hs
  check s file hs := hs.modified rfl fun _ => .inr rfl
  register _ _ hs := hs

end LiveCheck.Session
