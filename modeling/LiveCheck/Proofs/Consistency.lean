import LiveCheck.Proofs.Session.Reachability
import LiveCheck.Proofs.Session.Upkeep

/-!
# Sessions are consistent

Behind every operation of every run, paths and units lead to each other, a number once given to a
unit is given to no other, the units that wait are exactly the changed ones, nothing is half done,
the chosen and the opened files are units, and handles are given out for the current generation.
-/

namespace LiveCheck.Session

variable {s t : Session} {file : FileId} {texts : List String} {slack : Nat}

/-! ## Numbers are not given twice -/

/-- A number that was in use in an earlier session belongs to the same path as then, or to no unit
any more. -/
structure Continues (s t : Session) : Prop where
  size : s.units.size ≤ t.units.size
  path : ∀ file < s.units.size, ∀ path, t.path? file = some path → s.path? file = some path

theorem Continues.refl (s : Session) : s.Continues s := ⟨Nat.le_refl _, fun _ _ _ h => h⟩

theorem Continues.trans {r : Session} (h : s.Continues t) (h' : t.Continues r) : s.Continues r where
  size := Nat.le_trans h.size h'.size
  path file hlt path hp := h.path file hlt path (h'.path file (Nat.lt_of_lt_of_le hlt h.size) path hp)

/-- Changing a unit in place, and whatever else but units, gives no numbers away. -/
theorem continues_modified {f : SourceUnit → SourceUnit}
    (hunits : t.units = (s.modifyUnit file f).units)
    (hf : ∀ u, s.unit? file = some u → (f u).path = u.path) : s.Continues t := by
  refine ⟨?_, fun other _ path hp => ?_⟩
  · rw [hunits]
    simp [modifyUnit]
  · rwa [← path?_modifyUnit s file other f hf, path?, unit?, ← hunits]

theorem continues_unitFor (s : Session) (path : String) : s.Continues (s.unitFor path).2 := by
  constructor
  · cases h : s.find? path with
    | some file => simp [unitFor_of_find? file h]
    | none =>
      rw [unitFor_of_not_find? h]
      simp
  · intro file hlt other hp
    have hne : file ≠ s.units.size := Nat.ne_of_lt hlt
    rw [path?, unit?_unitFor, if_neg fun h => hne h.2] at hp
    exact hp

theorem continues_dropUnit (s : Session) (file : FileId) : s.Continues (s.dropUnit file) := by
  constructor
  · cases hu : s.unit? file with
    | none => simp [dropUnit_of_none hu]
    | some u =>
      rw [dropUnit_of_some hu]
      simp
  · intro other _ path hp
    rw [path?, unit?_dropUnit] at hp
    split at hp
    · exact absurd hp.symm (Option.some_ne_none path)
    · exact hp

theorem BindStep.continues (h : BindStep s t) : s.Continues t := by
  cases h with
  | resolve importer dotted level =>
    obtain he | ⟨r, entry, hr, he⟩ := resolveImport_cases s importer dotted level
    · rw [he]
      exact .refl s
    · have hmeet : s.Continues r := by
        rcases hr with rfl | ⟨path, rfl⟩
        · exact .refl r
        · exact continues_unitFor s path
      rw [he]
      exact hmeet.trans (continues_modified rfl fun _ _ => rfl)
  | parse hu hs hc =>
    rw [parseUnit_eq hu]
    exact continues_modified rfl fun _ _ => rfl
  | discard hu hs => exact continues_modified rfl fun _ _ => rfl
  | begin file => exact ⟨Nat.le_refl _, fun _ _ _ h => h⟩
  | bind binding targets hu hb => exact continues_modified rfl fun _ _ => rfl

theorem EvalStep.continues (h : EvalStep slack s t) : s.Continues t := by
  cases h with
  | quiet h =>
    cases h with
    | bind hb => exact hb.continues
    | enter hu hb => exact continues_modified rfl fun u _ => by rw [u.rest_evaluating]
    | meet path => exact continues_unitFor s path
    | link importer target => exact ⟨Nat.le_refl _, fun _ _ _ h => h⟩
    | report other d => exact continues_modified rfl fun u _ => by rw [u.rest_report]
    | make he hc => exact ⟨Nat.le_refl _, fun _ _ _ h => h⟩
  | learn node key hu hb hs ht => exact continues_modified rfl fun _ _ => rfl

theorem ReparseStep.continues (h : ReparseStep s file t) : s.Continues t := by
  cases h with
  | skip hu => exact .refl s
  | forget hu hc =>
    have hdrop := continues_dropUnit s file
    exact ⟨hdrop.size, hdrop.path⟩
  | restore hu hc ht hf => exact continues_modified rfl fun _ _ => rfl
  | parse hu hc hn =>
    rw [parseUnit_eq hu]
    exact continues_modified rfl fun _ _ => rfl

private theorem size_markAll (s : Session) (files : List FileId) :
    (files.foldl markDependencyStale s).units.size = s.units.size := by
  induction files generalizing s with
  | nil => rfl
  | cons file files ih =>
    rw [List.foldl_cons, ih, markDependencyStale_eq]
    simp [modifyUnit]

private theorem FlushEnd.size (h : FlushEnd s t) : t.units.size = s.units.size := by
  cases h with
  | calm => rfl
  | full rebuilt => exact size_markAll _ _
  | dependents rebuilt affected => exact (Array.size_map ..).trans (size_markAll _ _)

/-- The end of a flush gives no number to another path. -/
theorem FlushEnd.continues (h : FlushEnd s t) : s.Continues t := by
  refine ⟨Nat.le_of_eq h.size.symm, fun file _ path hp => ?_⟩
  obtain ⟨v, hv, rfl⟩ := Option.map_eq_some_iff.mp hp
  obtain ⟨u, hu, hrest⟩ := h.unit?_rest hv
  rw [path?_eq_some hu, hrest]

private theorem continues_markContentStale (s : Session) (file : FileId) :
    s.Continues (s.markContentStale file) := by
  unfold markContentStale
  split
  · dsimp only
    split
    · exact continues_modified rfl fun _ _ => rfl
    · exact continues_modified rfl fun _ _ => rfl
  · exact .refl s

/-- An edit gives no number to another path. -/
theorem EditStep.continues (h : EditStep texts s t) : s.Continues t := by
  cases h with
  | meet path => exact continues_unitFor s path
  | replace other overlay ho =>
    have hreplace : s.Continues
        (s.modifyUnit other fun u => { u with overlay := overlay, version := u.version + 1 }) :=
      continues_modified rfl fun _ _ => rfl
    exact hreplace.trans (continues_markContentStale _ other)
  | touch other => exact continues_markContentStale s other
  | drop other => exact continues_dropUnit s other
  | settle policy roots openFiles pendingFull => exact ⟨Nat.le_refl _, fun _ _ _ h => h⟩

/-! ## Chosen files are units -/

/-- All chosen and all opened files are units. -/
private structure Listed (s : Session) : Prop where
  roots : ∀ file ∈ s.roots, (s.unit? file).isSome = true
  openFiles : ∀ file ∈ s.openFiles, (s.unit? file).isSome = true

private def Retains (s t : Session) : Prop :=
  ∀ file, (s.unit? file).isSome = true → (t.unit? file).isSome = true

private theorem Retains.trans {r : Session} (h : s.Retains t) (h' : t.Retains r) : s.Retains r :=
  fun file hf => h' file (h file hf)

private theorem Listed.retains (hs : s.Listed) (h : s.Retains t) (hroots : t.roots = s.roots)
    (hopen : t.openFiles = s.openFiles) : t.Listed where
  roots file hf := h file (hs.roots file (hroots ▸ hf))
  openFiles file hf := h file (hs.openFiles file (hopen ▸ hf))

private theorem retains_modifyUnit (s : Session) (file : FileId) (f : SourceUnit → SourceUnit) :
    s.Retains (s.modifyUnit file f) := by
  intro other h
  rw [unit?_modifyUnit]
  split
  · rwa [Option.isSome_map]
  · exact h

private theorem retains_unitFor (s : Session) (path : String) : s.Retains (s.unitFor path).2 := by
  intro other h
  rw [unit?_unitFor]
  split
  · rfl
  · exact h

private theorem retains_markContentStale (s : Session) (file : FileId) :
    s.Retains (s.markContentStale file) := by
  intro other h
  rw [unit?_markContentStale]
  split
  · rwa [Option.isSome_map]
  · exact h

private theorem EvalStep.retains (h : EvalStep slack s t) : s.Retains t := by
  intro file hf
  obtain ⟨u, hu⟩ := Option.isSome_iff_exists.mp hf
  obtain ⟨v, hv, -⟩ := h.unit?_of_some hu
  rw [hv]
  rfl

private theorem EvalStep.listed (h : EvalStep slack s t) (hs : s.Listed) : t.Listed :=
  hs.retains h.retains (by rw [h.rest]) (by rw [h.rest])

private theorem Listed.forget (hs : s.Listed) (file : FileId) : (s.forget file).Listed := by
  have hrest : (s.forget file).roots = s.roots.filter (· != file) ∧
      (s.forget file).openFiles = s.openFiles.filter (· != file) := by
    rw [Session.forget, rest_dropUnit]
    exact ⟨rfl, rfl⟩
  refine ⟨fun other h => ?_, fun other h => ?_⟩
  · rw [hrest.1, List.mem_filter] at h
    rw [unit?_forget, if_neg (by simpa using h.2)]
    exact hs.roots other h.1
  · rw [hrest.2, List.mem_filter] at h
    rw [unit?_forget, if_neg (by simpa using h.2)]
    exact hs.openFiles other h.1

private theorem ReparseStep.listed (h : ReparseStep s file t) (hs : s.Listed) : t.Listed := by
  cases h with
  | skip hu => exact hs
  | forget hu hc => exact hs.forget file
  | restore hu hc ht hf => exact hs.retains (retains_modifyUnit s file _) rfl rfl
  | parse hu hc hn =>
    rw [parseUnit_eq hu]
    exact hs.retains (retains_modifyUnit s file _) rfl rfl

private theorem FlushEnd.listed (h : FlushEnd s t) (hs : s.Listed) : t.Listed := by
  refine hs.retains (fun file hf => ?_) (by rw [h.rest]) (by rw [h.rest])
  obtain ⟨u, hu⟩ := Option.isSome_iff_exists.mp hf
  obtain ⟨v, hv, -⟩ := h.unit?_of_some hu
  rw [hv]
  rfl

/-! ## Handles are current -/

/-- Handles are given out, and for the current generation. -/
def Issuing (s : Session) : Prop :=
  s.handles.retired = false ∧ s.handles.generation = s.generation

theorem FlushEnd.issuing (h : FlushEnd s t) (hs : s.Issuing) : t.Issuing := by
  cases h with
  | calm => exact hs
  | full rebuilt =>
    simp only [Issuing, invalidateAll]
    rw [rest_markAll]
    exact ⟨rfl, rfl⟩
  | dependents rebuilt affected =>
    rw [rest_invalidateDependents]
    exact ⟨rfl, rfl⟩

theorem issuing_register (hs : s.Issuing) (target : HandleTarget) :
    ({ s with handles := (s.handles.register target).2 } : Session).Issuing := by
  have hrest : (s.handles.register target).2.retired = s.handles.retired ∧
      (s.handles.register target).2.generation = s.handles.generation := by
    unfold HandleRegistry.register
    split
    · exact ⟨rfl, rfl⟩
    · split
      · exact ⟨rfl, rfl⟩
      · exact ⟨rfl, rfl⟩
  exact ⟨hrest.1.trans hs.1, hrest.2.trans hs.2⟩

/-! ## All of it -/

/-- A session goes on from an earlier one: numbers are not given twice, chosen files are units, and
handles are current. -/
private structure Resumes (origin s : Session) : Prop where
  continues : origin.Continues s
  listed : s.Listed
  issuing : s.Issuing

variable {origin : Session}

private theorem EvalStep.resumes (h : EvalStep slack s t) (hs : origin.Resumes s) :
    origin.Resumes t where
  continues := hs.continues.trans h.continues
  listed := h.listed hs.listed
  issuing := by
    rw [Issuing, h.rest]
    exact hs.issuing

private theorem ReparseStep.resumes (h : ReparseStep s file t) (hs : origin.Resumes s) :
    origin.Resumes t where
  continues := hs.continues.trans h.continues
  listed := h.listed hs.listed
  issuing := by
    rw [Issuing, h.rest]
    exact hs.issuing

private theorem FlushEnd.resumes (h : FlushEnd s t) (hs : origin.Resumes s) : origin.Resumes t where
  continues := hs.continues.trans h.continues
  listed := h.listed hs.listed
  issuing := h.issuing hs.issuing

private theorem Resumes.flush (ht : s.Tidy) (hs : origin.Resumes s) : origin.Resumes s.flush := by
  refine flush_induct ht ?_ (fun _ _ _ _ h => h.resumes) (fun _ _ h => ?_) (fun _ _ _ h => h.resumes) hs
  · exact fun h => ⟨⟨h.continues.size, h.continues.path⟩, ⟨h.listed.roots, h.listed.openFiles⟩,
      h.issuing⟩
  · exact (BindStep.evalStep h : EvalStep 0 _ _).resumes

private theorem respected_resumes (origin : Session) :
    Query.Respected fun s => s.Orderly ∧ origin.Resumes s where
  flush _ hs := ⟨hs.1.flush, hs.2.flush hs.1.1⟩
  evaluate s hs := by
    obtain ⟨slack, hc⟩ := hs.1.1.exists_coherent
    refine ⟨slack, hc, fun t ht => ⟨?_, ?_⟩⟩
    · exact ht.steps.induct (fun _ _ h => h.orderly) hs.1
    · exact ht.steps.induct (fun _ _ h => h.resumes) hs.2
  check s file hs hb := by
    refine ⟨hs.1.markChecked hb, ?_, ?_, hs.2.issuing⟩
    · exact hs.2.continues.trans (continues_modified rfl fun _ _ => rfl)
    · exact hs.2.listed.retains (retains_modifyUnit s file _) rfl rfl
  register s target hs :=
    ⟨hs.1, ⟨hs.2.continues.size, hs.2.continues.path⟩,
      ⟨hs.2.listed.roots, hs.2.listed.openFiles⟩, issuing_register hs.2.issuing target⟩

/-! ## Changes -/

private theorem Edits.continues (h : Edits texts s t) : s.Continues t :=
  h.induct (P := s.Continues) (fun _ _ hstep hs => hs.trans hstep.continues) (.refl s)

private theorem Edits.issuing (h : Edits texts s t) (hs : s.Issuing) : t.Issuing := by
  refine h.induct (fun _ _ hstep hr => ?_) hs
  rw [Issuing, hstep.rest]
  exact hr

private theorem unit?_isSome_of_path? {path : String} (h : s.path? file = some path) :
    (s.unit? file).isSome = true := by
  obtain ⟨u, hu, -⟩ := Option.map_eq_some_iff.mp h
  rw [hu]
  rfl

private theorem isSome_unitFor (hs : s.Indexed) (path : String) :
    ((s.unitFor path).2.unit? (s.unitFor path).1).isSome = true := by
  cases h : s.find? path with
  | some file =>
    rw [unitFor_of_find? file h]
    exact unit?_isSome_of_path? ((hs path file).mp h)
  | none =>
    rw [unit?_unitFor, unitFor_of_not_find? h]
    simp [h]

section

variable (hs : s.Listed)
include hs

private theorem Listed.replaced (file : FileId) (overlay : Option String) :
    (s.replaced file overlay).Listed := by
  have hretains : s.Retains (s.replaced file overlay) :=
    (retains_modifyUnit s file _).trans (retains_markContentStale _ file)
  refine hs.retains hretains ?_ ?_
  all_goals
    rw [Session.replaced, rest_markContentStale]
    rfl

private theorem Listed.unitFor (path : String) : (s.unitFor path).2.Listed :=
  hs.retains (retains_unitFor s path) (by rw [rest_unitFor]) (by rw [rest_unitFor])

private theorem Listed.update (hi : s.Indexed) (path content : String) :
    (s.update path content).2.Listed ∧
      ((s.update path content).2.unit? (s.update path content).1).isSome = true := by
  have hmeet := hs.unitFor (Path.normalize path)
  have hsome := isSome_unitFor hi (Path.normalize path)
  simp only [Session.update]
  split
  · have hflag : ({ (s.unitFor (Path.normalize path)).2 with pendingFull := true } :
        Session).Listed := ⟨hmeet.roots, hmeet.openFiles⟩
    refine ⟨hflag.replaced _ (some content), ?_⟩
    exact ((retains_modifyUnit _ _ _).trans (retains_markContentStale _ _)) _ hsome
  · refine ⟨hmeet.replaced _ (some content), ?_⟩
    exact ((retains_modifyUnit _ _ _).trans (retains_markContentStale _ _)) _ hsome

private theorem Listed.openFile (hi : s.Indexed) (path content : String) :
    (s.openFile path content).2.Listed := by
  obtain ⟨hupdate, hsome⟩ := hs.update hi path content
  unfold Session.openFile
  generalize s.update path content = result at hupdate hsome ⊢
  obtain ⟨opened, t⟩ := result
  dsimp only at hupdate hsome ⊢
  split
  · exact hupdate
  · refine ⟨hupdate.roots, fun file hf => ?_⟩
    rcases List.mem_append.mp hf with hf | hf
    · exact hupdate.openFiles file hf
    · rw [List.mem_singleton] at hf
      rw [hf]
      exact hsome

private theorem Listed.closeFile (path : String) : (s.closeFile path).Listed := by
  unfold Session.closeFile
  split
  · next file _ =>
    have hclosed : ({ s with openFiles := s.openFiles.filter (· != file) } : Session).Listed :=
      ⟨hs.roots, fun other h => hs.openFiles other (List.mem_filter.mp h).1⟩
    unfold clearOverlay
    split
    · exact hclosed.replaced file none
    · exact hclosed
  · exact hs

private theorem Listed.notifyChanged (path : String) : (s.notifyChanged path).Listed := by
  unfold Session.notifyChanged
  split
  · next file _ =>
    refine hs.retains (retains_markContentStale s file) ?_ ?_ <;> rw [rest_markContentStale]
  · exact ⟨hs.roots, hs.openFiles⟩

private theorem Listed.removeFile (path : String) : (s.removeFile path).2.Listed := by
  unfold Session.removeFile
  split
  · exact hs.forget _
  · exact hs

private theorem unitsFor_listed (hi : s.Indexed) (paths : List String) :
    (s.unitsFor paths).2.Listed ∧ s.Retains (s.unitsFor paths).2 ∧
      ∀ file ∈ (s.unitsFor paths).1, ((s.unitsFor paths).2.unit? file).isSome = true := by
  induction paths generalizing s with
  | nil => exact ⟨hs, fun _ h => h, nofun⟩
  | cons path paths ih =>
    obtain ⟨hlisted, hretains, hsome⟩ :=
      ih (hs.unitFor (Path.normalize path)) (Indexed.unitFor (Path.normalize path) hi)
    refine ⟨hlisted, (retains_unitFor s _).trans hretains, fun file hf => ?_⟩
    rcases List.mem_cons.mp hf with rfl | hf
    · exact hretains _ (isSome_unitFor hi (Path.normalize path))
    · exact hsome file hf

private theorem Listed.setRoots (hi : s.Indexed) (paths : List String) :
    (s.setRoots paths).2.Listed := by
  obtain ⟨hlisted, -, hsome⟩ := unitsFor_listed hs hi paths
  exact ⟨hsome, hlisted.openFiles⟩

end

theorem unit?_dropUnits (s : Session) (gone : List FileId) (file : FileId) :
    (gone.foldl dropUnit s).unit? file = if file ∈ gone then none else s.unit? file := by
  induction gone generalizing s with
  | nil => simp
  | cons other gone ih =>
    rw [List.foldl_cons, ih, unit?_dropUnit]
    by_cases h : file = other <;> simp [h]

private theorem rest_dropUnits (s : Session) (gone : List FileId) :
    (gone.foldl dropUnit s).roots = s.roots ∧ (gone.foldl dropUnit s).openFiles = s.openFiles := by
  induction gone generalizing s with
  | nil => exact ⟨rfl, rfl⟩
  | cons other gone ih =>
    rw [List.foldl_cons, (ih _).1, (ih _).2, rest_dropUnit]
    exact ⟨rfl, rfl⟩

private theorem Listed.collectGarbage (hs : s.Listed) : s.collectGarbage.2.Listed := by
  let gone := s.ids.filter (!(s.graph.reachable (s.roots ++ s.openFiles)).contains ·)
  have hkept (file : FileId) (h : file ∈ s.roots ++ s.openFiles) : file ∉ gone := by
    have hreached := s.graph.mem_reachable h
    simp [gone, hreached]
  have hunit (file : FileId) (h : file ∈ s.roots ++ s.openFiles) :
      s.collectGarbage.2.unit? file = s.unit? file := by
    change (gone.foldl dropUnit s).unit? file = s.unit? file
    rw [unit?_dropUnits, if_neg (hkept file h)]
  obtain ⟨hroots, hopen⟩ := rest_dropUnits s gone
  refine ⟨fun file hf => ?_, fun file hf => ?_⟩
  · have hf : file ∈ s.roots := hroots ▸ hf
    rw [hunit file (List.mem_append_left _ hf)]
    exact hs.roots file hf
  · have hf : file ∈ s.openFiles := hopen ▸ hf
    rw [hunit file (List.mem_append_right _ hf)]
    exact hs.openFiles file hf

/-! ## Every run -/

private theorem Resumes.edits (hs : origin.Resumes s) (texts : List String) (h : Edits texts s t)
    (ht : t.Listed) : origin.Resumes t :=
  ⟨hs.continues.trans h.continues, ht, h.issuing hs.issuing⟩

private theorem Resumes.settings (hs : origin.Resumes s) (policy : InvalidationMode)
    (files : FileStore) :
    origin.Resumes { s with policy := policy, files := files } :=
  ⟨⟨hs.continues.size, hs.continues.path⟩, ⟨hs.listed.roots, hs.listed.openFiles⟩, hs.issuing⟩

private theorem Resumes.apply (ho : s.Orderly) (hs : origin.Resumes s) (op : Operation) :
    origin.Resumes (s.apply op) := by
  cases op with
  | update path content =>
    exact hs.edits [content] (edits_update s path List.mem_cons_self)
      (hs.listed.update ho.2 path content).1
  | openFile path content =>
    exact hs.edits [content] (edits_openFile s path List.mem_cons_self)
      (hs.listed.openFile ho.2 path content)
  | closeFile path => exact hs.edits [] (edits_closeFile s path) (hs.listed.closeFile path)
  | notify path => exact hs.edits [] (edits_notifyChanged s path) (hs.listed.notifyChanged path)
  | remove path => exact hs.edits [] (edits_removeFile s path) (hs.listed.removeFile path)
  | setRoots paths => exact hs.edits [] (edits_setRoots s paths) (hs.listed.setRoots ho.2 paths)
  | collectGarbage => exact hs.edits [] (edits_collectGarbage s) hs.listed.collectGarbage
  | setPolicy policy => exact hs.settings policy s.files
  | write path content => exact hs.settings s.policy _
  | delete path => exact hs.settings s.policy _
  | flush => exact hs.flush ho.1
  | ask question =>
    exact ((respected_resumes origin).asked ⟨ho.flush, hs.flush ho.1⟩ question).2

private theorem Resumes.after (ho : s.Orderly) (hs : origin.Resumes s) (ops : List Operation) :
    origin.Resumes (s.after ops) := by
  induction ops generalizing s with
  | nil => exact hs
  | cons op ops ih => exact ih (ho.apply op) (hs.apply ho op)

/-- What holds of a session between two operations. -/
structure Consistent (s : Session) : Prop where
  /-- Paths and units lead to each other. -/
  paths : ∀ path file, s.find? path = some file ↔ s.path? file = some path
  /-- No unit waits twice. -/
  nodup : s.dirty.Nodup
  /-- The units that wait are those whose content changed. -/
  dirty : ∀ file, file ∈ s.dirty ↔ (s.unit? file).map (·.state) = some (.stale .content)
  /-- A unit that was bound, and not changed since, has a tree and a binding. -/
  bound : ∀ file u, s.unit? file = some u →
    u.state = .bound ∨ (∃ complete, u.state = .evaluated complete) ∨ u.state = .stale .dependency →
    u.tree.isSome = true ∧ u.binding.isSome = true
  /-- A unit that was never seen has neither. -/
  unseen : ∀ file u, s.unit? file = some u → u.state = .unseen → u.tree = none ∧ u.binding = none
  /-- No unit is left parsed. -/
  parsed : ∀ file u, s.unit? file = some u → u.state ≠ .parsed
  /-- No unit is being bound. -/
  idle : s.inProgress = []
  /-- All chosen files are units. -/
  roots : ∀ file ∈ s.roots, (s.unit? file).isSome = true
  /-- All opened files are units. -/
  openFiles : ∀ file ∈ s.openFiles, (s.unit? file).isSome = true
  /-- Handles are given out. -/
  live : s.handles.retired = false
  /-- They are good for the current generation. -/
  current : s.handles.generation = s.generation

private theorem Maintained.consistent (hs : s.Maintained) (hl : s.Listed) (hi : s.Issuing) :
    s.Consistent where
  paths := hs.orderly.2
  nodup := hs.nodup
  dirty file := by
    rw [hs.dirty, Option.map_eq_some_iff]
    exact Iff.rfl
  bound file u hu hstate := by
    have htidy := hs.orderly.1 file u hu
    obtain h | ⟨complete, h⟩ | h := hstate
    · exact htidy.bound (by rw [h]; rfl)
    · exact htidy.bound (by rw [h]; rfl)
    · have htree := htidy.stale h
      exact ⟨htree, ((hs.whole file u hu).derived (by rw [h]; exact nofun)).trans htree⟩
  unseen file u hu := (hs.whole file u hu).unseen
  parsed file u hu := (not_isParsed_iff hu).mp (hs.bound file)
  idle := hs.idle
  roots := hl.roots
  openFiles := hl.openFiles
  live := hi.1
  current := hi.2

private theorem resumes_new (options : Options) (files : FileStore) (hostPaths : List String) :
    (Session.new options files hostPaths).Resumes (Session.new options files hostPaths) where
  continues := .refl _
  listed := ⟨nofun, nofun⟩
  issuing := ⟨rfl, rfl⟩

/-- In every run, the session is consistent behind every operation, and whatever happens later, the
numbers that were in use belong to the paths of then or to no unit. -/
theorem consistent_after (options : Options) (files : FileStore) (hostPaths : List String)
    (ops later : List Operation) :
    let s := (Session.new options files hostPaths).after ops
    s.Consistent ∧ s.Continues (s.after later) := by
  intro s
  have hmaintained : s.Maintained := maintained_after options files hostPaths ops
  have hresumes := (resumes_new options files hostPaths).after
    (orderly_new options files hostPaths) ops
  have hself : s.Resumes s := ⟨.refl s, hresumes.listed, hresumes.issuing⟩
  exact ⟨hmaintained.consistent hresumes.listed hresumes.issuing,
    (hself.after hmaintained.orderly later).continues⟩

end LiveCheck.Session
