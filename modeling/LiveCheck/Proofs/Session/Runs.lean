import LiveCheck.Proofs.Session.Questions

/-!
# Runs of a session

A run is a sequence of changes and questions in any order; files may also change behind the back of
the session. Every change is made of a few kinds of steps, and units stay tidy and are found
by their paths in every run.
-/

namespace LiveCheck

/-! ## Operations -/

/-- What can happen to a session. -/
inductive Operation
  | update (path content : String)
  | openFile (path content : String)
  | closeFile (path : String)
  | notify (path : String)
  | remove (path : String)
  | setRoots (paths : List String)
  | collectGarbage
  | setPolicy (policy : InvalidationMode)
  /-- A file gets a content behind the back of the session, or is there without one that can be
  read. -/
  | write (path : String) (content : Option String)
  /-- A file is deleted behind the back of the session. -/
  | delete (path : String)
  | flush
  | ask (question : Question)

/-- The content that an operation brings in. -/
def Operation.content? : Operation → Option String
  | .update _ content | .openFile _ content => some content
  | .write _ content => content
  | _ => none

namespace Session

/-- The session behind an operation. -/
def apply (s : Session) : Operation → Session
  | .update path content => (s.update path content).2
  | .openFile path content => (s.openFile path content).2
  | .closeFile path => s.closeFile path
  | .notify path => s.notifyChanged path
  | .remove path => (s.removeFile path).2
  | .setRoots paths => (s.setRoots paths).2
  | .collectGarbage => s.collectGarbage.2
  | .setPolicy policy => { s with policy := policy }
  | .write path content => { s with files := s.files.put path content }
  | .delete path => { s with files := s.files.delete path }
  | .flush => s.flush
  | .ask question => s.asked question

/-- The session behind some operations. -/
def after (s : Session) (ops : List Operation) : Session := ops.foldl apply s

variable {P : Session → Prop}

/-- A property that every operation keeps is kept by every run. -/
theorem after_induct (hP : ∀ s op, P s → P (s.apply op)) {s : Session} (hs : P s)
    (ops : List Operation) : P (s.after ops) := by
  induction ops generalizing s with
  | nil => exact hs
  | cons op ops ih => exact ih (hP s op hs)

/-! ## Changes in steps -/

/-- Gives a unit another overlay, or none, and marks it. -/
def replaced (s : Session) (file : FileId) (overlay : Option String) : Session :=
  (s.modifyUnit file fun u =>
    { u with overlay := overlay, version := u.version + 1 }).markContentStale file

/-- One step of a change that brings in none but the given texts. -/
inductive EditStep (texts : List String) (s : Session) : Session → Prop
  /-- A file is met. -/
  | meet (path : String) : EditStep texts s (s.unitFor path).2
  /-- The content of a unit is replaced. -/
  | replace (file : FileId) (overlay : Option String) (h : ∀ text ∈ overlay, text ∈ texts) :
    EditStep texts s (s.replaced file overlay)
  /-- A unit is marked. -/
  | touch (file : FileId) : EditStep texts s (s.markContentStale file)
  /-- A unit is taken away. -/
  | drop (file : FileId) : EditStep texts s (s.dropUnit file)
  /-- Settings that do not concern single units are changed. -/
  | settle (policy : InvalidationMode) (roots openFiles : List FileId) (pendingFull : Bool) :
    EditStep texts s { s with
      policy := policy
      roots := roots
      openFiles := openFiles
      pendingFull := pendingFull }

/-- Some steps of a change. -/
abbrev Edits (texts : List String) : Session → Session → Prop :=
  Relation.ReflTransGen (EditStep texts)

variable {texts : List String} {s t : Session} {file other : FileId} {content : String}
  {u v : SourceUnit}

/-- What every edit keeps is kept by all of them. -/
theorem Edits.induct (hP : ∀ s t, EditStep texts s t → P s → P t) (h : Edits texts s t) (hs : P s) :
    P t := by
  induction h with
  | refl => exact hs
  | tail _ hstep ih => exact hP _ _ hstep ih

theorem edits_update (s : Session) (path : String) (hc : content ∈ texts) :
    Edits texts s (s.update path content).2 := by
  have hmeet : EditStep texts s (s.unitFor (Path.normalize path)).2 := .meet _
  have htext : ∀ text ∈ some content, text ∈ texts := fun text h => Option.mem_some.mp h ▸ hc
  simp only [update]
  split
  · exact .tail (.tail (.single hmeet) (.settle _ _ _ true)) (.replace _ (some content) htext)
  · exact .tail (.single hmeet) (.replace _ (some content) htext)

theorem edits_openFile (s : Session) (path : String) (hc : content ∈ texts) :
    Edits texts s (s.openFile path content).2 := by
  have h := edits_update s path hc
  simp only [openFile]
  split
  · exact h
  · exact .tail h (.settle _ _ _ _)

private theorem edits_clearOverlay (s : Session) (file : FileId) :
    Edits texts s (s.clearOverlay file) := by
  unfold clearOverlay
  split
  · exact .single (.replace file none nofun)
  · exact .refl

theorem edits_closeFile (s : Session) (path : String) : Edits texts s (s.closeFile path) := by
  unfold closeFile
  split
  · exact .head (.settle s.policy s.roots _ s.pendingFull) (edits_clearOverlay _ _)
  · exact .refl

theorem edits_notifyChanged (s : Session) (path : String) :
    Edits texts s (s.notifyChanged path) := by
  unfold notifyChanged
  split
  · exact .single (.touch _)
  · exact .single (.settle _ _ _ true)

private theorem edits_forget (s : Session) (file : FileId) : Edits texts s (s.forget file) :=
  .tail (.single (.drop file)) (.settle _ _ _ true)

theorem edits_removeFile (s : Session) (path : String) : Edits texts s (s.removeFile path).2 := by
  unfold removeFile
  split
  · exact edits_forget s _
  · exact .refl

private theorem edits_unitsFor (s : Session) (paths : List String) :
    Edits texts s (s.unitsFor paths).2 := by
  induction paths generalizing s with
  | nil => exact .refl
  | cons path paths ih => exact .head (.meet (Path.normalize path)) (ih _)

theorem edits_setRoots (s : Session) (paths : List String) : Edits texts s (s.setRoots paths).2 :=
  .tail (edits_unitsFor s paths) (.settle _ _ _ _)

private theorem edits_dropUnits (s : Session) (files : List FileId) :
    Edits texts s (files.foldl dropUnit s) := by
  induction files generalizing s with
  | nil => exact .refl
  | cons file files ih => exact .head (.drop file) (ih _)

theorem edits_collectGarbage (s : Session) : Edits texts s s.collectGarbage.2 := edits_dropUnits s _

/-- Every operation is made of steps of a change, alters the files, flushes or asks. -/
theorem apply_cases (s : Session) (op : Operation) :
    Edits op.content?.toList s (s.apply op) ∨ (∃ files, s.apply op = { s with files := files }) ∨
      s.apply op = s.flush ∨ ∃ question, s.apply op = s.asked question := by
  cases op with
  | update path content => exact .inl (edits_update s path List.mem_cons_self)
  | openFile path content => exact .inl (edits_openFile s path List.mem_cons_self)
  | closeFile path => exact .inl (edits_closeFile s path)
  | notify path => exact .inl (edits_notifyChanged s path)
  | remove path => exact .inl (edits_removeFile s path)
  | setRoots paths => exact .inl (edits_setRoots s paths)
  | collectGarbage => exact .inl (edits_collectGarbage s)
  | setPolicy policy => exact .inl (.single (.settle policy s.roots s.openFiles s.pendingFull))
  | write path content => exact .inr (.inl ⟨_, rfl⟩)
  | delete path => exact .inr (.inl ⟨_, rfl⟩)
  | flush => exact .inr (.inr (.inl rfl))
  | ask question => exact .inr (.inr (.inr ⟨question, rfl⟩))

/-! ## What a step of a change does -/

private theorem markContentStale_of_none (h : s.unit? file = none) :
    s.markContentStale file = s := by
  simp [markContentStale, h]

/-- The unit is stale, the others are as they were. -/
theorem unit?_markContentStale (s : Session) (file other : FileId) :
    (s.markContentStale file).unit? other =
      if other = file then (s.unit? other).map fun u => { u with state := .stale .content }
      else s.unit? other := by
  cases h : s.unit? file with
  | none =>
    rw [markContentStale_of_none h]
    split
    · next ho => rw [ho, h, Option.map_none]
    · rfl
  | some u =>
    rw [← unit?_modifyUnit]
    simp only [markContentStale, h, Option.isSome_some, if_true]
    split <;> rfl

theorem dirty_markContentStale_eq (s : Session) (file : FileId) :
    (s.markContentStale file).dirty =
      if (s.unit? file).isSome = true ∧ file ∉ s.dirty then s.dirty ++ [file] else s.dirty := by
  unfold markContentStale
  by_cases hu : (s.unit? file).isSome = true
  · by_cases hmem : file ∈ s.dirty
    · simp [hu, hmem, modifyUnit]
    · simp [hu, hmem, modifyUnit]
  · simp [hu]

/-- A unit that is marked waits for the next flush, and so does every unit that did before. -/
theorem mem_dirty_markContentStale_iff :
    other ∈ (s.markContentStale file).dirty ↔
      other ∈ s.dirty ∨ (other = file ∧ (s.unit? file).isSome = true) := by
  rw [dirty_markContentStale_eq]
  split
  · next h => simp [h.1]
  · next h =>
    refine ⟨.inl, fun hor => hor.elim id fun heq => ?_⟩
    rw [heq.1]
    exact Classical.byContradiction fun hmem => h ⟨heq.2, hmem⟩

private theorem mem_dirty_markContentStale (hu : (s.unit? file).isSome = true) :
    file ∈ (s.markContentStale file).dirty := mem_dirty_markContentStale_iff.mpr (.inr ⟨rfl, hu⟩)

theorem dirty_markContentStale (s : Session) (file : FileId) (h : other ∈ s.dirty) :
    other ∈ (s.markContentStale file).dirty :=
  mem_dirty_markContentStale_iff.mpr (.inl h)

theorem mem_dirty_replaced (hu : s.unit? file = some u) (overlay : Option String) :
    file ∈ (s.replaced file overlay).dirty := by
  refine mem_dirty_markContentStale ?_
  rw [unit?_modifyUnit_self, hu]
  rfl

theorem dirty_replaced (s : Session) (file : FileId) (overlay : Option String) (h : other ∈ s.dirty) :
    other ∈ (s.replaced file overlay).dirty :=
  dirty_markContentStale _ file h

/-- The unit of a path that the session is told of waits for the next flush. -/
theorem mem_dirty_notifyChanged (hd : s.Indexed) {path : String}
    (hv : (s.notifyChanged path).unit? file = some v) (hp : v.path = Path.normalize path) :
    file ∈ (s.notifyChanged path).dirty := by
  have hcases : ∃ u, s.unit? file = some u ∧ u.path = Path.normalize path := by
    unfold notifyChanged at hv
    split at hv
    · rw [unit?_markContentStale] at hv
      split at hv
      · obtain ⟨u, hu, rfl⟩ := Option.map_eq_some_iff.mp hv
        exact ⟨u, hu, hp⟩
      · exact ⟨v, hv, hp⟩
    · exact ⟨v, hv, hp⟩
  obtain ⟨u, hu, hpath⟩ := hcases
  have hfind : s.fileId? path = some file := by
    rw [fileId?, ← hpath]
    exact find?_path hd hu
  simp only [notifyChanged, hfind]
  exact mem_dirty_markContentStale (by rw [hu]; rfl)

theorem dirty_dropUnit (hne : other ≠ file) (h : other ∈ s.dirty) :
    other ∈ (s.dropUnit file).dirty := by
  cases hu : s.unit? file with
  | none => rwa [dropUnit_of_none hu]
  | some u =>
    rw [dropUnit_of_some hu]
    exact List.mem_filter.mpr ⟨h, by simpa using hne⟩

theorem rest_markContentStale (s : Session) (file : FileId) :
    s.markContentStale file =
      { s with
        units := (s.markContentStale file).units
        dirty := (s.markContentStale file).dirty } := by
  unfold markContentStale
  split
  · dsimp only
    split <;> rfl
  · rfl

/-- What a step of a change does to a unit. -/
inductive EditChange (u : SourceUnit) : SourceUnit → Prop
  | same : EditChange u u
  | replace (overlay : Option String) :
    EditChange u { u with
      overlay := overlay
      version := u.version + 1
      state := .stale .content }
  | touch : EditChange u { u with state := .stale .content }

theorem unit?_replaced (s : Session) (file other : FileId) (overlay : Option String) :
    (s.replaced file overlay).unit? other =
      if other = file then (s.unit? other).map fun u =>
        { u with overlay := overlay, version := u.version + 1, state := .stale .content }
      else s.unit? other := by
  rw [replaced, unit?_markContentStale, unit?_modifyUnit]
  split
  · rw [Option.map_map]
    rfl
  · rfl

/-- Every unit after a step of a change is one from before, changed in one of these ways, or a new
one. -/
theorem EditStep.unit?_cases (h : EditStep texts s t) (hv : t.unit? file = some v) :
    (∃ u, s.unit? file = some u ∧ EditChange u v) ∨
    ∃ path, s.unit? file = none ∧ s.find? path = none ∧ v = s.unseenUnit path := by
  cases h with
  | meet path =>
    rw [unit?_unitFor] at hv
    split at hv
    · next hn =>
      obtain rfl := Option.some.inj hv
      exact .inr ⟨path, by rw [hn.2, unit?_size], hn.1, rfl⟩
    · exact .inl ⟨v, hv, .same⟩
  | replace other overlay ho =>
    rw [unit?_replaced] at hv
    split at hv
    · obtain ⟨u, hu, rfl⟩ := Option.map_eq_some_iff.mp hv
      exact .inl ⟨u, hu, .replace overlay⟩
    · exact .inl ⟨v, hv, .same⟩
  | touch other =>
    rw [unit?_markContentStale] at hv
    split at hv
    · obtain ⟨u, hu, rfl⟩ := Option.map_eq_some_iff.mp hv
      exact .inl ⟨u, hu, .touch⟩
    · exact .inl ⟨v, hv, .same⟩
  | drop other =>
    rw [unit?_dropUnit] at hv
    split at hv
    · exact nomatch hv
    · exact .inl ⟨v, hv, .same⟩
  | settle policy roots openFiles pendingFull => exact .inl ⟨v, hv, .same⟩

/-- A change touches neither the types nor the generation nor what was counted so far. -/
theorem EditStep.rest (h : EditStep texts s t) :
    t = { s with
      units := t.units
      paths := t.paths
      dirty := t.dirty
      graph := t.graph
      policy := t.policy
      roots := t.roots
      openFiles := t.openFiles
      pendingFull := t.pendingFull } := by
  cases h with
  | meet path => rw [rest_unitFor]
  | replace other overlay ho =>
    rw [replaced, rest_markContentStale]
    rfl
  | touch other => rw [rest_markContentStale]
  | drop other => rw [rest_dropUnit]
  | settle policy roots openFiles pendingFull => rfl

theorem EditStep.inherits (h : EditStep texts s t) : s.Inherits t := by
  intro file v hv
  obtain ⟨u, hu, hc⟩ | ⟨path, -, -, rfl⟩ := h.unit?_cases hv
  · refine .inr ⟨u, hu, ?_⟩
    cases hc <;> rfl
  · exact .inl rfl

private theorem EditChange.tidy (h : EditChange u v) (hu : u.Tidy) : v.Tidy := by
  cases h with
  | same => exact hu
  | replace overlay => exact ⟨nofun, nofun, nofun, hu.unbound⟩
  | touch => exact hu.ofContentStale

theorem EditStep.tidy (h : EditStep texts s t) (hs : s.Tidy) : t.Tidy := by
  intro file v hv
  obtain ⟨u, hu, hc⟩ | ⟨path, -, -, rfl⟩ := h.unit?_cases hv
  · exact hc.tidy (hs file u hu)
  · exact tidy_unseenUnit s path

private theorem Indexed.markContentStale (hs : s.Indexed) (file : FileId) :
    (s.markContentStale file).Indexed := by
  refine hs.congr (by rw [rest_markContentStale]) fun other => ?_
  rw [path?, path?, unit?_markContentStale]
  split
  · rw [Option.map_map]
    rfl
  · rfl

theorem EditStep.indexed (h : EditStep texts s t) (hs : s.Indexed) : t.Indexed := by
  cases h with
  | meet path => exact Indexed.unitFor path hs
  | replace other overlay ho =>
    have hmodified := Indexed.modifyUnit other
      (fun u => { u with overlay := overlay, version := u.version + 1 }) hs fun _ _ => rfl
    exact hmodified.markContentStale other
  | touch other => exact hs.markContentStale other
  | drop other => exact hs.dropUnit other
  | settle policy roots openFiles pendingFull => exact hs

/-! ## Every run -/

/-- Units are tidy and found by their paths. -/
def Orderly (s : Session) : Prop := s.Tidy ∧ s.Indexed

/-- No step of an evaluation brings disorder. -/
theorem EvalStep.orderly {slack : Nat} (h : EvalStep slack s t) (hs : s.Orderly) : t.Orderly :=
  ⟨h.tidy hs.1, h.indexed hs.2⟩

/-- A flush brings no disorder. -/
theorem Orderly.flush (hs : s.Orderly) : s.flush.Orderly := ⟨hs.1.flush, hs.2.flush hs.1⟩

theorem Tidy.markChecked (hs : s.Tidy) (hb : s.IsBound file) :
    (Query.markChecked file s).Tidy := by
  obtain ⟨u, hu, hbound⟩ := hb
  refine Tidy.modifyUnit (s := s) hs fun v hv => ?_
  obtain rfl := Option.some.inj (hv.symm.trans hu)
  have ht := hs file v hv
  exact ⟨fun _ => ht.bound hbound, nofun, nofun, ht.unbound⟩

/-- To mark a file as checked brings no disorder. -/
theorem Orderly.markChecked (hs : s.Orderly) (hb : s.IsBound file) :
    (Query.markChecked file s).Orderly :=
  ⟨hs.1.markChecked hb, hs.2.modified rfl rfl fun _ _ => rfl⟩

theorem respected_orderly : Query.Respected Orderly where
  flush _ hs := hs.flush
  evaluate s hs := by
    obtain ⟨slack, hc⟩ := hs.1.exists_coherent
    exact ⟨slack, hc, fun t ht => ht.steps.induct (fun _ _ h => h.orderly) hs⟩
  check _ _ hs hb := hs.markChecked hb
  register _ _ hs := hs

/-- No operation brings disorder. -/
theorem Orderly.apply (hs : s.Orderly) (op : Operation) : (s.apply op).Orderly := by
  rcases s.apply_cases op with h | ⟨files, h⟩ | h | ⟨question, h⟩
  · exact h.induct (fun _ _ h hs => ⟨h.tidy hs.1, h.indexed hs.2⟩) hs
  · rw [h]
    exact hs
  · rw [h]
    exact hs.flush
  · rw [h]
    exact respected_orderly.asked hs.flush question

/-- A session begins in order. -/
theorem orderly_new (options : Options) (files : FileStore) (hostPaths : List String) :
    (Session.new options files hostPaths).Orderly := by
  constructor
  · intro file u hu
    exact nomatch hu
  · intro path file
    exact iff_of_false nofun nofun

/-- In every run, units are tidy and found by their paths. -/
theorem orderly_after (options : Options) (files : FileStore) (hostPaths : List String)
    (ops : List Operation) : ((Session.new options files hostPaths).after ops).Orderly :=
  after_induct (fun _ op hs => hs.apply op) (orderly_new options files hostPaths) ops

end Session
end LiveCheck
