import LiveCheck.Proofs.Session.Runs

/-!
# Trees are those of the current contents

Once a question has taken in the changes, every tree in the session is the tree of what the file
holds now, provided that the session was told of what happened to files behind its back, and that no
two texts of the run have the same fingerprint. In between, a tree may be older only if its unit
waits for the next flush, or if its file changed and nobody said so yet.
-/

namespace LiveCheck

/-! ## Contents of a run -/

variable {path content : String}

namespace FileStore

/-- The contents of all files that can be read. -/
def contents (s : FileStore) : List String := s.files.toList.filterMap (·.2)

private theorem mem_contents {s : FileStore} (h : s.read? path = some content) :
    content ∈ s.contents := by
  have hentry : s.files[path]? = some (some content) := Option.join_eq_some_iff.mp h
  exact List.mem_filterMap.mpr
    ⟨(path, some content), Std.TreeMap.mem_toList_iff_getElem?_eq_some.mpr hentry, rfl⟩

end FileStore

/-- The paths of which the session was not told yet, behind an operation. -/
def Operation.late (paths : List String) : Operation → List String
  | .write path _ | .delete path => Path.normalize path :: paths
  | .notify path => paths.filter (· != Path.normalize path)
  | _ => paths

/-- The paths that changed behind the back of the session and of which it was not told since. -/
def latePaths (ops : List Operation) : List String := ops.foldl Operation.late []

/-- All contents that occur in a run. -/
def contentsOf (files : FileStore) (ops : List Operation) : List String :=
  files.contents ++ ops.filterMap Operation.content?

/-! ## What trees are made from -/

namespace SourceUnit

/-- Two states of a unit do not differ in the tree and in what it was made from. -/
structure SameSource (u v : SourceUnit) : Prop where
  path : v.path = u.path
  overlay : v.overlay = u.overlay
  content : v.content = u.content
  fingerprint : v.fingerprint = u.fingerprint
  tree : v.tree = u.tree
  syntaxReports : v.syntaxReports = u.syntaxReports

/-- The overlay is one of the texts, and so is the content on record, whose fingerprint, tree and
syntax problems are those that are kept. -/
structure Faithful (texts : List String) (u : SourceUnit) : Prop where
  overlay : ∀ text ∈ u.overlay, text ∈ texts
  tree : u.tree.isSome = true → ∃ content ∈ texts,
    u.content = some content ∧ u.fingerprint = some (Text.fingerprint content) ∧
      u.tree = some (parse content).tree ∧
      u.syntaxReports = (parse content).findings.map (·.report u.path)

variable {texts : List String} {u v : SourceUnit}

private theorem SameSource.refl (u : SourceUnit) : u.SameSource u := ⟨rfl, rfl, rfl, rfl, rfl, rfl⟩

private theorem SameSource.faithful (h : u.SameSource v) (hu : u.Faithful texts) :
    v.Faithful texts where
  overlay := by
    rw [h.overlay]
    exact hu.overlay
  tree ht := by
    rw [h.tree] at ht
    rw [h.path, h.content, h.fingerprint, h.tree, h.syntaxReports]
    exact hu.tree ht

private theorem Faithful.parsed (h : u.Faithful texts) (hc : content ∈ texts) :
    (u.parsed content (Text.fingerprint content)).Faithful texts where
  overlay := h.overlay
  tree _ := ⟨content, hc, rfl, rfl, rfl, rfl⟩

private theorem Faithful.replaced (h : u.Faithful texts) {overlay : Option String}
    (ho : ∀ text ∈ overlay, text ∈ texts) :
    ({ u with
      overlay := overlay
      version := u.version + 1
      state := .stale .content } : SourceUnit).Faithful texts where
  overlay := ho
  tree := h.tree

private theorem faithful_of_unseen (ht : u.tree = none) (ho : u.overlay = none) :
    u.Faithful texts where
  overlay text h := by
    rw [ho] at h
    exact nomatch h
  tree h := by
    rw [ht] at h
    exact nomatch h

private theorem sameSource_bound (u : SourceUnit) (binding : Binding) (generation : Nat) :
    u.SameSource (u.bound binding generation) := ⟨rfl, rfl, rfl, rfl, rfl, rfl⟩

theorem sameSource_evaluating (u : SourceUnit) (generation : Nat) :
    u.SameSource (u.evaluating generation) := by
  rw [rest_evaluating]
  exact ⟨rfl, rfl, rfl, rfl, rfl, rfl⟩

theorem sameSource_report (u : SourceUnit) (d : Diagnostic) : u.SameSource (u.report d) := by
  rw [rest_report]
  exact ⟨rfl, rfl, rfl, rfl, rfl, rfl⟩

end SourceUnit

namespace Session

variable {texts late : List String} {waiting files : List FileId} {s t : Session}
  {file other : FileId} {slack : Nat} {ops : List Operation}

/-- Where a unit has its tree from: from before, or from the content, or it has none. -/
inductive Sourced (s : Session) (file : FileId) (v : SourceUnit) : Prop
  | same {u : SourceUnit} (hu : s.unit? file = some u) (h : u.SameSource v)
  | parsed {u : SourceUnit} {content : String} (hu : s.unit? file = some u)
    (hc : s.content? file = some content)
    (h : v = u.parsed content (Text.fingerprint content))
  | unseen (ht : v.tree = none) (ho : v.overlay = none)

private theorem Sourced.refl {u : SourceUnit} (hu : s.unit? file = some u) : Sourced s file u :=
  .same hu (.refl u)

theorem sourced_unitFor {v : SourceUnit} (hv : (s.unitFor path).2.unit? file = some v) :
    Sourced s file v := by
  rw [unit?_unitFor] at hv
  split at hv
  · rw [← Option.some.inj hv]
    exact .unseen rfl rfl
  · exact .refl hv

theorem EvalStep.sourced (h : EvalStep slack s t) {v : SourceUnit} (hv : t.unit? file = some v) :
    Sourced s file v := by
  obtain ⟨u, hu, hc⟩ | ⟨path, entries, -, -, rfl⟩ := h.unit?_cases hv
  · cases hc with
    | bind hc =>
      cases hc with
      | cache entries => exact .same hu ⟨rfl, rfl, rfl, rfl, rfl, rfl⟩
      | parse hs hc => exact .parsed hu hc rfl
      | discard hs => exact .same hu ⟨rfl, rfl, rfl, rfl, rfl, rfl⟩
      | bind binding hb => exact .same hu (u.sameSource_bound binding _)
    | enter hb => exact .same hu (u.sameSource_evaluating _)
    | report d => exact .same hu (u.sameSource_report d)
    | learn node key type hb => exact .same hu ⟨rfl, rfl, rfl, rfl, rfl, rfl⟩
  · exact .unseen rfl rfl

theorem BindStep.sourced (h : BindStep s t) {v : SourceUnit} (hv : t.unit? file = some v) :
    Sourced s file v :=
  (EvalStep.quiet (.bind h) : EvalStep 0 s t).sourced hv

theorem FlushEnd.sourced (h : FlushEnd s t) {v : SourceUnit} (hv : t.unit? file = some v) :
    Sourced s file v := by
  obtain ⟨u, hu, hrest⟩ := h.unit?_rest hv
  rw [hrest]
  exact .same hu ⟨rfl, rfl, rfl, rfl, rfl, rfl⟩

/-! ## The invariant -/

/-- All texts in the session are among the given ones, and a tree may be older than the content of
its file only if the unit waits, or if the path is late: the file changed behind the back of the
session. -/
structure Followed (texts late : List String) (waiting : List FileId) (s : Session) : Prop where
  orderly : s.Orderly
  files : ∀ path content, s.files.read? path = some content → content ∈ texts
  units : ∀ file u, s.unit? file = some u → u.Faithful texts
  current : ∀ file u, s.unit? file = some u → u.tree.isSome = true →
    file ∈ waiting ∨ (u.overlay = none ∧ u.path ∈ late) ∨ s.content? file = u.content

private theorem Followed.content?_mem (hs : s.Followed texts late waiting)
    (hc : s.content? file = some content) : content ∈ texts := by
  obtain ⟨u, hu, hc⟩ := Option.bind_eq_some_iff.mp hc
  cases ho : u.overlay with
  | none =>
    rw [ho] at hc
    exact hs.files u.path content hc
  | some text =>
    rw [ho] at hc
    exact (hs.units file u hu).overlay content (ho.trans hc)

private theorem Sourced.faithful {v : SourceUnit} (h : Sourced s file v)
    (hs : s.Followed texts late waiting) : v.Faithful texts := by
  cases h with
  | same hu h => exact h.faithful (hs.units file _ hu)
  | parsed hu hc h =>
    rw [h]
    exact (hs.units file _ hu).parsed (hs.content?_mem hc)
  | unseen ht ho => exact SourceUnit.faithful_of_unseen ht ho

private theorem Sourced.current {v : SourceUnit} (h : Sourced s file v)
    (hs : s.Followed texts late waiting) (hv : t.unit? file = some v) (hf : t.files = s.files)
    (htree : v.tree.isSome = true) :
    file ∈ waiting ∨ (v.overlay = none ∧ v.path ∈ late) ∨ t.content? file = v.content := by
  cases h with
  | same hu h =>
    rw [h.tree] at htree
    rw [content?_congr hu hv h.path h.overlay hf, h.path, h.overlay, h.content]
    exact hs.current file _ hu htree
  | parsed hu hc h =>
    subst h
    rw [content?_congr hu hv rfl rfl hf, hc]
    exact .inr (.inr rfl)
  | unseen ht ho =>
    rw [ht] at htree
    exact nomatch htree

private theorem Followed.ofSourced (hs : s.Followed texts late waiting) (ho : t.Orderly)
    (hf : t.files = s.files) (h : ∀ file v, t.unit? file = some v → Sourced s file v) :
    t.Followed texts late waiting where
  orderly := ho
  files := by
    rw [hf]
    exact hs.files
  units file v hv := (h file v hv).faithful hs
  current file v hv htree := (h file v hv).current hs hv hf htree

private theorem Followed.mono (hs : s.Followed texts late waiting) {waiting' : List FileId}
    (h : ∀ file u, s.unit? file = some u → file ∈ waiting → file ∈ waiting') :
    s.Followed texts late waiting' where
  orderly := hs.orderly
  files := hs.files
  units := hs.units
  current file u hu htree := (hs.current file u hu htree).imp_left (h file u hu)

/-! ## Evaluations and checks -/

private theorem EvalStep.followed (h : EvalStep slack s t) (hs : s.Followed texts late waiting) :
    t.Followed texts late waiting :=
  hs.ofSourced (h.orderly hs.orderly) (by rw [h.rest]) fun _ _ hv => h.sourced hv

private theorem BindStep.followed (h : BindStep s t) (hs : s.Followed texts late waiting) :
    t.Followed texts late waiting :=
  (EvalStep.quiet (.bind h) : EvalStep 0 s t).followed hs

theorem sourced_markChecked {v : SourceUnit} (hv : (Query.markChecked file s).unit? other = some v) :
    Sourced s other v := by
  obtain ⟨u, hu, ⟨-, rfl⟩ | ⟨-, rfl⟩⟩ := unit?_modifyUnit_eq_some (s := s) hv
  · exact .same hu ⟨rfl, rfl, rfl, rfl, rfl, rfl⟩
  · exact .refl hu

private theorem Followed.markChecked (hs : s.Followed texts late waiting) (hb : s.IsBound file) :
    (Query.markChecked file s).Followed texts late waiting :=
  hs.ofSourced (hs.orderly.markChecked hb) rfl fun _ _ => sourced_markChecked

/-! ## Flushes -/

/-- No two of the texts have the same fingerprint. -/
def Distinguished (texts : List String) : Prop :=
  ∀ a ∈ texts, ∀ b ∈ texts, Text.fingerprint a = Text.fingerprint b → a = b

instance (texts : List String) : Decidable (Distinguished texts) :=
  inferInstanceAs (Decidable (∀ a ∈ texts, ∀ b ∈ texts, _ → _))

theorem ReparseStep.orderly (h : ReparseStep s file t) (hs : s.Orderly) : t.Orderly :=
  ⟨h.tidy hs.1, h.indexed hs.2⟩

theorem ReparseStep.sourced (h : ReparseStep s file t) {v : SourceUnit}
    (hv : t.unit? other = some v) : Sourced s other v := by
  by_cases hne : other = file
  · subst hne
    cases h with
    | skip hu => exact .refl hv
    | forget hu hc => exact absurd rfl (unit?_forget_eq_some hv).1
    | restore hu hc ht hf =>
      rw [unit?_modifyUnit_self, hu] at hv
      obtain rfl := Option.some.inj hv
      exact .same hu ⟨rfl, rfl, rfl, rfl, rfl, rfl⟩
    | parse hu hc hn =>
      rw [unit?_parseUnit hu] at hv
      exact .parsed hu hc (Option.some.inj hv).symm
  · rw [h.unit?_of_ne hne] at hv
    exact .refl hv

private theorem ReparseStep.content?_eq (h : ReparseStep s file t) (hd : Distinguished texts)
    (hs : s.Followed texts late waiting) {v : SourceUnit} (hv : t.unit? file = some v) :
    t.content? file = v.content := by
  have hfiles := h.files
  cases h with
  | skip hu =>
    rw [hu] at hv
    exact nomatch hv
  | forget hu hc => exact absurd rfl (unit?_forget_eq_some hv).1
  | @restore u content hu hc ht hf =>
    have hnew : (s.modifyUnit file SourceUnit.restored).unit? file = some u.restored := by
      rw [unit?_modifyUnit_self, hu]
      rfl
    obtain rfl := Option.some.inj (hv.symm.trans hnew)
    -- The fingerprints agree, and so do the contents.
    obtain ⟨known, hmem, hknown, hprint, -⟩ := (hs.units file u hu).tree ht
    have heq : known = content :=
      hd known hmem content (hs.content?_mem hc) (Option.some.inj (hprint.symm.trans hf))
    rw [content?_congr hu hnew rfl rfl hfiles, hc, ← heq]
    exact hknown.symm
  | @parse u content hu hc hn =>
    have hnew := unit?_parseUnit hu content
    obtain rfl := Option.some.inj (hv.symm.trans hnew)
    rw [content?_congr hu hnew rfl rfl hfiles, hc]
    rfl

private theorem ReparseStep.followed (h : ReparseStep s file t) (hd : Distinguished texts)
    (hs : s.Followed texts late (file :: files)) :
    t.Followed texts late files where
  orderly := h.orderly hs.orderly
  files := by
    rw [h.files]
    exact hs.files
  units other v hv := (h.sourced hv).faithful hs
  current other v hv htree := by
    by_cases hne : other = file
    · subst hne
      exact .inr (.inr (h.content?_eq hd hs hv))
    · refine ((h.sourced hv).current hs hv h.files htree).imp_left fun hmem => ?_
      exact (List.mem_cons.mp hmem).resolve_left hne

private theorem Reparses.followed (h : Reparses s files t) (hd : Distinguished texts)
    (hs : s.Followed texts late files) : t.Followed texts late [] := by
  induction h with
  | nil s => exact hs
  | cons hstep _ ih => exact ih (hstep.followed hd hs)

private theorem FlushEnd.followed (h : FlushEnd s t) (hs : s.Followed texts late waiting) :
    t.Followed texts late waiting := by
  have ho : t.Orderly := ⟨h.tidy hs.orderly.1, h.indexed hs.orderly.2⟩
  exact hs.ofSourced ho (by rw [h.rest]) fun _ _ hv => h.sourced hv

private theorem Followed.flush (hd : Distinguished texts) (hs : s.Followed texts late s.dirty) :
    s.flush.Followed texts late [] := by
  cases hp : s.hasPendingChanges with
  | false =>
    rw [flush_of_not_pending hp]
    have hdirty : s.dirty = [] := by
      simpa [hasPendingChanges] using (Bool.or_eq_false_iff.mp hp).2
    rwa [hdirty] at hs
  | true =>
    obtain ⟨t, r, hrep, hb, he, -⟩ := flush_cases hs.orderly.1 hp
    have hcleared : ({ s with dirty := [], pendingFull := false } : Session).Followed texts late
        s.dirty := { hs with }
    have ht : t.Followed texts late [] := hrep.followed hd hcleared
    exact he.followed (hb.induct (fun _ _ h => h.followed) ht)

/-- No unit waits, and all are followed. -/
def Settled (texts late : List String) (s : Session) : Prop :=
  s.Followed texts late [] ∧ s.dirty = []

private theorem respected_settled (hd : Distinguished texts) :
    Query.Respected (Settled texts late) where
  flush s hs := by
    refine ⟨Followed.flush hd ?_, dirty_flush hs.1.orderly.1⟩
    rw [hs.2]
    exact hs.1
  evaluate s hs := by
    obtain ⟨slack, hc⟩ := hs.1.orderly.1.exists_coherent
    refine ⟨slack, hc, fun t ht => ⟨ht.steps.induct (fun _ _ h => h.followed) hs.1, ?_⟩⟩
    rw [ht.steps.rest]
    exact hs.2
  check s file hs hb := ⟨hs.1.markChecked hb, hs.2⟩
  register s target hs := ⟨⟨hs.1.orderly, hs.1.files, hs.1.units, hs.1.current⟩, hs.2⟩

/-- Behind every question, no unit waits. -/
theorem Followed.asked (hd : Distinguished texts) (hs : s.Followed texts late s.dirty)
    (question : Question) : Settled texts late (s.asked question) :=
  (respected_settled hd).asked ⟨hs.flush hd, dirty_flush hs.orderly.1⟩ question

/-! ## Changes -/

theorem EditStep.followed (h : EditStep texts s t) (hs : s.Followed texts late s.dirty) :
    t.Followed texts late t.dirty := by
  have ho : t.Orderly := ⟨h.tidy hs.orderly.1, h.indexed hs.orderly.2⟩
  have hfiles : t.files = s.files := by rw [h.rest]
  cases h with
  | meet path =>
    have hdirty : (s.unitFor path).2.dirty = s.dirty := by rw [rest_unitFor]
    rw [hdirty]
    exact hs.ofSourced ho hfiles fun _ _ => sourced_unitFor
  | replace other overlay hoverlay =>
    refine ⟨ho, hfiles ▸ hs.files, fun file v hv => ?_, fun file v hv htree => ?_⟩
    · rw [unit?_replaced] at hv
      split at hv
      · obtain ⟨u, hu, rfl⟩ := Option.map_eq_some_iff.mp hv
        exact (hs.units file u hu).replaced hoverlay
      · exact hs.units file v hv
    · rw [unit?_replaced] at hv
      split at hv
      · next heq =>
        obtain ⟨u, hu, -⟩ := Option.map_eq_some_iff.mp hv
        subst heq
        exact .inl (mem_dirty_replaced hu overlay)
      · next hne =>
        have hv' : (s.replaced other overlay).unit? file = some v := by
          rw [unit?_replaced, if_neg hne, hv]
        refine ((Sourced.refl hv).current hs hv' hfiles htree).imp_left ?_
        exact dirty_replaced s other overlay
  | touch other =>
    refine (hs.ofSourced ho hfiles fun file v hv => ?_).mono fun file _ _ =>
      dirty_markContentStale s other
    rw [unit?_markContentStale] at hv
    split at hv
    · obtain ⟨u, hu, rfl⟩ := Option.map_eq_some_iff.mp hv
      exact .same hu ⟨rfl, rfl, rfl, rfl, rfl, rfl⟩
    · exact .refl hv
  | drop other =>
    refine (hs.ofSourced ho hfiles fun file v hv => ?_).mono fun file v hv hmem => ?_
    · rw [unit?_dropUnit] at hv
      split at hv
      · exact nomatch hv
      · exact .refl hv
    · rw [unit?_dropUnit] at hv
      split at hv
      · exact nomatch hv
      · next hne => exact dirty_dropUnit hne hmem
  | settle policy roots openFiles pendingFull =>
    exact { hs with }

private theorem Followed.ofFiles (hs : s.Followed texts late waiting) {files : FileStore}
    (hread : ∀ other, other ≠ path → files.read? other = s.files.read? other)
    (hfiles : ∀ content, files.read? path = some content → content ∈ texts) :
    ({ s with files := files } : Session).Followed texts (path :: late) waiting where
  orderly := hs.orderly
  files other content hc := by
    by_cases heq : other = path
    · subst heq
      exact hfiles content hc
    · change files.read? other = some content at hc
      rw [hread other heq] at hc
      exact hs.files other content hc
  units := hs.units
  current file u hu htree := by
    have hu : s.unit? file = some u := hu
    obtain hw | ⟨hoverlay, hlate⟩ | hcurrent := hs.current file u hu htree
    · exact .inl hw
    · exact .inr (.inl ⟨hoverlay, List.mem_cons_of_mem path hlate⟩)
    · by_cases h : u.overlay = none ∧ u.path = path
      · exact .inr (.inl ⟨h.1, h.2 ▸ List.mem_cons_self⟩)
      · refine .inr (.inr ?_)
        rw [← hcurrent]
        change (s.unit? file).bind _ = (s.unit? file).bind _
        rw [hu, Option.bind_some, Option.bind_some]
        cases hoverlay : u.overlay with
        | none => exact hread u.path fun hp => h ⟨hoverlay, hp⟩
        | some text => rfl

private theorem Followed.notifyChanged (hs : s.Followed texts late s.dirty) (path : String) :
    (s.notifyChanged path).Followed texts (late.filter (· != Path.normalize path))
      (s.notifyChanged path).dirty := by
  have ht : (s.notifyChanged path).Followed texts late (s.notifyChanged path).dirty :=
    (edits_notifyChanged s path).induct (P := fun s => s.Followed texts late s.dirty)
      (fun _ _ h => h.followed) hs
  refine ⟨ht.orderly, ht.files, ht.units, fun file v hv htree => ?_⟩
  obtain hw | ⟨hoverlay, hlate⟩ | hcurrent := ht.current file v hv htree
  · exact .inl hw
  · by_cases hp : v.path = Path.normalize path
    · exact .inl (mem_dirty_notifyChanged hs.orderly.2 hv hp)
    · exact .inr (.inl ⟨hoverlay, List.mem_filter.mpr ⟨hlate, by simpa using hp⟩⟩)
  · exact .inr (.inr hcurrent)

/-! ## Every run -/

private theorem Followed.apply (hd : Distinguished texts) (hs : s.Followed texts late s.dirty)
    {op : Operation} (hop : ∀ text ∈ op.content?, text ∈ texts) :
    (s.apply op).Followed texts (op.late late) (s.apply op).dirty := by
  have hedits {t : Session} (h : Edits texts s t) : t.Followed texts late t.dirty :=
    h.induct (P := fun s => s.Followed texts late s.dirty) (fun _ _ h => h.followed) hs
  cases op with
  | update path content => exact hedits (edits_update s path (hop content rfl))
  | openFile path content => exact hedits (edits_openFile s path (hop content rfl))
  | closeFile path => exact hedits (edits_closeFile s path)
  | notify path => exact hs.notifyChanged path
  | remove path => exact hedits (edits_removeFile s path)
  | setRoots paths => exact hedits (edits_setRoots s paths)
  | collectGarbage => exact hedits (edits_collectGarbage s)
  | setPolicy policy => exact { hs with }
  | write path content =>
    refine hs.ofFiles (fun other hne => ?_) fun text ht => ?_
    · rw [FileStore.read?_put, if_neg hne]
    · rw [FileStore.read?_put, if_pos rfl] at ht
      exact hop text ht
  | delete path =>
    refine hs.ofFiles (fun other hne => ?_) fun text ht => ?_
    · rw [FileStore.read?_delete, if_neg hne]
    · rw [FileStore.read?_delete, if_pos rfl] at ht
      exact nomatch ht
  | flush => exact (hs.flush hd).mono fun _ _ _ h => nomatch h
  | ask question => exact (hs.asked hd question).1.mono fun _ _ _ h => nomatch h

theorem Followed.after (hd : Distinguished texts) (hs : s.Followed texts late s.dirty)
    (hops : ∀ op ∈ ops, ∀ text ∈ op.content?, text ∈ texts) :
    (s.after ops).Followed texts (ops.foldl Operation.late late) (s.after ops).dirty := by
  induction ops generalizing s late with
  | nil => exact hs
  | cons op ops ih =>
    exact ih (hs.apply hd (hops op List.mem_cons_self)) fun other h =>
      hops other (List.mem_cons_of_mem op h)

/-- Every tree in the session is the tree of the current content of its unit, and so are the syntax
problems. -/
def TreesCurrent (s : Session) : Prop :=
  ∀ file u, s.unit? file = some u → u.tree.isSome = true → ∃ content,
    s.content? file = some content ∧ u.content = some content ∧
      u.tree = some (parse content).tree ∧
      u.syntaxReports = (parse content).findings.map (·.report u.path)

theorem Followed.treesCurrent (hs : s.Followed texts [] []) : s.TreesCurrent := by
  intro file u hu htree
  obtain ⟨content, -, hcontent, -, hparse⟩ := (hs.units file u hu).tree htree
  obtain h | ⟨-, h⟩ | hcurrent := hs.current file u hu htree
  · exact nomatch h
  · exact nomatch h
  · exact ⟨content, hcurrent.trans hcontent, hcontent, hparse⟩

theorem followed_new (options : Options) (files : FileStore) (hostPaths : List String)
    (ops : List Operation) :
    (Session.new options files hostPaths).Followed (contentsOf files ops) [] [] := by
  have hnone (file : FileId) (u : SourceUnit) :
      (Session.new options files hostPaths).unit? file ≠ some u := nofun
  exact ⟨orderly_new options files hostPaths,
    fun path content h => List.mem_append_left _ (FileStore.mem_contents h),
    fun file u hu => absurd hu (hnone file u), fun file u hu => absurd hu (hnone file u)⟩

theorem content?_mem_contentsOf (files : FileStore) :
    ∀ op ∈ ops, ∀ text ∈ op.content?, text ∈ contentsOf files ops := fun op hop _ h =>
  List.mem_append_right _ (List.mem_filterMap.mpr ⟨op, hop, h⟩)

/-- In every run in which no two contents have the same fingerprint, once the session was told of
all changes behind its back, a flush and every question leave only trees of the current contents. -/
theorem treesCurrent_after (options : Options) (files : FileStore) (hostPaths : List String)
    (ops : List Operation) (hd : Distinguished (contentsOf files ops))
    (hlate : latePaths ops = []) :
    let s := (Session.new options files hostPaths).after ops
    s.flush.TreesCurrent ∧ ∀ question, (s.asked question).TreesCurrent := by
  intro s
  have hs : s.Followed (contentsOf files ops) (latePaths ops) s.dirty :=
    (followed_new options files hostPaths ops).after hd (content?_mem_contentsOf files)
  rw [hlate] at hs
  exact ⟨(hs.flush hd).treesCurrent, fun question => (hs.asked hd question).1.treesCurrent⟩

/-- A file that was read and then rewritten behind the back of the session is read again. -/
theorem treesCurrent_after_write :
    let files := FileStore.ofList [("a.py", "x = 1\n")]
    let ops : List Operation :=
      [.setRoots ["a.py"], .ask (.checkProgram false), .write "a.py" "x = (\n", .notify "a.py"]
    let s := (Session.new {} files []).after ops
    Distinguished (contentsOf files ops) ∧ latePaths ops = [] ∧
      (s.unit? 0).bind (·.content) = some "x = 1\n" ∧
      (s.flush.unit? 0).bind (·.content) = some "x = (\n" ∧
      (s.flush.unit? 0).any (·.tree.isSome) = true ∧
      s.flush.TreesCurrent ∧ ∀ question, (s.asked question).TreesCurrent := by
  intro files ops s
  have hd : Distinguished (contentsOf files ops) := by decide +kernel
  have hlate : latePaths ops = [] := by decide +kernel
  have hold : (s.unit? 0).bind (·.content) = some "x = 1\n" := by decide +kernel
  have hnew : (s.flush.unit? 0).bind (·.content) = some "x = (\n" := by decide +kernel
  have htree : (s.flush.unit? 0).any (·.tree.isSome) = true := by decide +kernel
  exact ⟨hd, hlate, hold, hnew, htree, treesCurrent_after {} files [] ops hd hlate⟩

end Session
end LiveCheck
