import LiveCheck.Proofs.Evaluation.Steps

/-!
# What an evaluation knows

A result is known if it is kept where the binding of its unit says, in the current generation. The
steps that keep no result neither add to what is known nor take anything away, and to keep a result
that was not known takes nothing away, either. So what is known stays known as long as an evaluation
goes on.
-/

namespace LiveCheck

open Evaluation

/-! ## Where results are kept -/

/-- The file that a key is about. -/
def EvalKey.file : EvalKey → FileId
  | .node file _ | .result file _ => file
  | .decl d => d.file

namespace SourceUnit

variable {u v : SourceUnit} {key key' : EvalKey} {node node' : NodeId} {generation : Nat}

/-- The result for the key is kept at the node. -/
def KeepsAt (u : SourceUnit) (key : EvalKey) (node : NodeId) : Prop :=
  match key with
  | .node _ n | .result _ n => n = node
  | .decl decl => ∃ b found,
    u.binding = some b ∧ b.declarations[decl.index]? = some found ∧ found.node = node

theorem KeepsAt.congr (h : u.KeepsAt key node) (hb : v.binding = u.binding) :
    v.KeepsAt key node := by
  cases key with
  | node file n => exact h
  | result file n => exact h
  | decl decl =>
    obtain ⟨b, found, hbinding, hfound⟩ := h
    exact ⟨b, found, hb.trans hbinding, hfound⟩

private theorem KeepsAt.unique (h : u.KeepsAt key node) (h' : u.KeepsAt key node') :
    node' = node := by
  cases key with
  | node file n => exact h'.symm.trans h
  | result file n => exact h'.symm.trans h
  | decl decl =>
    obtain ⟨b, found, hb, hfound, rfl⟩ := h
    obtain ⟨b', found', hb', hfound', rfl⟩ := h'
    obtain rfl := Option.some.inj (hb.symm.trans hb')
    rw [Option.some.inj (hfound.symm.trans hfound')]

private theorem KeepsAt.key_eq (h : u.KeepsAt key node) (h' : u.KeepsAt key' node)
    (hslot : key'.slot = key.slot) (hfile : key'.file = key.file) : key' = key := by
  cases key <;> cases key' <;> simp_all [KeepsAt, EvalKey.slot, EvalKey.file]
  case decl.decl d d' =>
    cases d
    cases d'
    simp_all

private def Filled (u : SourceUnit) : Prop := u.state.isBound = true ∧ u.analysis.isEmpty = false

/-- The two units are bound to the same names, and the same is known about them. -/
private structure SameResults (u v : SourceUnit) : Prop where
  before : u.Filled
  after : v.Filled
  binding : v.binding = u.binding
  analysis : v.analysis = u.analysis

theorem analysis_evaluating_of_stamp (h : u.analysis.stamp = generation) :
    (u.evaluating generation).analysis = u.analysis := by
  simp only [evaluating]
  split <;> simp [h]

private theorem sameResults_evaluating (hb : u.state.isBound = true)
    (h : u.analysis.isEmpty = false ∧ u.analysis.stamp = generation ∨
      (u.evaluating generation).analysis.isEmpty = false) :
    u.SameResults (u.evaluating generation) := by
  have hsame : (u.evaluating generation).analysis = u.analysis := by
    rcases h with ⟨-, hstamp⟩ | hfilled
    · exact analysis_evaluating_of_stamp hstamp
    · rcases u.analysis_evaluating generation with hsame | hempty
      · exact hsame
      · rw [hempty] at hfilled
        exact nomatch hfilled
  have hfilled : u.analysis.isEmpty = false := by
    rcases h with ⟨hfilled, -⟩ | hfilled
    · exact hfilled
    · exact hsame ▸ hfilled
  refine ⟨⟨hb, hfilled⟩, ⟨isBound_evaluating hb generation, hsame ▸ hfilled⟩, ?_, hsame⟩
  rw [rest_evaluating]

end SourceUnit

namespace Session

open SourceUnit

variable {slack : Nat} {s t r : Session} {file : FileId} {u v : SourceUnit} {key key' : EvalKey}
  {type type' : TypeId}

/-! ## Known results -/

/-- The results of a unit are open: the unit is bound, and they belong to the current
generation. -/
def Opened (s : Session) (file : FileId) (u : SourceUnit) : Prop :=
  s.unit? file = some u ∧ u.state.isBound = true ∧ u.analysis.stamp = s.generation

/-- The result for the key is known. -/
def Knows (s : Session) (key : EvalKey) (type : TypeId) : Prop :=
  ∃ u node, s.Opened key.file u ∧ u.KeepsAt key node ∧ u.typeAt? node key.slot = some type

theorem Knows.unique (h : s.Knows key type) (h' : s.Knows key type') : type' = type := by
  obtain ⟨u, node, hu, hnode, htype⟩ := h
  obtain ⟨v, node', hv, hnode', htype'⟩ := h'
  obtain rfl := Option.some.inj (hu.1.symm.trans hv.1)
  obtain rfl := hnode.unique hnode'
  exact Option.some.inj (htype'.symm.trans htype)

private theorem BindChange.sameResults (h : BindChange s file u v) (hf : u.Filled ∨ v.Filled) :
    u.SameResults v := by
  cases h with
  | cache entries => rcases hf with hf | hf <;> exact ⟨hf, hf, rfl, rfl⟩
  | parse hs hc =>
    rcases hf with ⟨hb, -⟩ | ⟨hb, -⟩
    · rcases hs with hs | hs <;> rw [hs] at hb <;> exact nomatch hb
    · exact nomatch hb
  | discard hs =>
    rcases hf with ⟨hb, -⟩ | ⟨-, he⟩
    · rw [hs] at hb
      exact nomatch hb
    · exact nomatch he
  | bind binding hb =>
    rcases hf with ⟨-, he⟩ | ⟨-, he⟩
    · rw [hb.2] at he
      exact nomatch he
    · rw [SourceUnit.analysis_bound, hb.2] at he
      exact nomatch he

private theorem sameResults_report (d : Diagnostic) (hf : u.Filled ∨ (u.report d).Filled) :
    u.SameResults (u.report d) := by
  have hu : u.Filled := by
    rcases hf with hf | hf
    · exact hf
    · rw [rest_report] at hf
      exact hf
  rw [rest_report]
  exact ⟨hu, hu, rfl, rfl⟩

private theorem QuietStep.sameResults (h : QuietStep slack s t) (hu : s.Opened file u)
    (hf : u.analysis.isEmpty = false) : ∃ v, t.unit? file = some v ∧ u.SameResults v := by
  obtain ⟨hu, hb, hstamp⟩ := hu
  have hfilled : u.Filled := ⟨hb, hf⟩
  have hsame : u.SameResults u := ⟨hfilled, hfilled, rfl, rfl⟩
  cases h with
  | bind h =>
    obtain ⟨v, hv, hc⟩ := h.unit?_of_some hu
    exact ⟨v, hv, hc.sameResults (.inl hfilled)⟩
  | @enter other w hw hwb =>
    rw [unit?_modifyUnit, hu]
    split
    · exact ⟨_, rfl, sameResults_evaluating hb (.inl ⟨hf, hstamp⟩)⟩
    · exact ⟨u, rfl, hsame⟩
  | meet path => exact ⟨u, unit?_unitFor_of_some path hu, hsame⟩
  | link importer target => exact ⟨u, hu, hsame⟩
  | report other d =>
    rw [unit?_modifyUnit, hu]
    split
    · exact ⟨_, rfl, sameResults_report d (.inl hfilled)⟩
    · exact ⟨u, rfl, hsame⟩
  | make he hc => exact ⟨u, hu, hsame⟩

private theorem QuietStep.sameResults_back (h : QuietStep slack s t) (hv : t.unit? file = some v)
    (hf : v.Filled) : ∃ u, s.unit? file = some u ∧ u.SameResults v := by
  have hsame : v.SameResults v := ⟨hf, hf, rfl, rfl⟩
  cases h with
  | bind h =>
    obtain ⟨u, hu, hc⟩ | ⟨path, entries, -, -, rfl⟩ := h.unit?_cases hv
    · exact ⟨u, hu, hc.sameResults (.inr hf)⟩
    · exact nomatch hf.1
  | @enter other w hw hb =>
    obtain ⟨u, hu, ⟨rfl, rfl⟩ | ⟨-, rfl⟩⟩ := unit?_modifyUnit_eq_some hv
    · obtain rfl := Option.some.inj (hu.symm.trans hw)
      exact ⟨u, hu, sameResults_evaluating hb (.inr hf.2)⟩
    · exact ⟨v, hu, hsame⟩
  | meet path =>
    rw [unit?_unitFor] at hv
    split at hv
    · obtain rfl := Option.some.inj hv
      exact nomatch hf.1
    · exact ⟨v, hv, hsame⟩
  | link importer target => exact ⟨v, hv, hsame⟩
  | report other d =>
    obtain ⟨u, hu, ⟨rfl, rfl⟩ | ⟨-, rfl⟩⟩ := unit?_modifyUnit_eq_some hv
    · exact ⟨u, hu, sameResults_report d (.inr hf)⟩
    · exact ⟨v, hu, hsame⟩
  | make he hc => exact ⟨v, hv, hsame⟩

private theorem QuietStep.knows_iff (h : QuietStep slack s t) :
    t.Knows key type ↔ s.Knows key type := by
  constructor
  · rintro ⟨v, node, ⟨hv, hb, hstamp⟩, hnode, htype⟩
    obtain ⟨u, hu, hsame⟩ := h.sameResults_back hv ⟨hb, isEmpty_eq_false_of_typeAt? htype⟩
    refine ⟨u, node, ⟨hu, hsame.before.1, ?_⟩, hnode.congr hsame.binding.symm, ?_⟩
    · rw [← hsame.analysis, hstamp, h.generation]
    · rw [typeAt?, ← hsame.analysis]
      exact htype
  · rintro ⟨u, node, hu, hnode, htype⟩
    obtain ⟨v, hv, hsame⟩ := h.sameResults hu (isEmpty_eq_false_of_typeAt? htype)
    refine ⟨v, node, ⟨hv, hsame.after.1, ?_⟩, hnode.congr hsame.binding, ?_⟩
    · rw [hsame.analysis, hu.2.2, h.generation]
    · rw [typeAt?, hsame.analysis]
      exact htype

private theorem Quietly.knows_iff (h : Quietly slack s t) :
    t.Knows key type ↔ s.Knows key type := by
  induction h with
  | refl => rfl
  | tail _ hstep ih => rw [hstep.knows_iff, ih]

/-- Keeping a result changes nothing about the others. -/
theorem knows_learned_of_ne (hu : s.Opened key.file u) {node : NodeId} (hnode : u.KeepsAt key node)
    (hne : key' ≠ key) :
    (s.modifyUnit key.file (·.learned node key type)).Knows key' type' ↔ s.Knows key' type' := by
  have htypeAt (node' : NodeId) (hnode' : u.KeepsAt key' node') (hfile : key'.file = key.file) :
      (u.learned node key type).typeAt? node' key'.slot = u.typeAt? node' key'.slot := by
    rw [typeAt?_learned, if_neg]
    rintro ⟨rfl, hslot⟩
    exact hne (hnode.key_eq hnode' hslot hfile)
  constructor
  · rintro ⟨v, node', ⟨hv, hb, hstamp⟩, hnode', htype⟩
    obtain ⟨w, hw, ⟨hfile, rfl⟩ | ⟨-, rfl⟩⟩ := unit?_modifyUnit_eq_some hv
    · obtain rfl := Option.some.inj ((hfile ▸ hw).symm.trans hu.1)
      rw [htypeAt node' hnode' hfile] at htype
      exact ⟨w, node', ⟨hw, hb, hstamp⟩, hnode', htype⟩
    · exact ⟨v, node', ⟨hw, hb, hstamp⟩, hnode', htype⟩
  · rintro ⟨v, node', ⟨hv, hb, hstamp⟩, hnode', htype⟩
    by_cases hfile : key'.file = key.file
    · obtain rfl := Option.some.inj ((hfile ▸ hv).symm.trans hu.1)
      refine ⟨v.learned node key type, node', ⟨?_, hb, hstamp⟩, hnode', ?_⟩
      · rw [hfile, unit?_modifyUnit_self, hu.1]
        rfl
      · rw [htypeAt node' hnode' hfile, htype]
    · refine ⟨v, node', ⟨?_, hb, hstamp⟩, hnode', htype⟩
      rw [unit?_modifyUnit_of_ne s key.file _ hfile, hv]

/-- What was kept is known. -/
theorem knows_learned (hu : s.Opened key.file u) {node : NodeId} (hnode : u.KeepsAt key node) :
    (s.modifyUnit key.file (·.learned node key type)).Knows key type := by
  refine ⟨u.learned node key type, node, ⟨?_, hu.2.1, hu.2.2⟩, hnode, ?_⟩
  · rw [unit?_modifyUnit_self, hu.1]
    rfl
  · rw [typeAt?_learned, if_pos ⟨rfl, rfl⟩]

/-! ## Whole evaluations -/

/-- An evaluation takes some steps, and behind them nothing is undone that was not so before. It keeps
what whole bindings and lookups keep. If no unit was being bound when it began, then it forgets
nothing. -/
structure Performs (slack : Nat) (s t : Session) : Prop where
  steps : Evaluates slack s t
  completes : s.Completes t
  sustains : ∀ P, Sustained P → P s → P t
  knows : s.inProgress = [] → ∀ key type, s.Knows key type → t.Knows key type

theorem Performs.refl (s : Session) : Performs slack s s :=
  ⟨.refl, .refl s, fun _ _ h => h, fun _ _ _ h => h⟩

theorem Performs.trans (h : Performs slack s t) (h' : Performs slack t r) :
    Performs slack s r where
  steps := h.steps.trans h'.steps
  completes := h.completes.trans h'.completes
  sustains P hP hs := h'.sustains P hP (h.sustains P hP hs)
  knows hidle key type hk :=
    h'.knows (h.completes.inProgress.trans hidle) key type (h.knows hidle key type hk)

/-- To keep a result that is not known yet is part of an evaluation. -/
theorem performs_learn (hu : s.Opened key.file u) {node : NodeId} (hnode : u.KeepsAt key node)
    (ht : type < s.types.extent slack)
    (hnew : s.inProgress = [] → ∀ type, ¬ s.Knows key type) :
    Performs slack s (s.modifyUnit key.file (·.learned node key type)) where
  steps := .single (.learn node key hu.1 hu.2.1 hu.2.2 ht)
  completes := completes_modifyUnit (fun _ _ h => h) fun _ _ h => ⟨h, rfl, rfl⟩
  sustains P hP hs := by
    refine hP.spare s _ (spares_modifyUnit fun v hv => ⟨rfl, .inl rfl, .inr ?_⟩) hs
    obtain rfl := Option.some.inj (hv.symm.trans hu.1)
    exact hu.2.1
  knows hidle key' type' hk := by
    refine (knows_learned_of_ne hu hnode ?_).mpr hk
    rintro rfl
    exact hnew hidle type' hk

/-- A part of an evaluation that keeps no results. -/
structure Prepares (slack : Nat) (s t : Session) : Prop where
  steps : Quietly slack s t
  completes : s.Completes t
  sustains : ∀ P, Sustained P → P s → P t

theorem Prepares.refl (s : Session) : Prepares slack s s := ⟨.refl, .refl s, fun _ _ h => h⟩

theorem Prepares.trans (h : Prepares slack s t) (h' : Prepares slack t r) :
    Prepares slack s r :=
  ⟨h.steps.trans h'.steps, h.completes.trans h'.completes,
    fun P hP hs => h'.sustains P hP (h.sustains P hP hs)⟩

/-- A preparation neither adds results nor loses any. -/
theorem Prepares.knows_iff (h : Prepares slack s t) : t.Knows key type ↔ s.Knows key type :=
  h.steps.knows_iff

/-- A preparation is an evaluation. -/
theorem Prepares.performs (h : Prepares slack s t) : Performs slack s t :=
  ⟨h.steps.evaluates, h.completes, h.sustains, fun _ _ _ hk => h.knows_iff.mpr hk⟩

theorem Prepares.inherits (h : Prepares slack s t) : s.Inherits t := by
  obtain ⟨hsteps, -, -⟩ := h
  induction hsteps with
  | refl => exact .refl s
  | tail _ hstep ih => exact ih.trans hstep.inherits

/-- To bind a file on demand prepares evaluations. -/
theorem prepares_ensureBound (hs : s.Tidy) (file : FileId) :
    Prepares slack s (s.ensureBound file).2 :=
  ⟨(binds_ensureBound hs file).1.quietly, completes_ensureBound s file,
    fun _ hP => hP.bind s file⟩

/-- To look up an import prepares evaluations. -/
theorem prepares_resolveImport (s : Session) (file : FileId) (dotted : String) (level : Nat) :
    Prepares slack s (s.resolveImport file dotted level).2 :=
  ⟨.single (.bind (.resolve file dotted level)), completes_resolveImport s file dotted level,
    fun _ hP => hP.resolve s file dotted level⟩

private theorem prepares_unitFor (s : Session) (path : String) :
    Prepares slack s (s.unitFor path).2 :=
  ⟨.single (.meet path), completes_unitFor s path, fun _ hP => hP.meet s path⟩

private theorem prepares_link (s : Session) (file target : FileId) :
    Prepares slack s { s with graph := s.graph.add file target } :=
  ⟨.single (.link file target), completes_of_units rfl rfl,
    fun _ hP => hP.spare s _ (spares_of_units rfl)⟩

theorem prepares_report (s : Session) (file : FileId) (d : Diagnostic) :
    Prepares slack s (s.modifyUnit file (·.report d)) := by
  refine ⟨.single (.report file d), completes_modifyUnit (fun u _ h => ?_) fun u _ h => ?_,
    fun _ hP => hP.spare s _ (spares_modifyUnit fun u _ => ?_)⟩
  · rw [SourceUnit.rest_report] at h
    exact h
  · rw [SourceUnit.rest_report]
    exact ⟨h, rfl, rfl⟩
  · rw [SourceUnit.rest_report]
    exact ⟨rfl, .inl rfl, .inl rfl⟩

theorem prepares_make {types : TypeTable} (he : s.types.Extends types) (hc : types.Closed slack) :
    Prepares slack s { s with types := types } :=
  ⟨.single (.make he hc), completes_of_units rfl rfl,
    fun _ hP => hP.spare s _ (spares_of_units rfl)⟩

private theorem prepares_enter (hu : s.unit? file = some u)
    (hb : u.state.isBound = true) :
    Prepares slack s (s.modifyUnit file (·.evaluating s.generation)) := by
  have hbound := SourceUnit.isBound_evaluating hb s.generation
  refine ⟨.single (.enter hu hb), completes_modifyUnit (fun v hv h => ?_) fun v hv _ => ?_,
    fun _ hP => hP.spare s _ (spares_modifyUnit fun v hv => ?_)⟩
  · obtain rfl := Option.some.inj (hv.symm.trans hu)
    rw [h] at hbound
    exact nomatch hbound
  · obtain rfl := Option.some.inj (hv.symm.trans hu)
    refine ⟨hbound, ?_, ?_⟩
    · rw [SourceUnit.rest_evaluating]
    · rw [SourceUnit.rest_evaluating]
  · obtain rfl := Option.some.inj (hv.symm.trans hu)
    refine ⟨?_, .inr ⟨hb, hbound⟩, .inr hb⟩
    rw [SourceUnit.rest_evaluating]

theorem prepares_importFrom (s : Session) (file : FileId) (dotted : String) (level : Nat) :
    Prepares slack s (s.importFrom file dotted level).2 := by
  have h : Prepares slack s (s.resolveImport file dotted level).2 :=
    prepares_resolveImport s file dotted level
  unfold Session.importFrom
  split
  · next target r hr =>
    rw [hr] at h
    exact h.trans (prepares_link r file target)
  · next r hr =>
    rw [hr] at h
    exact h

theorem prepares_submodule (s : Session) (package : FileId) (name : String) :
    Prepares slack s (s.submodule package name).2 := by
  unfold Session.submodule
  split
  · next path _ => exact (prepares_unitFor s path).trans (prepares_link _ package _)
  · exact .refl s

theorem prepares_bindFile (hs : s.Tidy) (file : FileId) :
    Prepares slack s (s.bindFile file).2 := by
  have h : Prepares slack s (s.ensureBound file).2 := prepares_ensureBound hs file
  unfold Session.bindFile
  split
  · next r hr =>
    rw [hr] at h
    exact h
  · next r hr =>
    rw [hr] at h
    exact h

/-- Bringing a bound unit up to date does nothing, unless it is being bound again. -/
theorem ensureBound_of_bound (hu : s.unit? file = some u) (hb : u.state.isBound = true)
    (hfile : file ∉ s.inProgress) : s.ensureBound file = (true, s) := by
  have hcontains : s.inProgress.contains file = false := by simpa using hfile
  simp only [Session.ensureBound, bindingDepth, ensureBoundUpTo, hcontains, hu, Option.map_some]
  cases hstate : u.state with
  | bound => rfl
  | evaluated complete => rfl
  | unseen | parsed | stale reason =>
    rw [hstate] at hb
    exact absurd hb Bool.false_ne_true

/-- What evaluation sees of a file is a unit that is bound. -/
theorem bound_of_bindFile (hs : s.Tidy) {bound : BoundFile}
    (h : (s.bindFile file).1 = some bound) :
    ∃ u, (s.bindFile file).2.unit? file = some u ∧ u.state.isBound = true ∧
      u.binding = some bound.binding := by
  have hbinds := binds_ensureBound hs file
  unfold Session.bindFile at h ⊢
  split at h
  · next t ht =>
    rw [ht] at hbinds
    obtain ⟨u, hu, hb⟩ := hbinds.2 rfl
    refine ⟨u, hu, hb, ?_⟩
    simp only [Session.boundFile?, hu, Option.bind_eq_bind, Option.bind_some,
      Option.bind_eq_some_iff] at h
    obtain ⟨tree, -, binding, hbinding, h⟩ := h
    rw [hbinding, ← Option.some.inj h]
  · exact nomatch h

/-- Opening the results of a unit takes steps; if there are any, they are open. -/
theorem prepares_openAnalysis (hs : s.Tidy) (file : FileId) :
    Prepares slack s (s.openAnalysis file).2 ∧
      ((s.openAnalysis file).1 = true → ∃ u, (s.openAnalysis file).2.Opened file u) := by
  have h := binds_ensureBound hs file
  have hp : Prepares slack s (s.ensureBound file).2 := prepares_ensureBound hs file
  unfold Session.openAnalysis
  split
  · next r hr =>
    rw [hr] at h hp
    obtain ⟨u, hu, hb⟩ := h.2 rfl
    refine ⟨hp.trans (prepares_enter hu hb), fun _ => ⟨u.evaluating r.generation, ?_, ?_, ?_⟩⟩
    · change (r.modifyUnit file _).unit? file = _
      rw [unit?_modifyUnit_self, hu]
      rfl
    · exact SourceUnit.isBound_evaluating hb _
    · exact SourceUnit.stamp_evaluating (((h.1.tidy hs) file u hu).bound hb).1 _
  · next r hr =>
    rw [hr] at hp
    exact ⟨hp, nofun⟩

end Session
end LiveCheck
