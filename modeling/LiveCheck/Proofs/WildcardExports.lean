import LiveCheck.Proofs.Session.Runs
import LiveCheck.Proofs.Session.WildcardBinding

/-!
# The public names of bound files

As long as no content changes, the public names of every bound file are its own and those of the
files that it takes all names from, restricted to public names, and every file is bound once, whoever
asks for it first. No file may take names from itself, not through others, either.
-/

namespace LiveCheck

/-- The operation changes no content: it chooses roots or asks. -/
def Operation.isQuestion : Operation → Bool
  | .setRoots _ | .flush | .ask _ => true
  | _ => false

namespace Session

variable {w : Workspace} {s t : Session} {file : FileId} {path : String}

/-- The files of a session, and where it looks modules up. -/
def workspace (s : Session) : Workspace := ⟨s.files, s.resolver⟩

/-- The session mirrors the files, no unit is being bound, and nothing changed. -/
private structure AtRest (w : Workspace) (s : Session) : Prop where
  mirrors : s.Mirrors w
  idle : s.inProgress = []
  unchanged : s.hasPendingChanges = false

private theorem atRest_new (options : Options) (files : FileStore) (hostPaths : List String) :
    (Session.new options files hostPaths).AtRest (Session.new options files hostPaths).workspace where
  mirrors :=
    { files := rfl
      resolver := rfl
      indexed := (orderly_after options files hostPaths []).2
      tidy := (orderly_after options files hostPaths []).1
      unit := fun file u hu => by simp [Session.new, Session.unit?] at hu }
  idle := rfl
  unchanged := rfl

private theorem AtRest.waiting (hs : s.AtRest w) : s.Waiting w [] where
  inProgress := by rw [hs.idle]; rfl
  chain := .nil
  contains := nofun

private theorem AtRest.ensureBound (hw : w.Acyclic) (hs : s.AtRest w)
    (hp : s.path? file = some path) :
    (s.ensureBound file).2.Mirrors w ∧
      (w.CanRead path → (s.ensureBound file).1 = true) := by
  apply serves hw s.bindingDepth hs.mirrors hs.waiting hp (.singleton path)
  rw [bindingDepth, hs.mirrors.files]
  simp only [List.length_nil]
  omega

private theorem sustained_atRest (hw : w.Acyclic) : Sustained (AtRest w) where
  bind s file hs := by
    obtain ⟨hbinds, -⟩ := binds_ensureBound hs.mirrors.tidy file
    constructor
    · cases hu : s.unit? file with
      | some u => exact (hs.ensureBound hw (path?_eq_some hu)).1
      | none =>
        have heq : s.ensureBound file = (false, s) := by
          simp [Session.ensureBound, bindingDepth, ensureBoundUpTo, hs.idle, hu]
        rw [heq]
        exact hs.mirrors
    · rw [(completes_ensureBound s file).inProgress, hs.idle]
    · rw [hbinds.rest]
      exact hs.unchanged
  resolve s file dotted level hs := by
    have hstep : BindStep s (s.resolveImport file dotted level).2 := .resolve file dotted level
    constructor
    · cases hu : s.unit? file with
      | some u => exact (hs.mirrors.resolveImport (path?_eq_some hu) dotted level).1
      | none =>
        have heq : s.resolveImport file dotted level = (none, s) := by
          simp [Session.resolveImport, hu]
        rw [heq]
        exact hs.mirrors
    · rw [(completes_resolveImport s file dotted level).inProgress, hs.idle]
    · rw [hstep.rest]
      exact hs.unchanged
  meet s path hs := by
    constructor
    · exact hs.mirrors.unitFor path
    · rw [rest_unitFor]
      exact hs.idle
    · rw [rest_unitFor]
      exact hs.unchanged
  spare s t h hs := by
    constructor
    · exact h.mirrors hs.mirrors
    · rw [h.rest]
      exact hs.idle
    · rw [h.rest]
      exact hs.unchanged

private theorem spares_markChecked (hb : s.IsBound file) : s.Spares (Query.markChecked file s) := by
  have hunit : s.Spares (s.modifyUnit file fun u =>
      { u with
        state := .evaluated true
        stats := { u.stats with checks := u.stats.checks + 1 } }) := by
    apply spares_modifyUnit
    intro u hu
    obtain ⟨v, hv, hbound⟩ := hb
    obtain rfl := Option.some.inj (hu.symm.trans hv)
    exact ⟨rfl, .inr ⟨hbound, rfl⟩, .inl rfl⟩
  exact ⟨rfl, hunit.unit, hunit.unit_back⟩

private theorem Sustained.respected {P : Session → Prop} (h : Sustained P)
    (hrest : ∀ s, P s → s.AtRest w) : Query.Respected P where
  flush s hs := by
    rw [flush_of_not_pending (hrest s hs).unchanged]
    exact hs
  evaluate s hs := by
    obtain ⟨slack, hc⟩ := (hrest s hs).mirrors.tidy.exists_coherent
    exact ⟨slack, hc, fun t ht => ht.sustains _ h hs⟩
  check s file hs hb := h.spare s _ (spares_markChecked hb) hs
  register s target hs := h.spare s _ (spares_of_units rfl) hs

section

variable (hw : w.Acyclic)
include hw

private theorem respected_atRest : Query.Respected (AtRest w) :=
  (sustained_atRest hw).respected fun _ hs => hs

private theorem AtRest.unitsFor (hs : s.AtRest w) (paths : List String) :
    (s.unitsFor paths).2.AtRest w := by
  induction paths generalizing s with
  | nil => exact hs
  | cons path paths ih => exact ih ((sustained_atRest hw).meet s _ hs)

private theorem AtRest.apply (hs : s.AtRest w) {op : Operation} (hop : op.isQuestion = true) :
    (s.apply op).AtRest w := by
  cases op with
  | setRoots paths =>
    have h := hs.unitsFor hw paths
    exact ⟨⟨h.mirrors.files, h.mirrors.resolver, h.mirrors.indexed, h.mirrors.tidy,
      fun file u hu => (h.mirrors.unit file u hu).grows (grows_of_unit? fun _ u hu =>
        ⟨u, hu, rfl, id⟩)⟩, h.idle, h.unchanged⟩
  | flush => exact (respected_atRest hw).flush s hs
  | ask question => exact (respected_atRest hw).asked ((respected_atRest hw).flush s hs) question
  | _ => exact nomatch hop

private theorem AtRest.after (hs : s.AtRest w) {ops : List Operation}
    (hops : ∀ op ∈ ops, op.isQuestion = true) : (s.after ops).AtRest w := by
  induction ops generalizing s with
  | nil => exact hs
  | cons op ops ih =>
    obtain ⟨hop, hops⟩ := List.forall_mem_cons.mp hops
    exact ih (hs.apply hw hop) hops

/-! ## Bound files -/

private theorem sustained_hasBound (path : String) :
    Sustained fun s => s.AtRest w ∧ s.HasBound path where
  bind s file hs := by
    have hgrows := (binds_ensureBound hs.1.mirrors.tidy file).1.grows
    exact ⟨(sustained_atRest hw).bind s file hs.1, hgrows.bound path hs.2⟩
  resolve s file dotted level hs := by
    have hstep : BindStep s (s.resolveImport file dotted level).2 := .resolve file dotted level
    exact ⟨(sustained_atRest hw).resolve s file dotted level hs.1, hstep.grows.bound path hs.2⟩
  meet s other hs :=
    ⟨(sustained_atRest hw).meet s other hs.1, (grows_unitFor s other).bound path hs.2⟩
  spare s t h hs := ⟨(sustained_atRest hw).spare s t h hs.1, h.grows.bound path hs.2⟩

private theorem AtRest.hasBound_typeOfSymbol (hs : s.AtRest w) (hp : s.path? file = some path)
    (hc : w.CanRead path) (name : String) :
    (s.asked (.typeOfSymbol file name)).HasBound path := by
  let P (t : Session) : Prop := t.AtRest w ∧ t.HasBound path
  have hrespected : Query.Respected P := (sustained_hasBound hw path).respected fun _ hs => hs.1
  have hanswer := (hs.ensureBound hw hp).2 hc
  obtain ⟨hbinds, hbound⟩ := binds_ensureBound hs.mirrors.tidy file
  have hprepared : (Query.prepare file).run s = (.ok (), (s.ensureBound file).2) := by
    change (Query.ensureBound file).run s.flush = _
    rw [flush_of_not_pending hs.unchanged, Query.run_ensureBound, hanswer]
    rfl
  have hstart : P (s.ensureBound file).2 :=
    ⟨(sustained_atRest hw).bind s file hs,
      (hbound hanswer).hasBound (hbinds.grows.path? file path hp)⟩
  refine (Query.bind_cases (P := P) ?_ fun _ _ => ?_).2
  · rw [hprepared]
    exact hstart
  · rw [hprepared]
    refine (Query.Keeps.get (P := P)).bind (fun t => ?_) _ hstart
    dsimp only
    split
    · exact (Query.keeps_evaluating hrespected fun _ _ =>
        (Evaluation.sound_symbolType Evaluation.admits_evaluate file _).forget).map _
    · exact .pure _

end

/-! ## Public names -/

/-- The file with the path is bound, and the name is one of its public names. -/
def Publishes (s : Session) (path name : String) : Prop :=
  ∃ file u b, s.unit? file = some u ∧ u.path = path ∧ u.state.isBound = true ∧
    u.binding = some b ∧ name ∈ b.publicSymbols.map (·.1)

private theorem Mirrors.publishes_iff (hs : s.Mirrors w) {name : String}
    (hb : w.CanRead path → s.HasBound path) :
    s.Publishes path name ↔ w.Exports path name := by
  constructor
  · rintro ⟨file, u, b, hu, rfl, hbound, hbinding, hname⟩
    obtain ⟨b', hb', -, hnames⟩ := (hs.unit file u hu).names hbound
    obtain rfl := Option.some.inj (hbinding.symm.trans hb')
    exact (hnames name).mp hname
  · intro hname
    obtain ⟨file, u, hu, rfl, hbound⟩ := hb hname.canRead
    obtain ⟨b, hb, -, hnames⟩ := (hs.unit file u hu).names hbound
    exact ⟨file, u, b, hu, rfl, hbound, hb, (hnames name).mpr hname⟩

private theorem isPublicName_iff {exportList : Option (List String)} {name : String} :
    isPublicName exportList name = true ↔
      name.toList.head? ≠ some '_' ∨ name ∈ exportList.getD [] := by
  simp [isPublicName, or_comm]

/-- As long as no content changes, the public names of a bound file are exactly those that it
declares itself or that are public names of the files it takes all names from, if they do not begin
with an underscore or the file lists them itself; all those files are bound that can be read. So
they are the names that the file exports, whatever was asked before. Every file that is bound was
bound once, and every file that can be read is bound when it is asked for. -/
theorem public_names_of_bound_file (options : Options) (files : FileStore) (hostPaths : List String)
    (ops : List Operation)
    (hacyclic : (Session.new options files hostPaths).workspace.Acyclic)
    (hops : ∀ op ∈ ops, op.isQuestion = true) :
    let w := (Session.new options files hostPaths).workspace
    let s := (Session.new options files hostPaths).after ops
    (∀ file u, s.unit? file = some u → u.state.isBound = true →
      ∃ own b, w.binding? u.path = some own ∧ u.binding = some b ∧
        (∀ target, w.TakesFrom u.path target → w.CanRead target → s.HasBound target) ∧
        ∀ name,
          (name ∈ b.publicSymbols.map (·.1) ↔
            (own.Declares name ∨
                ∃ target, w.TakesFrom u.path target ∧ s.Publishes target name) ∧
              (name.toList.head? ≠ some '_' ∨ name ∈ own.exportList.getD [])) ∧
          (name ∈ b.publicSymbols.map (·.1) ↔ w.Exports u.path name)) ∧
    (∀ file u, s.unit? file = some u →
      u.stats.binds = (if u.state.isBound then 1 else 0) ∧
      (∀ other v, s.unit? other = some v → v.path = u.path → other = file) ∧
      (w.CanRead u.path →
        (s.ensureBound file).1 = true ∧ (s.ensureBound file).2.HasBound u.path)) := by
  intro w s
  have hs : s.AtRest w := (atRest_new options files hostPaths).after hacyclic hops
  constructor
  · intro file u hu hbound
    have hmirrors := hs.mirrors.unit file u hu
    obtain ⟨b, hb, -, hnames⟩ := hmirrors.names hbound
    obtain ⟨tree, htree⟩ := Option.isSome_iff_exists.mp ((hs.mirrors.tidy file u hu).bound hbound).1
    have hseen : u.state ≠ .unseen := by
      intro hstate
      rw [hstate] at hbound
      exact nomatch hbound
    have hown := hmirrors.binding? htree hseen
    have htargets := hmirrors.targets hbound
    refine ⟨tree.bind, b, hown, hb, htargets, fun name => ⟨?_, hnames name⟩⟩
    have htaken : (∃ target, w.TakesFrom u.path target ∧ s.Publishes target name) ↔
        ∃ target, w.TakesFrom u.path target ∧ w.Exports target name :=
      exists_congr fun target => and_congr_right fun ht =>
        hs.mirrors.publishes_iff (htargets target ht)
    rw [hnames, Workspace.exports_iff hown, htaken, isPublicName_iff]
  · intro file u hu
    refine ⟨(hs.mirrors.unit file u hu).binds, fun other v hv hpath => ?_, fun hc => ?_⟩
    · exact hs.mirrors.indexed.eq hv hu hpath
    · have hpath := path?_eq_some hu
      have hanswer := (hs.ensureBound hacyclic hpath).2 hc
      obtain ⟨hbinds, hbound⟩ := binds_ensureBound hs.mirrors.tidy file
      exact ⟨hanswer, (hbound hanswer).hasBound (hbinds.grows.path? file u.path hpath)⟩

/-- Two files take names from the same one, and a third takes names from both. A name that one of
them lists is not public in a file that takes it without listing it, too. -/
theorem public_names_of_diamond :
    let files := FileStore.ofList
      [("base.py", "__all__ = ['_b']\n_b = 1\nb = 3\n"),
        ("left.py", "from base import *\nl = 1\n"),
        ("right.py", "__all__ = ['_b']\nfrom base import *\n"),
        ("top.py", "from left import *\nfrom right import *\n")]
    let w := (Session.new {} files []).workspace
    let ops : List Operation :=
      [.setRoots ["right.py", "top.py"], .ask (.typeOfSymbol 1 "l")]
    let s := (Session.new {} files []).after ops
    w.Acyclic ∧ (∀ op ∈ ops, op.isQuestion = true) ∧
      ∃ file u b, s.unit? file = some u ∧ u.path = "top.py" ∧ u.binding = some b ∧
        u.stats.binds = 1 ∧ s.Publishes "right.py" "_b" ∧ w.TakesFrom "top.py" "right.py" ∧
        "b" ∈ b.publicSymbols.map (·.1) ∧ "_b" ∉ b.publicSymbols.map (·.1) := by
  intro files w ops s
  -- What the texts say, all at once.
  have htexts :
      (w.sources "base.py" = [] ∧ w.sources "left.py" = ["base.py"] ∧
        w.sources "right.py" = ["base.py"] ∧ w.sources "top.py" = ["left.py", "right.py"]) ∧
      (∀ name ∈ ["b", "_b"], (w.binding? "base.py").any (fun b => isPublicName b.exportList name &&
        b.declarations.any fun d => d.scope == 0 && d.name == name) = true) ∧
      (w.binding? "left.py").any (fun b => isPublicName b.exportList "b") = true ∧
      (w.binding? "right.py").any (fun b => isPublicName b.exportList "_b") = true ∧
      (w.binding? "top.py").any (fun b =>
        isPublicName b.exportList "b" && !isPublicName b.exportList "_b") = true := by
    decide +kernel
  obtain ⟨⟨hbase, hleft, hright, htop⟩, hbaseNames, hleftNames, hrightNames, htopNames⟩ := htexts
  have hkeys : w.files.files.keys = ["base.py", "left.py", "right.py", "top.py"] := by
    decide +kernel
  have hacyclic : w.Acyclic := by
    apply Workspace.acyclic_of_rank fun path =>
      if path = "base.py" then 0 else if path = "top.py" then 2 else 1
    simp [hkeys, hbase, hleft, hright, htop]
  have hops : ∀ op ∈ ops, op.isQuestion = true := by decide
  have hpath : ((Session.new {} files []).after [.setRoots ["right.py", "top.py"]]).path? 1 =
      some "top.py" := by decide +kernel
  have hroots : ∀ op ∈ [Operation.setRoots ["right.py", "top.py"]], op.isQuestion = true := by
    decide
  have hrest := (atRest_new {} files []).after hacyclic hroots
  have hs : s.HasBound "top.py" :=
    hrest.hasBound_typeOfSymbol hacyclic hpath ⟨"from left import *\nfrom right import *\n", by decide +kernel⟩ "l"
  have htakesLeft : w.TakesFrom "top.py" "left.py" := by simp [Workspace.takesFrom_iff, htop]
  have htakesRight : w.TakesFrom "top.py" "right.py" := by simp [Workspace.takesFrom_iff, htop]
  have hleftTakes : w.TakesFrom "left.py" "base.py" := by simp [Workspace.takesFrom_iff, hleft]
  have hrightTakes : w.TakesFrom "right.py" "base.py" := by simp [Workspace.takesFrom_iff, hright]
  have hexported (name : String) (h : name ∈ ["b", "_b"]) : w.Exports "base.py" name := by
    obtain ⟨b, hb, h⟩ := (Option.any_eq_true _ _).mp (hbaseNames name h)
    simp only [Bool.and_eq_true, Array.any_eq_true', beq_iff_eq] at h
    exact .own hb h.2 h.1
  obtain ⟨left, hleftBinding, hleftPublic⟩ := (Option.any_eq_true _ _).mp hleftNames
  obtain ⟨right, hrightBinding, hrightPublic⟩ := (Option.any_eq_true _ _).mp hrightNames
  obtain ⟨top, htopBinding, htopPublic⟩ := (Option.any_eq_true _ _).mp htopNames
  rw [Bool.and_eq_true, Bool.not_eq_true'] at htopPublic
  obtain ⟨file, u, hu, hup, hbound⟩ := hs
  obtain ⟨hexports, hbinds⟩ := public_names_of_bound_file {} files [] ops hacyclic hops
  obtain ⟨own, b, hown, hb, hbounds, hnames⟩ := hexports file u hu hbound
  rw [hup] at hown hbounds hnames
  refine ⟨hacyclic, hops, file, u, b, hu, hup, hb, ?_, ?_, htakesRight, ?_, ?_⟩
  · rw [(hbinds file u hu).1, hbound]
    rfl
  · have hmirrors := ((atRest_new {} files []).after hacyclic hops).mirrors
    rw [hmirrors.publishes_iff (hbounds "right.py" htakesRight)]
    exact .taken hrightBinding hrightTakes (hexported "_b" (by simp)) hrightPublic
  · rw [(hnames "b").2]
    have hleftExports : w.Exports "left.py" "b" :=
      .taken hleftBinding hleftTakes (hexported "b" (by simp)) hleftPublic
    exact .taken htopBinding htakesLeft hleftExports htopPublic.1
  · rw [(hnames "_b").1, ← isPublicName_iff]
    obtain rfl := Option.some.inj (hown.symm.trans htopBinding)
    simp [htopPublic.2]

end Session
end LiveCheck
