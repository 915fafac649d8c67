import LiveCheck.Proofs.Scope.PublicNames
import LiveCheck.Proofs.Session.Completion

/-!
# The names that files export

Which names a file exports is a matter of the files alone: its own public names, and those that the
files export that it takes all names from. A session mirrors its workspace if what its units
hold is what the files say: every bound unit was bound once, exports these names, and the units that
it takes names from are bound.
-/

namespace LiveCheck

/-- Files, and where modules are looked up among them. -/
structure Workspace where
  /-- The files. -/
  files : FileStore
  /-- Where modules are looked up. -/
  resolver : Resolver

variable {dotted : String} {level : Nat}

namespace Workspace

variable {w : Workspace} {path target name : String} {b : Binding}

/-- The names that the text of a file declares itself. -/
def binding? (w : Workspace) (path : String) : Option Binding :=
  (w.files.read? path).map fun content => (parse content).tree.bind

/-- The file that an import leads to. -/
def target? (w : Workspace) (importer dotted : String) (level : Nat) : Option String :=
  w.resolver.resolve? w.files.contains importer dotted level

/-- A file takes all names from another one: one of its imports is `from m import *`, and it leads
there. -/
def TakesFrom (w : Workspace) (path target : String) : Prop :=
  ∃ b record, w.binding? path = some b ∧ record ∈ b.imports ∧ record.wildcard = true ∧
    w.target? path record.path record.level = some target

/-- No file takes names from itself, not through others, either. -/
def Acyclic (w : Workspace) : Prop := ∀ path, ¬ Relation.TransGen w.TakesFrom path path

/-- A file exports a name: the name is public, and the file declares it or takes it from a file that
exports it. -/
inductive Exports (w : Workspace) : String → String → Prop
  | own {path name : String} {b : Binding} (hb : w.binding? path = some b) (h : b.Declares name)
    (hname : isPublicName b.exportList name = true) : Exports w path name
  | taken {path target name : String} {b : Binding} (hb : w.binding? path = some b)
    (ht : w.TakesFrom path target) (h : Exports w target name)
    (hname : isPublicName b.exportList name = true) : Exports w path name

/-- The defining equation of exports. -/
theorem exports_iff (hb : w.binding? path = some b) :
    w.Exports path name ↔
      (b.Declares name ∨ ∃ target, w.TakesFrom path target ∧ w.Exports target name) ∧
        isPublicName b.exportList name = true := by
  constructor
  · intro h
    cases h with
    | own hb' h hname =>
      obtain rfl := Option.some.inj (hb.symm.trans hb')
      exact ⟨.inl h, hname⟩
    | taken hb' ht h hname =>
      obtain rfl := Option.some.inj (hb.symm.trans hb')
      exact ⟨.inr ⟨_, ht, h⟩, hname⟩
  · rintro ⟨h | ⟨target, ht, h⟩, hname⟩
    · exact .own hb h hname
    · exact .taken hb ht h hname

/-- A file that can be read. -/
def CanRead (w : Workspace) (path : String) : Prop := ∃ content, w.files.read? path = some content

/-- A file that can be read is there. -/
theorem CanRead.contains (h : w.CanRead path) : w.files.contains path = true := by
  obtain ⟨content, hread⟩ := h
  have hentry : w.files.files[path]? = some (some content) := Option.join_eq_some_iff.mp hread
  rw [FileStore.contains, Std.TreeMap.contains_eq_isSome_getElem?, hentry]
  rfl

/-- Only a file that can be read exports names. -/
theorem Exports.canRead (h : w.Exports path name) : w.CanRead path := by
  obtain ⟨b, hb⟩ : ∃ b, w.binding? path = some b := by
    cases h with
    | own hb => exact ⟨_, hb⟩
    | taken hb => exact ⟨_, hb⟩
  obtain ⟨content, hread, -⟩ := Option.map_eq_some_iff.mp hb
  exact ⟨content, hread⟩

/-- The files that a file takes names from, in the order of its imports. -/
def sources (w : Workspace) (path : String) : List String :=
  (w.binding? path).elim [] fun b => b.imports.toList.filterMap fun record =>
    if record.wildcard then w.target? path record.path record.level else none

theorem takesFrom_iff : w.TakesFrom path target ↔ target ∈ w.sources path := by
  cases hb : w.binding? path with
  | none => simp [TakesFrom, sources, hb]
  | some b => simp [TakesFrom, sources, hb]

/-- If every file takes names only from files below it, then none takes names from itself. -/
theorem acyclic_of_rank (rank : String → Nat)
    (h : ∀ path ∈ w.files.files.keys, ∀ target ∈ w.sources path, rank target < rank path) :
    w.Acyclic := by
  have hstep (path target : String) (ht : w.TakesFrom path target) : rank target < rank path := by
    obtain ⟨b, record, hb, -⟩ := id ht
    obtain ⟨content, hread, -⟩ := Option.map_eq_some_iff.mp hb
    apply h path _ target (takesFrom_iff.mp ht)
    exact Std.TreeMap.mem_keys.mpr
      (Std.TreeMap.contains_iff_mem.mp (CanRead.contains ⟨content, hread⟩))
  have hchain (path target : String) (ht : Relation.TransGen w.TakesFrom path target) :
      rank target < rank path := by
    induction ht with
    | single ht => exact hstep _ _ ht
    | tail _ ht ih => exact Nat.lt_trans (hstep _ _ ht) ih
  exact fun path ht => Nat.lt_irrefl _ (hchain path path ht)

/-- Files that do not repeat are no more than there are. -/
theorem length_le_size {paths : List String} (hn : paths.Nodup)
    (h : ∀ path ∈ paths, w.files.contains path = true) : paths.length ≤ w.files.size := by
  have hsub : paths ⊆ w.files.files.keys := fun path hp =>
    Std.TreeMap.mem_keys.mpr (Std.TreeMap.contains_iff_mem.mp (h path hp))
  have hle := (hn.subperm hsub).length_le
  rwa [Std.TreeMap.length_keys] at hle

end Workspace

/-! ## Sessions that say what the files say -/

variable {w : Workspace} {s t : Session} {file : FileId} {path content : String}

namespace Session

/-- A unit with the path is bound. -/
def HasBound (s : Session) (path : String) : Prop :=
  ∃ file u, s.unit? file = some u ∧ u.path = path ∧ u.state.isBound = true

/-- Units stay where they are, and bound ones stay bound. -/
structure Grows (s t : Session) : Prop where
  path? : ∀ file path, s.path? file = some path → t.path? file = some path
  bound : ∀ path, s.HasBound path → t.HasBound path

theorem Grows.refl (s : Session) : s.Grows s := ⟨fun _ _ h => h, fun _ h => h⟩

theorem Grows.trans {r : Session} (h : s.Grows t) (h' : t.Grows r) : s.Grows r :=
  ⟨fun file path hp => h'.path? file path (h.path? file path hp),
    fun path hb => h'.bound path (h.bound path hb)⟩

private theorem Grows.map_path? (h : s.Grows t) {target : Option FileId} {path : Option String}
    (hp : target.map s.path? = path.map some) : target.map t.path? = path.map some := by
  cases target with
  | none => exact hp
  | some file =>
    cases path with
    | none => exact nomatch hp
    | some path =>
      have hp : s.path? file = some path := Option.some.inj hp
      simp [h.path? file path hp]

theorem grows_of_unit? (h : ∀ file u, s.unit? file = some u →
    ∃ v, t.unit? file = some v ∧ v.path = u.path ∧
      (u.state.isBound = true → v.state.isBound = true)) : s.Grows t where
  path? file path hp := by
    obtain ⟨u, hu, rfl⟩ := Option.map_eq_some_iff.mp hp
    obtain ⟨v, hv, hpath, -⟩ := h file u hu
    rw [path?_eq_some hv, hpath]
  bound path hb := by
    obtain ⟨file, u, hu, rfl, hbound⟩ := hb
    obtain ⟨v, hv, hpath, hkept⟩ := h file u hu
    exact ⟨file, v, hv, hpath, hkept hbound⟩

private theorem BindChange.path_isBound {u v : SourceUnit} (h : BindChange s file u v) :
    v.path = u.path ∧ (u.state.isBound = true → v.state.isBound = true) := by
  cases h with
  | cache entries => exact ⟨rfl, id⟩
  | parse hs hc =>
    refine ⟨rfl, fun hb => ?_⟩
    rcases hs with hs | hs <;> rw [hs] at hb <;> exact nomatch hb
  | discard hs => exact ⟨rfl, id⟩
  | bind binding hb => exact ⟨rfl, fun _ => rfl⟩

theorem BindStep.grows (h : BindStep s t) : s.Grows t :=
  grows_of_unit? fun _ _ hu => (h.unit?_of_some hu).imp fun _ hv => ⟨hv.1, hv.2.path_isBound⟩

theorem Binds.grows (h : Binds s t) : s.Grows t :=
  h.induct (P := s.Grows) (fun _ _ hstep hs => hs.trans hstep.grows) (.refl s)

theorem Spares.grows (h : s.Spares t) : s.Grows t := by
  refine grows_of_unit? fun file u hu => ?_
  obtain ⟨v, hv, hsame⟩ := h.unit file u hu
  exact ⟨v, hv, by rw [hsame.rest], fun hb => hsame.isBound.trans hb⟩

end Session

/-- What a unit holds is what the files say. -/
structure SourceUnit.Mirrors (w : Workspace) (s : Session) (u : SourceUnit) : Prop where
  overlay : u.overlay = none
  notStale : ∀ reason, u.state ≠ .stale reason
  read : u.state ≠ .unseen →
    ∃ content, w.files.read? u.path = some content ∧ u.tree = some (parse content).tree
  binds : u.stats.binds = if u.state.isBound then 1 else 0
  cache : ∀ dotted level target, u.importCache.lookup (dotted, level) = some target →
    target.map s.path? = (w.target? u.path dotted level).map some
  names : u.state.isBound = true → ∃ b, u.binding = some b ∧ u.publicSymbols = b.publicSymbols ∧
    ∀ name, name ∈ b.publicSymbols.map (·.1) ↔ w.Exports u.path name
  targets : u.state.isBound = true →
    ∀ target, w.TakesFrom u.path target → w.CanRead target → s.HasBound target

namespace SourceUnit.Mirrors

variable {u v : SourceUnit}

theorem grows (hu : u.Mirrors w s) (h : s.Grows t) : u.Mirrors w t where
  overlay := hu.overlay
  notStale := hu.notStale
  read := hu.read
  binds := hu.binds
  cache dotted level target hc := h.map_path? (hu.cache dotted level target hc)
  names := hu.names
  targets hb target ht hr := h.bound target (hu.targets hb target ht hr)

private theorem unseenUnit (s : Session) (path : String) : (s.unseenUnit path).Mirrors w t where
  overlay := rfl
  notStale _ := nofun
  read h := absurd rfl h
  binds := rfl
  cache _ _ _ h := nomatch h
  names h := nomatch h
  targets h := nomatch h

/-- The tree of a unit is that of its file. -/
theorem binding? (hu : u.Mirrors w s) {tree : Tree} (ht : u.tree = some tree)
    (hs : u.state ≠ .unseen) : w.binding? u.path = some tree.bind := by
  obtain ⟨content, hread, htree⟩ := hu.read hs
  obtain rfl := Option.some.inj (ht.symm.trans htree)
  rw [Workspace.binding?, hread]
  rfl

private theorem parsed (hu : u.Mirrors w s) (hc : w.files.read? u.path = some content)
    (hs : u.state = .unseen) (word : UInt64) : (u.parsed content word).Mirrors w t where
  overlay := hu.overlay
  notStale _ := nofun
  read _ := ⟨content, hc, rfl⟩
  binds := by
    have hbinds := hu.binds
    rw [hs] at hbinds
    exact hbinds
  cache _ _ _ h := nomatch h
  names h := nomatch h
  targets h := nomatch h

private theorem cached (hu : u.Mirrors w s) {target : Option FileId}
    (h : target.map s.path? = (w.target? u.path dotted level).map some) :
    ({ u with importCache := ((dotted, level), target) :: u.importCache } : SourceUnit).Mirrors
      w s where
  overlay := hu.overlay
  notStale := hu.notStale
  read := hu.read
  binds := hu.binds
  cache dotted' level' target' hc := by
    rw [List.lookup_cons] at hc
    split at hc
    · next heq =>
      obtain ⟨rfl, rfl⟩ := Prod.mk.inj (beq_iff_eq.mp heq)
      obtain rfl := Option.some.inj hc
      exact h
    · exact hu.cache dotted' level' target' hc
  names := hu.names
  targets := hu.targets

private theorem sameNames (hu : u.Mirrors w s) (h : u.SameNames v) : v.Mirrors w s := by
  have hstate {state : UnitState} (hb : state.isBound = false) (hv : v.state = state) :
      u.state = state := (h.state_eq (by rw [hv, hb])).symm.trans hv
  have hunseen (hn : v.state ≠ .unseen) : u.state ≠ .unseen := by
    intro hs
    rcases h.state with hv | ⟨hb, -⟩
    · exact hn (hv.trans hs)
    · rw [hs] at hb
      exact nomatch hb
  rw [h.rest]
  exact
    { overlay := hu.overlay
      notStale := fun reason hv => hu.notStale reason (hstate rfl hv)
      read := fun hn => hu.read (hunseen hn)
      binds := by
        rw [h.isBound]
        exact hu.binds
      cache := hu.cache
      names := fun hb => hu.names (h.isBound ▸ hb)
      targets := fun hb => hu.targets (h.isBound ▸ hb) }

end SourceUnit.Mirrors

namespace Session

/-- What the units of a session hold is what the files say. -/
structure Mirrors (w : Workspace) (s : Session) : Prop where
  files : s.files = w.files
  resolver : s.resolver = w.resolver
  indexed : s.Indexed
  tidy : s.Tidy
  unit : ∀ file u, s.unit? file = some u → u.Mirrors w s

private theorem Mirrors.bindStep (hs : s.Mirrors w) (h : BindStep s t)
    (hunit : ∀ file v, t.unit? file = some v → s.unit? file = some v ∨ v.Mirrors w t) :
    t.Mirrors w where
  files := by rw [h.rest, hs.files]
  resolver := by rw [h.rest, hs.resolver]
  indexed := h.indexed hs.indexed
  tidy := h.tidy hs.tidy
  unit file v hv := by
    rcases hunit file v hv with hu | hv
    · exact (hs.unit file v hu).grows h.grows
    · exact hv

variable {f : SourceUnit → SourceUnit}

private theorem Mirrors.modifyUnit (hs : s.Mirrors w)
    (hpath : ∀ u, s.unit? file = some u → (f u).path = u.path)
    (htidy : ∀ u, s.unit? file = some u → (f u).Tidy)
    (hunit : ∀ u, s.unit? file = some u → (f u).Mirrors w (s.modifyUnit file f))
    (hgrows : s.Grows (s.modifyUnit file f)) : (s.modifyUnit file f).Mirrors w where
  files := hs.files
  resolver := hs.resolver
  indexed := Indexed.modifyUnit file f hs.indexed hpath
  tidy := hs.tidy.modifyUnit htidy
  unit other v hv := by
    obtain ⟨u, hu, ⟨rfl, rfl⟩ | ⟨-, rfl⟩⟩ := unit?_modifyUnit_eq_some hv
    · exact hunit u hu
    · exact (hs.unit other v hu).grows hgrows

private theorem Mirrors.overlay_none (hs : s.Mirrors w) (path : String) :
    ((s.find? path).bind s.unit?).any (·.overlay.isSome) = false := by
  cases h : (s.find? path).bind s.unit? with
  | none => rfl
  | some u =>
    obtain ⟨file, -, hu⟩ := Option.bind_eq_some_iff.mp h
    simp [(hs.unit file u hu).overlay]

private theorem Mirrors.pathExists (hs : s.Mirrors w) : s.pathExists = w.files.contains := by
  funext path
  rw [Session.pathExists, hs.files, hs.overlay_none, Bool.false_or]

theorem Mirrors.content? (hs : s.Mirrors w) (hp : s.path? file = some path) :
    s.content? file = w.files.read? path := by
  obtain ⟨u, hu, rfl⟩ := Option.map_eq_some_iff.mp hp
  rw [Session.content?, hu, Option.bind_some, (hs.unit file u hu).overlay, hs.files]
  rfl

/-! ## Steps of binding -/

theorem grows_unitFor (s : Session) (path : String) : s.Grows (s.unitFor path).2 :=
  grows_of_unit? fun _ u hu => ⟨u, unit?_unitFor_of_some path hu, rfl, id⟩

theorem Mirrors.unitFor (hs : s.Mirrors w) (path : String) : (s.unitFor path).2.Mirrors w where
  files := by rw [rest_unitFor, hs.files]
  resolver := by rw [rest_unitFor, hs.resolver]
  indexed := Indexed.unitFor path hs.indexed
  tidy := hs.tidy.unitFor path
  unit file v hv := by
    rw [unit?_unitFor] at hv
    split at hv
    · obtain rfl := Option.some.inj hv
      exact .unseenUnit s path
    · exact (hs.unit file v hv).grows (grows_unitFor s path)

private theorem path?_unitFor (hs : s.Indexed) (path : String) :
    (s.unitFor path).2.path? (s.unitFor path).1 = some path := by
  cases h : s.find? path with
  | some file =>
    rw [unitFor_of_find? file h]
    exact (hs path file).mp h
  | none =>
    rw [path?, unit?_unitFor, unitFor_of_not_find? h, if_pos ⟨h, rfl⟩]
    rfl

private theorem grows_modifyUnit (hpath : ∀ u, s.unit? file = some u → (f u).path = u.path)
    (hbound : ∀ u, s.unit? file = some u → u.state.isBound = true → (f u).state.isBound = true) :
    s.Grows (s.modifyUnit file f) := by
  refine grows_of_unit? fun other u hu => ?_
  rw [unit?_modifyUnit, hu]
  split
  · next h =>
    subst h
    exact ⟨f u, rfl, hpath u hu, hbound u hu⟩
  · exact ⟨u, rfl, rfl, id⟩

private theorem Mirrors.unitForOption (hs : s.Mirrors w) (found : Option String) :
    (s.unitForOption found).2.Mirrors w ∧ s.Grows (s.unitForOption found).2 ∧
      (s.unitForOption found).1.map (s.unitForOption found).2.path? = found.map some := by
  cases found with
  | none => exact ⟨hs, .refl s, rfl⟩
  | some path =>
    refine ⟨hs.unitFor path, grows_unitFor s path, ?_⟩
    exact congrArg some (path?_unitFor hs.indexed path)

/-- Looking up an import finds the file that it leads to, and keeps the answer. -/
theorem Mirrors.resolveImport (hs : s.Mirrors w) (hp : s.path? file = some path)
    (dotted : String) (level : Nat) :
    (s.resolveImport file dotted level).2.Mirrors w ∧
      (s.resolveImport file dotted level).1.map (s.resolveImport file dotted level).2.path? =
        (w.target? path dotted level).map some := by
  obtain ⟨u, hu, rfl⟩ := Option.map_eq_some_iff.mp hp
  cases hc : u.importCache.lookup (dotted, level) with
  | some known =>
    have heq : s.resolveImport file dotted level = (known, s) := by
      simp [Session.resolveImport, hu, hc]
    rw [heq]
    exact ⟨hs, (hs.unit file u hu).cache dotted level known hc⟩
  | none =>
    let found := s.resolver.resolve? s.pathExists u.path dotted level
    let keep (target : Option FileId) (v : SourceUnit) : SourceUnit :=
      { v with importCache := ((dotted, level), target) :: v.importCache }
    have hfound : found = w.target? u.path dotted level := by
      simp only [found, hs.pathExists, hs.resolver, Workspace.target?]
    have heq : s.resolveImport file dotted level = ((s.unitForOption found).1,
        (s.unitForOption found).2.modifyUnit file (keep (s.unitForOption found).1)) := by
      simp [Session.resolveImport, hu, hc, found, keep]
    obtain ⟨ht, hgrows, htarget⟩ := hs.unitForOption found
    rw [heq, ← hfound]
    generalize s.unitForOption found = made at *
    have hkept : made.2.Grows (made.2.modifyUnit file (keep made.1)) :=
      grows_modifyUnit (fun _ _ => rfl) fun _ _ => id
    refine ⟨ht.modifyUnit (fun _ _ => rfl) (fun v hv => (ht.tidy file v hv).ofImportCache _)
      (fun v hv => ?_) hkept, hkept.map_path? htarget⟩
    have hpath : v.path = u.path := by
      have hv' := hgrows.path? file u.path (path?_eq_some hu)
      rw [path?_eq_some hv] at hv'
      exact Option.some.inj hv'
    refine ((ht.unit file v hv).cached ?_).grows hkept
    rw [hpath, ← hfound, htarget]

/-- A unit that was never seen gets the tree of its file. -/
theorem Mirrors.parseUnit (hs : s.Mirrors w) {u : SourceUnit} (hu : s.unit? file = some u)
    (hstate : u.state = .unseen) (hc : w.files.read? u.path = some content) :
    (s.parseUnit file content).Mirrors w := by
  have hcontent : s.content? file = some content := (hs.content? (path?_eq_some hu)).trans hc
  refine hs.bindStep (.parse hu (.inl hstate) hcontent) fun other v hv => ?_
  rw [parseUnit_eq hu] at hv
  obtain ⟨u', hu', ⟨rfl, rfl⟩ | ⟨-, rfl⟩⟩ := unit?_modifyUnit_eq_some (s := s) hv
  · obtain rfl := Option.some.inj (hu.symm.trans hu')
    exact .inr ((hs.unit other u hu).parsed hc hstate _)
  · exact .inl hu'

theorem Mirrors.binding (hs : s.Mirrors w) (file : FileId) : (s.binding file).Mirrors w :=
  hs.bindStep (.begin file) fun _ _ hv => .inl hv

/-- A parsed unit gets a binding that exports what the file exports. -/
theorem Mirrors.bindWith (hs : s.Mirrors w) {u : SourceUnit} (hu : s.unit? file = some u)
    (hstate : u.state = .parsed) {b : Binding}
    (hnames : ∀ name, name ∈ b.publicSymbols.map (·.1) ↔ w.Exports u.path name)
    (htargets : ∀ target, w.TakesFrom u.path target → w.CanRead target → s.HasBound target)
    (targets : List FileId) : (s.bindWith file b targets).Mirrors w := by
  have hmirrors := hs.unit file u hu
  have hstep : BindStep s (s.bindWith file b targets) :=
    .bind b targets hu ((hs.tidy file u hu).blank hstate)
  refine hs.bindStep hstep fun other v hv => ?_
  rw [unit?_bindWith] at hv
  obtain ⟨u', hu', ⟨rfl, rfl⟩ | ⟨-, rfl⟩⟩ := unit?_modifyUnit_eq_some hv
  · obtain rfl := Option.some.inj (hu.symm.trans hu')
    refine .inr (SourceUnit.Mirrors.grows (s := s) ?_ hstep.grows)
    exact
      { overlay := hmirrors.overlay
        notStale := fun _ => nofun
        read := fun _ => hmirrors.read (by rw [hstate]; nofun)
        binds := by
          have hbinds := hmirrors.binds
          rw [hstate] at hbinds
          exact congrArg (· + 1) hbinds
        cache := hmirrors.cache
        names := fun _ => ⟨b, rfl, rfl, hnames⟩
        targets := fun _ => htargets }
  · exact .inl hu'

theorem Spares.mirrors (h : s.Spares t) (hs : s.Mirrors w) : t.Mirrors w where
  files := by rw [h.rest, hs.files]
  resolver := by rw [h.rest, hs.resolver]
  indexed := by
    refine hs.indexed.congr (by rw [h.rest]) fun file => ?_
    cases hv : t.unit? file with
    | some v =>
      obtain ⟨u, hu, hsame⟩ := h.unit_back file v hv
      rw [path?_eq_some hv, path?_eq_some hu, hsame.rest]
    | none =>
      cases hu : s.unit? file with
      | none => rw [path?, path?, hu, hv]
      | some u =>
        obtain ⟨v, hv', -⟩ := h.unit file u hu
        rw [hv] at hv'
        cases hv'
  tidy file v hv := by
    obtain ⟨u, hu, hsame⟩ := h.unit_back file v hv
    exact hsame.tidy (hs.tidy file u hu)
  unit file v hv := by
    obtain ⟨u, hu, hsame⟩ := h.unit_back file v hv
    exact ((hs.unit file u hu).sameNames hsame).grows h.grows

end Session
end LiveCheck
