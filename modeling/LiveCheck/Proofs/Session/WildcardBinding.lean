import LiveCheck.Proofs.Session.Workspace
import Mathlib.Data.List.Chain

/-!
# Binding along wildcard imports

While a unit is being bound, the units are brought up to date that it takes all names from, and while
that is done, the unit is left alone. If no file takes names from itself, not through others, either,
then the units that are being bound are different files at any time. So there is always room for one
more, none is met again, and every unit is bound to the names that its file exports.
-/

namespace LiveCheck

private theorem Workspace.Acyclic.nodup {w : Workspace} {paths : List String} (hw : w.Acyclic)
    (h : paths.IsChain (Function.swap w.TakesFrom)) : paths.Nodup := by
  have hchain : paths.IsChain (Relation.TransGen (Function.swap w.TakesFrom)) :=
    h.imp fun _ _ => .single
  refine hchain.pairwise.imp fun hab heq => ?_
  subst heq
  exact hw _ (Relation.transGen_swap.mp hab)

namespace Session

open Workspace

variable {w : Workspace} {s t : Session} {file other target : FileId} {path name : String}
  {paths : List String} {fuel index : Nat} {own b : Binding} {done indices : List Nat} {tree : Tree}
  {record : ImportRecord}

/-! ## A unit that is being bound is left alone -/

private theorem IsParsed.resolveImport (h : s.IsParsed file) (importer : FileId) (dotted : String)
    (level : Nat) : (s.resolveImport importer dotted level).2.IsParsed file := by
  obtain ⟨u, hu, hstate⟩ := h
  have hstep : BindStep s (s.resolveImport importer dotted level).2 := .resolve importer dotted level
  obtain ⟨v, hv, -⟩ := hstep.unit?_of_some hu
  obtain ⟨u', cache, hu', rfl⟩ | ⟨path, cache, hn, -⟩ := unit?_resolveImport hv
  · obtain rfl := Option.some.inj (hu.symm.trans hu')
    exact ⟨_, hv, hstate⟩
  · rw [hu] at hn
    exact nomatch hn

private theorem IsParsed.of_unit? (h : s.IsParsed file) (hu : t.unit? file = s.unit? file) :
    t.IsParsed file := by
  obtain ⟨u, hu', hstate⟩ := h
  exact ⟨u, hu.trans hu', hstate⟩

private theorem unit?_parseUnit_of_ne (hne : other ≠ file) (content : String) :
    (s.parseUnit file content).unit? other = s.unit? other := by
  cases hu : s.unit? file with
  | none => simp [parseUnit, hu]
  | some u =>
    rw [parseUnit_eq hu]
    exact unit?_modifyUnit_of_ne s file _ hne

private theorem IsParsed.bind_other {ensure : Binder} (hc : CompletesOnly ensure)
    (he : ∀ s other, file ∈ s.inProgress → s.IsParsed file → (ensure s other).2.IsParsed file)
    (h : s.IsParsed file) (hfile : file ∈ s.inProgress) (hne : file ≠ other) :
    (bindUnit ensure s other).2.IsParsed file := by
  cases htree : (s.unit? other).bind (·.tree) with
  | none => simpa [bindUnit, htree] using h
  | some tree =>
    obtain ⟨u, hu, ht⟩ := Option.bind_eq_some_iff.mp htree
    obtain ⟨r, binding, targets, hkept, heq⟩ := bindUnit_eq ensure hu ht
    have hr := hkept (fun r => file ∈ r.inProgress ∧ r.IsParsed file)
      { resolve := fun r dotted level hr =>
          ⟨(completes_resolveImport r other dotted level).inProgress ▸ hr.1,
            hr.2.resolveImport other dotted level⟩
        ensure := fun r target hr =>
          ⟨(hc r target).inProgress ▸ hr.1, he r target hr.1 hr.2⟩ }
      ⟨List.mem_cons_of_mem other hfile, h⟩
    rw [heq]
    apply hr.2.of_unit?
    rw [unit?_bindWith]
    exact unit?_modifyUnit_of_ne r other _ hne

private theorem IsParsed.ensure_other (h : s.IsParsed file) (hfile : file ∈ s.inProgress)
    (fuel : Nat)
    (other : FileId) : (ensureBoundUpTo fuel s other).2.IsParsed file := by
  induction fuel generalizing s other with
  | zero => exact h
  | succ fuel ih =>
    have hbind (r : Session) (hr : r.IsParsed file) (hr' : file ∈ r.inProgress)
        (hne : file ≠ other) : (bindUnit (ensureBoundUpTo fuel) r other).2.IsParsed file :=
      hr.bind_other (completes_ensureBoundUpTo fuel) (fun _ other hf hp => ih hp hf other) hr' hne
    have hparse (content : String) (hne : file ≠ other) :
        (bindUnit (ensureBoundUpTo fuel) (s.parseUnit other content) other).2.IsParsed
          file := by
      apply hbind _ (h.of_unit? (unit?_parseUnit_of_ne hne content)) _ hne
      cases hu : s.unit? other with
      | none => simpa [parseUnit, hu] using hfile
      | some u =>
        rw [parseUnit_eq hu]
        exact hfile
    simp only [ensureBoundUpTo]
    split
    · exact h
    · next hother =>
      have hne : file ≠ other := by
        rintro rfl
        simp [hfile] at hother
      split
      · exact h
      · exact h
      · exact h
      · exact hbind s h hfile hne
      · exact hbind _ (h.of_unit? (unit?_modifyUnit_of_ne s other _ hne)) hfile hne
      all_goals
        split
        · exact hparse _ hne
        · exact h

/-! ## The units that are being bound -/

/-- The units that are being bound, the innermost first, have these paths. Each takes names from the
one before it. -/
structure Waiting (w : Workspace) (s : Session) (paths : List String) : Prop where
  inProgress : s.inProgress.map s.path? = paths.map some
  chain : paths.IsChain (Function.swap w.TakesFrom)
  contains : ∀ path ∈ paths, w.files.contains path = true

private theorem Waiting.of_grows (h : s.Waiting w paths) (hg : s.Grows t)
    (hp : t.inProgress = s.inProgress) : t.Waiting w paths where
  inProgress := by
    rw [hp, ← h.inProgress]
    apply List.map_congr_left
    intro file hfile
    have hmem : s.path? file ∈ paths.map some := by
      rw [← h.inProgress]
      exact List.mem_map_of_mem hfile
    obtain ⟨path, -, hpath⟩ := List.mem_map.mp hmem
    rw [← hpath, hg.path? file path hpath.symm]
  chain := h.chain
  contains := h.contains

private theorem Waiting.length_le (hw : w.Acyclic) (h : s.Waiting w paths) :
    paths.length ≤ w.files.size :=
  length_le_size (hw.nodup h.chain) h.contains

private theorem Waiting.notMem (hw : w.Acyclic) (h : s.Waiting w paths)
    (hp : s.path? file = some path)
    (hchain : (path :: paths).IsChain (Function.swap w.TakesFrom)) : file ∉ s.inProgress := by
  intro hfile
  have hmem : s.path? file ∈ paths.map some := by
    rw [← h.inProgress]
    exact List.mem_map_of_mem hfile
  rw [hp, List.mem_map_of_injective (fun _ _ => Option.some.inj)] at hmem
  exact (List.nodup_cons.mp (hw.nodup hchain)).1 hmem

/-! ## Collecting names -/

private def Leads (w : Workspace) (own : Binding) (path : String) (indices : List Nat)
    (target : String) :
    Prop :=
  ∃ index ∈ indices, ∃ record, own.imports[index]? = some record ∧
    w.target? path record.path record.level = some target

private theorem leads_iff (hown : w.binding? path = some tree.bind) {target : String} :
    Leads w tree.bind path tree.bind.wildcards.toList target ↔ w.TakesFrom path target := by
  simp only [Leads, Array.mem_toList_iff, tree.mem_wildcards]
  constructor
  · rintro ⟨index, ⟨record, hrecord, hwild⟩, record', hrecord', htarget⟩
    obtain rfl := Option.some.inj (hrecord.symm.trans hrecord')
    exact ⟨_, record, hown, Array.mem_of_getElem? hrecord, hwild, htarget⟩
  · rintro ⟨b, record, hb, hmem, hwild, htarget⟩
    obtain rfl := Option.some.inj (hown.symm.trans hb)
    obtain ⟨index, hrecord⟩ := Array.mem_iff_getElem?.mp hmem
    exact ⟨index, ⟨record, hrecord, hwild⟩, record, hrecord, htarget⟩

private theorem leads_append {target : String} (hrecord : own.imports[index]? = some record) :
    Leads w own path (indices ++ [index]) target ↔
      Leads w own path indices target ∨ w.target? path record.path record.level = some target := by
  simp only [Leads, List.mem_append, List.mem_singleton]
  constructor
  · rintro ⟨i, hi | rfl, record', hrecord', htarget⟩
    · exact .inl ⟨i, hi, record', hrecord', htarget⟩
    · obtain rfl := Option.some.inj (hrecord.symm.trans hrecord')
      exact .inr htarget
  · rintro (⟨i, hi, h⟩ | htarget)
    · exact ⟨i, .inl hi, h⟩
    · exact ⟨index, .inr rfl, record, hrecord, htarget⟩

/-- The names so far, while a file is being bound: its own, and those that the files export that
some of its imports lead to. -/
private structure Collects (w : Workspace) (file : FileId) (path : String) (paths : List String)
    (own : Binding) (done : List Nat) (b : Binding) (s : Session) : Prop where
  mirrors : s.Mirrors w
  waiting : s.Waiting w (path :: paths)
  inProgress : file ∈ s.inProgress
  isParsed : s.IsParsed file
  path? : s.path? file = some path
  exporting : b.Exporting
  imports : b.imports = own.imports
  exportList : b.exportList = own.exportList
  declares : ∀ name, b.Declares name ↔
    own.Declares name ∨ ∃ target, Leads w own path done target ∧ w.Exports target name
  bound : ∀ target, Leads w own path done target → w.CanRead target → s.HasBound target

private theorem Mirrors.mem_publicNames (hs : s.Mirrors w) (hb : s.IsBound file)
    (hp : s.path? file = some path) : name ∈ s.publicNames file ↔ w.Exports path name := by
  obtain ⟨u, hu, hbound⟩ := hb
  obtain ⟨b, -, hpublic, hnames⟩ := (hs.unit file u hu).names hbound
  rw [path?_eq_some hu] at hp
  obtain rfl := Option.some.inj hp
  rw [publicNames, hu, Option.elim_some, hpublic]
  exact hnames name

theorem IsBound.hasBound (hb : s.IsBound file) (hp : s.path? file = some path) :
    s.HasBound path := by
  obtain ⟨u, hu, hbound⟩ := hb
  rw [path?_eq_some hu] at hp
  exact ⟨file, u, hu, Option.some.inj hp, hbound⟩

/-- Up to some number of units deep, units can be brought up to date: the session mirrors the files
behind it, and a unit whose file can be read is bound. -/
def Serves (w : Workspace) (fuel : Nat) : Prop :=
  ∀ {s : Session} {file : FileId} {path : String} {paths : List String}, s.Mirrors w →
    s.Waiting w paths → s.path? file = some path →
    (path :: paths).IsChain (Function.swap w.TakesFrom) → w.files.size < fuel + paths.length →
    (ensureBoundUpTo fuel s file).2.Mirrors w ∧
      (w.CanRead path → (ensureBoundUpTo fuel s file).1 = true)

private theorem Collects.addWildcard (hserves : Serves w fuel)
    (hsize : w.files.size < fuel + (path :: paths).length)
    (h : Collects w file path paths own done b s) (hown : w.binding? path = some own)
    (hrecord : own.imports[index]? = some record) (hwild : record.wildcard = true) :
    let next := addWildcard (ensureBoundUpTo fuel) file (b, s) index
    Collects w file path paths own (done ++ [index]) next.1 next.2 := by
  have hstep : BindStep s (s.resolveImport file record.path record.level).2 :=
    .resolve file record.path record.level
  have hcompletes := completes_resolveImport s file record.path record.level
  have hresolved := h.mirrors.resolveImport h.path? record.path record.level
  have hparsed := h.isParsed.resolveImport file record.path record.level
  have hrecord' : b.imports[index]? = some record := by rw [h.imports, hrecord]
  cases hr : s.resolveImport file record.path record.level with
  | mk found t =>
  rw [hr] at hstep hcompletes hresolved hparsed
  have hwaiting := h.waiting.of_grows hstep.grows hcompletes.inProgress
  have hmem : file ∈ t.inProgress := hcompletes.inProgress ▸ h.inProgress
  have hpath := hstep.grows.path? file path h.path?
  cases found with
  | none =>
    have hnone : w.target? path record.path record.level = none := by simpa using hresolved.2.symm
    have hleads (target : String) :
        Leads w own path (done ++ [index]) target ↔ Leads w own path done target := by
      rw [leads_append hrecord, hnone]
      simp
    have heq : Session.addWildcard (ensureBoundUpTo fuel) file (b, s) index = (b, t) := by
      simp [Session.addWildcard, hrecord', hr]
    rw [heq]
    exact
      { mirrors := hresolved.1
        waiting := hwaiting
        inProgress := hmem
        isParsed := hparsed
        path? := hpath
        exporting := h.exporting
        imports := h.imports
        exportList := h.exportList
        declares := by simpa [hleads] using h.declares
        bound := fun target ht hread =>
          hstep.grows.bound target (h.bound target ((hleads target).mp ht) hread) }
  | some target =>
    obtain ⟨found, hfound, htarget⟩ :
        ∃ found, w.target? path record.path record.level = some found ∧
          t.path? target = some found := by
      have hmap := hresolved.2
      cases hw : w.target? path record.path record.level with
      | none => simp [hw] at hmap
      | some found => exact ⟨found, rfl, by simpa [hw] using hmap⟩
    have htakes : w.TakesFrom path found :=
      ⟨own, record, hown, Array.mem_of_getElem? hrecord, hwild, hfound⟩
    obtain ⟨hmirrors, hanswer⟩ := hserves hresolved.1 hwaiting htarget
      (List.isChain_cons_cons.mpr ⟨htakes, hwaiting.chain⟩) hsize
    obtain ⟨hbinds, hbound⟩ := binds_ensureBoundUpTo fuel hresolved.1.tidy target
    have hprogress := (completes_ensureBoundUpTo fuel t target).inProgress
    have hkept := hparsed.ensure_other hmem fuel target
    cases he : ensureBoundUpTo fuel t target with
    | mk answer r =>
    rw [he] at hmirrors hanswer hbinds hbound hprogress hkept
    have htarget := hbinds.grows.path? target found htarget
    have hgrows := hstep.grows.trans hbinds.grows
    have hleads (other : String) :
        Leads w own path (done ++ [index]) other ↔ Leads w own path done other ∨ found = other := by
      rw [leads_append hrecord, hfound, Option.some.injEq]
    cases answer with
    | false =>
    -- The file found cannot be read, so nothing comes of the import.
    have hread : ¬ w.CanRead found := fun h => Bool.noConfusion (hanswer h)
    have heq : Session.addWildcard (ensureBoundUpTo fuel) file (b, s) index = (b, r) := by
      simp [Session.addWildcard, hrecord', hr, he]
    rw [heq]
    exact
      { mirrors := hmirrors
        waiting := hwaiting.of_grows hbinds.grows hprogress
        inProgress := hprogress ▸ hmem
        isParsed := hkept
        path? := hbinds.grows.path? file path hpath
        exporting := h.exporting
        imports := h.imports
        exportList := h.exportList
        declares := fun name => by
          have hnone : ¬ w.Exports found name := fun h => hread h.canRead
          simp only [h.declares, hleads, or_and_right, exists_or, exists_eq_left', hnone, or_false]
        bound := fun other hother hcan => by
          rcases (hleads other).mp hother with hother | rfl
          · exact hgrows.bound other (h.bound other hother hcan)
          · exact absurd hcan hread }
    | true =>
    have hbound := hbound rfl
    have heq : Session.addWildcard (ensureBoundUpTo fuel) file (b, s) index =
        (b.addWildcardNames index (r.publicNames target), r) := by
      simp [Session.addWildcard, hrecord', hr, he]
    have hnames := Binding.bringsIn_addWildcardNames h.exporting hrecord' (r.publicNames target)
    rw [heq]
    exact
      { mirrors := hmirrors
        waiting := hwaiting.of_grows hbinds.grows hprogress
        inProgress := hprogress ▸ hmem
        isParsed := hkept
        path? := hbinds.grows.path? file path hpath
        exporting := hnames.exporting
        imports := hnames.imports.trans h.imports
        exportList := hnames.exportList.trans h.exportList
        declares := fun name => by
          rw [hnames.declares, h.declares, hmirrors.mem_publicNames hbound htarget]
          simp only [hleads, or_and_right, exists_or, exists_eq_left', or_assoc]
        bound := fun other hother hcan => by
          rcases (hleads other).mp hother with hother | rfl
          · exact hgrows.bound other (h.bound other hother hcan)
          · exact hbound.hasBound htarget }

private theorem Collects.addWildcards (hserves : Serves w fuel)
    (hsize : w.files.size < fuel + (path :: paths).length) (hown : w.binding? path = some own)
    (hindices : ∀ index ∈ indices, ∃ record,
      own.imports[index]? = some record ∧ record.wildcard = true)
    (h : Collects w file path paths own done b s) :
    let all := indices.foldl (Session.addWildcard (ensureBoundUpTo fuel) file) (b, s)
    Collects w file path paths own (done ++ indices) all.1 all.2 := by
  induction indices generalizing done b s with
  | nil => simpa using h
  | cons index rest ih =>
    obtain ⟨record, hrecord, hwild⟩ := hindices index List.mem_cons_self
    have hfirst := h.addWildcard hserves hsize hown hrecord hwild
    have hrest := ih (fun other hother => hindices other (List.mem_cons_of_mem index hother)) hfirst
    simpa using hrest

private theorem Collects.exports (hown : w.binding? path = some tree.bind)
    (h : Collects w file path paths tree.bind tree.bind.wildcards.toList b s) :
    name ∈ b.publicSymbols.map (·.1) ↔ w.Exports path name := by
  rw [h.exporting.mem_publicSymbols, h.declares, h.exportList, exports_iff hown]
  simp only [leads_iff hown]

/-! ## Binding a unit -/

private theorem Mirrors.resolveImports (hs : s.Mirrors w) (hp : s.path? file = some path)
    (hparsed : s.IsParsed file) (imports : List (String × Nat)) :
    (s.resolveImports file imports).2.Mirrors w ∧ s.Grows (s.resolveImports file imports).2 ∧
      (s.resolveImports file imports).2.IsParsed file := by
  induction imports generalizing s with
  | nil => exact ⟨hs, .refl s, hparsed⟩
  | cons entry rest ih =>
    obtain ⟨dotted, level⟩ := entry
    have hstep : BindStep s (s.resolveImport file dotted level).2 := .resolve file dotted level
    have hrest := ih (hs.resolveImport hp dotted level).1 (hstep.grows.path? file path hp)
      (hparsed.resolveImport file dotted level)
    exact ⟨hrest.1, hstep.grows.trans hrest.2.1, hrest.2.2⟩

private theorem bindUnit_of_tree (ensure : Binder) (h : (s.unit? file).bind (·.tree) = some tree) :
    ∃ mentioned targets, ∃ named : Binding × Session,
      named = tree.bind.wildcards.toList.foldl (Session.addWildcard ensure file)
        (tree.bind, s.binding file) ∧
      bindUnit ensure s file =
        (true, (named.2.resolveImports file mentioned).2.bindWith file named.1 targets) := by
  simp only [bindUnit, h]
  generalize tree.bind = own
  let named := own.wildcards.toList.foldl (Session.addWildcard ensure file) (own, s.binding file)
  let mentioned := named.1.imports.toList.flatMap ImportRecord.mentioned
  exact ⟨mentioned, (named.2.resolveImports file mentioned).1, named, rfl, rfl⟩

private theorem Mirrors.bindUnit (hserves : Serves w fuel) (hs : s.Mirrors w)
    (hwaiting : s.Waiting w paths) {u : SourceUnit} (hu : s.unit? file = some u)
    (hstate : u.state = .parsed) (hchain : (u.path :: paths).IsChain (Function.swap w.TakesFrom))
    (hsize : w.files.size < fuel + 1 + paths.length) :
    (bindUnit (ensureBoundUpTo fuel) s file).2.Mirrors w ∧
      (bindUnit (ensureBoundUpTo fuel) s file).1 = true := by
  have hseen : u.state ≠ .unseen := by rw [hstate]; nofun
  obtain ⟨tree, htree⟩ := Option.isSome_iff_exists.mp ((hs.tidy file u hu).parsed hstate).1
  have hown : w.binding? u.path = some tree.bind := (hs.unit file u hu).binding? htree hseen
  have hcontains : w.files.contains u.path = true := by
    obtain ⟨content, hread, -⟩ := (hs.unit file u hu).read hseen
    exact CanRead.contains ⟨content, hread⟩
  have hsize : w.files.size < fuel + (u.path :: paths).length := by
    rw [List.length_cons]
    omega
  have hstart : Collects w file u.path paths tree.bind [] tree.bind (s.binding file) :=
    { mirrors := hs.binding file
      waiting :=
        { inProgress := by
            change s.path? file :: s.inProgress.map s.path? = _
            rw [path?_eq_some hu, hwaiting.inProgress]
            rfl
          chain := hchain
          contains := List.forall_mem_cons.mpr ⟨hcontains, hwaiting.contains⟩ }
      inProgress := List.mem_cons_self
      isParsed := ⟨u, hu, hstate⟩
      path? := path?_eq_some hu
      exporting := tree.exporting_bind
      imports := rfl
      exportList := rfl
      declares := by simp [Leads]
      bound := by simp [Leads] }
  have hindices : ∀ index ∈ tree.bind.wildcards.toList, ∃ record,
      tree.bind.imports[index]? = some record ∧ record.wildcard = true :=
    fun index hindex => tree.mem_wildcards.mp (Array.mem_toList_iff.mp hindex)
  have hall := hstart.addWildcards hserves hsize hown hindices
  have hfound : (s.unit? file).bind (·.tree) = some tree := by rw [hu, Option.bind_some, htree]
  obtain ⟨mentioned, targets, named, hnamed, heq⟩ :=
    bindUnit_of_tree (ensureBoundUpTo fuel) hfound
  rw [← hnamed, List.nil_append] at hall
  obtain ⟨hmirrors, hgrows, v, hv, hparsed⟩ :=
    hall.mirrors.resolveImports hall.path? hall.isParsed mentioned
  have hpath : v.path = u.path := by
    have hkept := hgrows.path? file u.path hall.path?
    rw [path?_eq_some hv] at hkept
    exact Option.some.inj hkept
  rw [heq]
  refine ⟨hmirrors.bindWith hv hparsed (fun name => ?_) (fun target ht hread => ?_) targets, rfl⟩
  · rw [hpath]
    exact hall.exports hown
  · rw [hpath] at ht
    exact hgrows.bound target (hall.bound target ((leads_iff hown).mpr ht) hread)

/-- Units can be brought up to date to any depth, because there is always room for one more. -/
theorem serves (hw : w.Acyclic) (fuel : Nat) : Serves w fuel := by
  induction fuel with
  | zero =>
    intro s file path paths hs hwaiting hp hchain hsize
    have hle := hwaiting.length_le hw
    omega
  | succ fuel ih =>
    intro s file path paths hs hwaiting hp hchain hsize
    have hmem : s.inProgress.contains file = false := by
      simpa using hwaiting.notMem hw hp hchain
    obtain ⟨u, hu, rfl⟩ := Option.map_eq_some_iff.mp hp
    have hmirrors := hs.unit file u hu
    simp only [ensureBoundUpTo, hmem, hu, Option.map_some]
    cases hstate : u.state with
    | unseen =>
      simp only [hs.content? hp]
      cases hread : w.files.read? u.path with
      | none =>
        refine ⟨hs, fun hc => ?_⟩
        obtain ⟨content, hread'⟩ := hc
        rw [hread] at hread'
        cases hread'
      | some content =>
        have hnext := hs.parseUnit hu hstate hread
        have hwaiting : (s.parseUnit file content).Waiting w paths := by
          refine hwaiting.of_grows (BindStep.grows (.parse hu (.inl hstate) ?_)) ?_
          · rw [hs.content? hp, hread]
          · rw [parseUnit_eq hu]
            rfl
        have h := hnext.bindUnit ih hwaiting (unit?_parseUnit hu content) rfl hchain hsize
        exact ⟨h.1, fun _ => h.2⟩
    | parsed =>
      have h := hs.bindUnit ih hwaiting hu hstate hchain hsize
      exact ⟨h.1, fun _ => h.2⟩
    | bound => exact ⟨hs, fun _ => rfl⟩
    | evaluated complete => exact ⟨hs, fun _ => rfl⟩
    | stale reason => exact absurd hstate (hmirrors.notStale reason)

end Session
end LiveCheck
