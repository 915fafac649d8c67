import LiveCheck.Proofs.Scope.PublicNames
import LiveCheck.Proofs.BindingOnDemand

/-!
# What is bound on demand

Bringing a unit up to date binds the units that it takes all names from, the units that these take
all names from, and so on, as far as they are not bound already. Every other unit is left exactly as
it was.
-/

namespace LiveCheck

private theorem Binding.imports_addWildcardNames (b : Binding) (index : Nat) (names : List String) :
    (b.addWildcardNames index names).imports = b.imports := by
  unfold addWildcardNames
  split
  · next record hrecord =>
    clear hrecord
    induction names generalizing b with
    | nil => rfl
    | cons name names ih =>
      rw [List.foldl_cons, ih, addWildcardName, moduleSymbol_eq]
      exact (rest_symbolFor b 0 false name).2.2.1
  · rfl

namespace Session

variable {s t r : Session} {file importer target : FileId} {asked : FileId → Prop} {u : SourceUnit}

/-! ## Looking up an import -/

/-- Looking up an import leaves the units as they were whose numbers have been given, but for the cache
of the importing one. -/
theorem unit?_resolveImport_of_ne {dotted : String} {level : Nat} (hlt : file < s.units.size)
    (hne : file ≠ importer) :
    (s.resolveImport importer dotted level).2.unit? file = s.unit? file := by
  obtain he | ⟨r, entry, rfl | ⟨path, rfl⟩, he⟩ := resolveImport_cases s importer dotted level
  · rw [he]
  · rw [he, unit?_modifyUnit_of_ne _ _ _ hne]
  · rw [he, unit?_modifyUnit_of_ne _ _ _ hne, unit?_unitFor, if_neg fun h => Nat.ne_of_lt hlt h.2]

/-- An import that was looked up stays known, and others become so only where they were not. -/
theorem lookup_resolveImport (hu : s.unit? file = some u) (dotted : String) (level : Nat) :
    ∃ entries,
      (s.resolveImport file dotted level).2.unit? file = some { u with importCache := entries } ∧
      entries.lookup (dotted, level) = some (s.resolveImport file dotted level).1 ∧
      ∀ key known, u.importCache.lookup key = some known → entries.lookup key = some known := by
  cases hknown : u.importCache.lookup (dotted, level) with
  | some known =>
    have heq : s.resolveImport file dotted level = (known, s) := by
      simp [resolveImport, hu, hknown]
    rw [heq]
    exact ⟨u.importCache, hu, hknown, fun _ _ h => h⟩
  | none =>
    let found := s.unitForOption (s.resolver.resolve? s.pathExists u.path dotted level)
    have heq : s.resolveImport file dotted level = (found.1, found.2.modifyUnit file fun u =>
        { u with importCache := ((dotted, level), found.1) :: u.importCache }) := by
      simp [resolveImport, hu, hknown, found]
    have hfound : found.2.unit? file = some u := by
      change (s.unitForOption (s.resolver.resolve? s.pathExists u.path dotted level)).2.unit? file = _
      cases s.resolver.resolve? s.pathExists u.path dotted level with
      | none => exact hu
      | some path => exact unit?_unitFor_of_some path hu
    rw [heq]
    refine ⟨((dotted, level), found.1) :: u.importCache, ?_, by simp, fun key known h => ?_⟩
    · rw [unit?_modifyUnit_self, hfound, Option.map_some]
    · rw [List.lookup_cons]
      split
      · next hkey =>
        rw [beq_iff_eq.mp hkey, hknown] at h
        exact absurd h.symm (Option.some_ne_none known)
      · exact h

/-! ## Units that names are taken from -/

/-- Among some imports of a unit there is one of all names, and it is known to lead to another
unit. -/
def LeadsTo (s : Session) (file : FileId) (imports : Array ImportRecord) (target : FileId) : Prop :=
  ∃ record ∈ imports, record.wildcard = true ∧ ∃ u, s.unit? file = some u ∧
    u.importCache.lookup (record.path, record.level) = some (some target)

/-- A unit that has a binding takes all names from another unit. -/
def TakesNames (s : Session) (file target : FileId) : Prop :=
  ∃ u b, s.unit? file = some u ∧ u.binding = some b ∧ s.LeadsTo file b.imports target

/-- A unit is bound on the way from one session to another. -/
def BoundIn (s t : Session) (file : FileId) : Prop := s.bindCount file < t.bindCount file

/-- A unit that is bound on the way takes all names from this unit. -/
def TakenIn (s t : Session) (target : FileId) : Prop :=
  ∃ file, s.BoundIn t file ∧ t.TakesNames file target

/-- What is asked for is bound, with the units that names are taken from meanwhile, and all other
units are left exactly as they were. -/
structure Demands (s t : Session) (asked : FileId → Prop) : Prop where
  furthers : s.Furthers t
  unit : ∀ file u, s.unit? file = some u →
    t.unit? file = some u ∨ s.BoundIn t file ∧ (asked file ∨ s.TakenIn t file)

theorem bindCount_eq (hu : s.unit? file = some u) :
    s.bindCount file = u.stats.binds := by
  rw [bindCount, hu]
  rfl

private theorem Furthers.bindCount_le (h : s.Furthers t) (file : FileId) :
    s.bindCount file ≤ t.bindCount file := by
  rcases h.once file with heq | ⟨-, -, -, heq⟩ <;> omega

private theorem Furthers.boundIn (h : s.Furthers t) (hb : s.BoundIn t file) :
    ¬ s.IsBound file ∧ file ∉ s.inProgress ∧ t.IsBound file := by
  rcases h.once file with heq | ⟨hn, hfile, hbound, -⟩
  · exact absurd heq (Nat.ne_of_gt hb)
  · exact ⟨hn, hfile, hbound⟩

private theorem BoundIn.trans_furthers (hb : s.BoundIn t file) (h : t.Furthers r) :
    s.BoundIn r file :=
  Nat.lt_of_lt_of_le hb (h.bindCount_le file)

private theorem Furthers.boundIn_trans (h : s.Furthers t) (hb : t.BoundIn r file) :
    s.BoundIn r file :=
  Nat.lt_of_le_of_lt (h.bindCount_le file) hb

private theorem LeadsTo.of_unit? {imports : Array ImportRecord} (h : s.LeadsTo file imports target)
    (hunit : t.unit? file = s.unit? file) : t.LeadsTo file imports target := by
  obtain ⟨record, hrecord, hwildcard, u, hu, hlookup⟩ := h
  exact ⟨record, hrecord, hwildcard, u, hunit.trans hu, hlookup⟩

private theorem TakesNames.of_unit? (h : s.TakesNames file target)
    (hunit : t.unit? file = s.unit? file) :
    t.TakesNames file target := by
  obtain ⟨u, b, hu, hb, hleads⟩ := h
  exact ⟨u, b, hunit.trans hu, hb, hleads.of_unit? hunit⟩

private theorem Furthers.takenIn_trans (h : s.Furthers t) (ht : t.TakenIn r target) :
    s.TakenIn r target := by
  obtain ⟨file, hb, htakes⟩ := ht
  exact ⟨file, h.boundIn_trans hb, htakes⟩

private theorem TakenIn.trans_furthers (ht : s.TakenIn t target) (htr : t.Furthers r)
    (hsame : ∀ file, s.BoundIn t file → r.unit? file = t.unit? file) : s.TakenIn r target := by
  obtain ⟨file, hb, htakes⟩ := ht
  exact ⟨file, hb.trans_furthers htr, htakes.of_unit? (hsame file hb)⟩

theorem Demands.refl (s : Session) (asked : FileId → Prop) : s.Demands s asked :=
  ⟨.refl s, fun _ _ hu => .inl hu⟩

theorem Demands.imp {asked' : FileId → Prop} (h : s.Demands t asked)
    (hasked : ∀ file, asked file → asked' file) : s.Demands t asked' where
  furthers := h.furthers
  unit file u hu := (h.unit file u hu).imp_right fun h => ⟨h.1, h.2.imp_left (hasked file)⟩

private theorem Demands.unit?_eq (h : s.Demands t asked) (hb : s.IsBound file ∨ file ∈ s.inProgress)
    (hu : s.unit? file = some u) : t.unit? file = some u := by
  refine (h.unit file u hu).resolve_right fun hbound => ?_
  obtain ⟨hn, hfile, -⟩ := h.furthers.boundIn hbound.1
  exact hb.elim hn hfile

private theorem Demands.unit?_of_isBound (h : s.Demands t asked) (hb : s.IsBound file) :
    t.unit? file = s.unit? file := by
  obtain ⟨u, hu, -⟩ := id hb
  rw [hu]
  exact h.unit?_eq (.inl hb) hu

theorem Demands.trans (h : s.Demands t asked) (h' : t.Demands r asked) : s.Demands r asked where
  furthers := h.furthers.trans h'.furthers
  unit file u hu := by
    rcases h.unit file u hu with hsame | ⟨hbound, hreason⟩
    · refine (h'.unit file u hsame).imp_right fun ⟨hb, hreason⟩ => ?_
      exact ⟨h.furthers.boundIn_trans hb, hreason.imp_right h.furthers.takenIn_trans⟩
    · refine .inr ⟨hbound.trans_furthers h'.furthers, hreason.imp_right fun ht => ?_⟩
      refine ht.trans_furthers h'.furthers fun other hb => ?_
      exact h'.unit?_of_isBound (h.furthers.boundIn hb).2.2

/-! ## On the way to the binding of a unit -/

/-- While a unit is being bound, other units are left as they were, or they are bound because names
are taken from them. -/
private structure Gathers (origin : Session) (file : FileId) (imports : Array ImportRecord)
    (s : Session) :
    Prop where
  tidy : s.Tidy
  furthers : origin.Furthers s
  unit : ∀ other u, other ≠ file → origin.unit? other = some u → s.unit? other = some u ∨
    origin.BoundIn s other ∧ (s.LeadsTo file imports other ∨ origin.TakenIn s other)

variable {origin : Session} {imports : Array ImportRecord} {ensure : Binder} {b : Binding}

private theorem Gathers.step (h : Gathers origin file imports s) (hfile : file ∈ origin.inProgress)
    (htidy : t.Tidy) (hfurthers : s.Furthers t)
    (hleads : ∀ target, s.LeadsTo file imports target → t.LeadsTo file imports target)
    (hunit : ∀ other u, other ≠ file → s.unit? other = some u → t.unit? other = some u ∨
      s.BoundIn t other ∧ (t.LeadsTo file imports other ∨ s.TakenIn t other)) :
    Gathers origin file imports t where
  tidy := htidy
  furthers := h.furthers.trans hfurthers
  unit other u hne hu := by
    rcases h.unit other u hne hu with hsame | ⟨hbound, hreason⟩
    · refine (hunit other u hne hsame).imp_right fun ⟨hb, hreason⟩ => ?_
      exact ⟨h.furthers.boundIn_trans hb, hreason.imp_right h.furthers.takenIn_trans⟩
    · refine .inr ⟨hbound.trans_furthers hfurthers, hreason.imp (hleads other) fun ht => ?_⟩
      refine ht.trans_furthers hfurthers fun importer hb => ?_
      -- What was bound on the way is not the unit that is being bound.
      obtain ⟨-, hbegun, hbound⟩ := h.furthers.boundIn hb
      obtain ⟨v, hv, hstate⟩ := hbound
      have himporter : importer ≠ file := fun heq => hbegun (heq ▸ hfile)
      rw [hv]
      refine (hunit importer v himporter hv).resolve_right fun hagain => ?_
      exact (hfurthers.boundIn hagain.1).1 ⟨v, hv, hstate⟩

private theorem Gathers.resolveImport (h : Gathers origin file imports s)
    (hfile : file ∈ origin.inProgress)
    (dotted : String) (level : Nat) :
    Gathers origin file imports (s.resolveImport file dotted level).2 := by
  have hstep : BindStep s (s.resolveImport file dotted level).2 := .resolve file dotted level
  refine h.step hfile (hstep.tidy h.tidy) (furthers_resolveImport s file dotted level) ?_
    fun other u hne hu => .inl ((unit?_resolveImport_of_ne (lt_size_of_unit? hu) hne).trans hu)
  rintro target ⟨record, hrecord, hwildcard, u, hu, hlookup⟩
  obtain ⟨entries, hunit, -, hkeeps⟩ := lookup_resolveImport hu dotted level
  exact ⟨record, hrecord, hwildcard, _, hunit, hkeeps _ _ hlookup⟩

private theorem Gathers.resolveImports (h : Gathers origin file imports s)
    (hfile : file ∈ origin.inProgress) (entries : List (String × Nat)) :
    Gathers origin file imports (s.resolveImports file entries).2 := by
  induction entries generalizing s with
  | nil => exact h
  | cons entry entries ih => exact ih (h.resolveImport hfile entry.1 entry.2)

/-- Whatever a function does that brings other units up to date, it does on demand. -/
structure DemandsOnly (ensure : Binder) : Prop where
  furthers : FurthersOnly ensure
  binds : BindsOnly ensure
  demands : ∀ (s : Session) (target : FileId), s.Tidy → s.Demands (ensure s target).2 (· = target)

private theorem Gathers.ensured (h : Gathers origin file imports s)
    (hfile : file ∈ origin.inProgress)
    (he : DemandsOnly ensure) (hleads : s.LeadsTo file imports target) :
    Gathers origin file imports (ensure s target).2 := by
  have hdemands := he.demands s target h.tidy
  have htidy := (he.binds s target h.tidy).tidy h.tidy
  have hbegun : file ∈ s.inProgress := h.furthers.inProgress ▸ hfile
  have hstays (other : FileId) (hl : s.LeadsTo file imports other) :
      (ensure s target).2.LeadsTo file imports other := by
    obtain ⟨-, -, -, u, hu, -⟩ := id hl
    exact hl.of_unit? ((hdemands.unit?_eq (.inr hbegun) hu).trans hu.symm)
  refine h.step hfile htidy hdemands.furthers hstays fun other u _ hu => ?_
  refine (hdemands.unit other u hu).imp_right fun ⟨hb, hreason⟩ => ⟨hb, hreason.imp_left ?_⟩
  rintro rfl
  exact hstays other hleads

private theorem Gathers.addWildcard (h : Gathers origin file imports s)
    (hfile : file ∈ origin.inProgress)
    (hunit : (origin.unit? file).isSome = true) (he : DemandsOnly ensure) (hb : b.imports = imports)
    {index : Nat} {record : ImportRecord} (hrecord : imports[index]? = some record)
    (hwildcard : record.wildcard = true) :
    (Session.addWildcard ensure file (b, s) index).1.imports = imports ∧
      Gathers origin file imports (Session.addWildcard ensure file (b, s) index).2 := by
  have hr := h.resolveImport hfile record.path record.level
  obtain ⟨u, hu⟩ := Option.isSome_iff_exists.mp (h.furthers.present file hunit)
  obtain ⟨entries, hcached, hlookup, -⟩ := lookup_resolveImport hu record.path record.level
  simp only [Session.addWildcard, hb, hrecord]
  split
  · next r hresolve =>
    rw [hresolve] at hr
    exact ⟨hb, hr⟩
  · next target r hresolve =>
    rw [hresolve] at hr hcached hlookup
    have ht := hr.ensured hfile he
      ⟨record, Array.mem_of_getElem? hrecord, hwildcard, _, hcached, hlookup⟩
    split
    · next t hensure =>
      rw [hensure] at ht
      exact ⟨(b.imports_addWildcardNames index _).trans hb, ht⟩
    · next t hensure =>
      rw [hensure] at ht
      exact ⟨hb, ht⟩

private theorem Gathers.addWildcards (h : Gathers origin file imports s)
    (hfile : file ∈ origin.inProgress)
    (hunit : (origin.unit? file).isSome = true) (he : DemandsOnly ensure) (hb : b.imports = imports)
    (indices : List Nat)
    (hindices : ∀ index ∈ indices, ∃ record, imports[index]? = some record ∧ record.wildcard = true)
    :
    (indices.foldl (Session.addWildcard ensure file) (b, s)).1.imports = imports ∧
      Gathers origin file imports (indices.foldl (Session.addWildcard ensure file) (b, s)).2 := by
  induction indices generalizing s b with
  | nil => exact ⟨hb, h⟩
  | cons index indices ih =>
    obtain ⟨⟨record, hrecord, hwildcard⟩, hrest⟩ := List.forall_mem_cons.mp hindices
    obtain ⟨himports, hnext⟩ := h.addWildcard hfile hunit he hb hrecord hwildcard
    exact ih hnext himports hrest

/-! ## Binding a unit -/

private theorem Gathers.demands {targets : List FileId}
    (h : Gathers (s.binding file) file b.imports t)
    (hunit : (s.unit? file).isSome = true) (hfurthers : s.Furthers (t.bindWith file b targets)) :
    s.Demands (t.bindWith file b targets) (· = file) := by
  obtain ⟨v, hv⟩ := Option.isSome_iff_exists.mp (h.furthers.present file hunit)
  have hown : (t.bindWith file b targets).unit? file = some (v.bound b t.generation) := by
    rw [unit?_bindWith, unit?_modifyUnit_self, hv, Option.map_some]
  have hother {other : FileId} (hne : other ≠ file) :
      (t.bindWith file b targets).unit? other = t.unit? other := by
    rw [unit?_bindWith, unit?_modifyUnit_of_ne t file _ hne]
  have hbound {other : FileId} (hb : (s.binding file).BoundIn t other) :
      s.BoundIn (t.bindWith file b targets) other ∧ other ≠ file := by
    have hne : other ≠ file := fun heq => (h.furthers.boundIn hb).2.1 (heq ▸ List.mem_cons_self)
    refine ⟨?_, hne⟩
    rw [BoundIn, bindCount, bindCount, hother hne]
    exact hb
  have hfile : s.BoundIn (t.bindWith file b targets) file := by
    have hle : s.bindCount file ≤ v.stats.binds := bindCount_eq hv ▸ h.furthers.bindCount_le file
    rw [BoundIn, bindCount_eq hown]
    exact Nat.lt_succ_of_le hle
  refine ⟨hfurthers, fun other u hu => ?_⟩
  by_cases hne : other = file
  · subst hne
    exact .inr ⟨hfile, .inl rfl⟩
  · rw [hother hne]
    refine (h.unit other u hne hu).imp_right fun hread => ⟨(hbound hread.1).1, .inr ?_⟩
    rcases hread.2 with ⟨record, hrecord, hwildcard, w, hw, hlookup⟩ | ⟨importer, himporter, htakes⟩
    · obtain rfl := Option.some.inj (hw.symm.trans hv)
      exact ⟨file, hfile, _, b, hown, rfl, record, hrecord, hwildcard, _, hown, hlookup⟩
    · obtain ⟨hbound, himporter⟩ := hbound himporter
      exact ⟨importer, hbound, htakes.of_unit? (hother himporter)⟩

/-- Binding a unit binds the units that it takes names from, and leaves all others as they were. -/
theorem demands_bindUnit (he : DemandsOnly ensure) (hs : s.Tidy) (hfile : file ∉ s.inProgress)
    (hn : ¬ s.IsBound file) (hu : s.unit? file = some u) (hblank : u.Blank) :
    s.Demands (bindUnit ensure s file).2 (· = file) := by
  have hfurthers := furthers_bindUnit he.furthers hfile hn
  obtain ⟨tree, ht⟩ := Option.isSome_iff_exists.mp hblank.1
  have htree : (s.unit? file).bind (·.tree) = some tree := by rw [hu]; exact ht
  simp only [bindUnit, htree] at hfurthers ⊢
  have hbegun : file ∈ (s.binding file).inProgress := List.mem_cons_self
  have hpresent : (s.unit? file).isSome = true := Option.isSome_of_eq_some hu
  have hstart : Gathers (s.binding file) file tree.bind.imports (s.binding file) :=
    ⟨hs, .refl _, fun _ _ _ h => .inl h⟩
  obtain ⟨himports, hnamed⟩ := hstart.addWildcards hbegun hpresent he rfl
    tree.bind.wildcards.toList fun index h => tree.mem_wildcards.mp (Array.mem_toList_iff.mp h)
  rw [Session.binding] at himports hnamed
  generalize List.foldl (addWildcard ensure file) _ _ = named at *
  rw [← himports] at hnamed
  exact (hnamed.resolveImports hbegun _).demands hpresent hfurthers

private theorem Readies.demands (h : s.Readies file t) (hr : t.Demands r (· = file))
    (hb : r.IsBound file) : s.Demands r (· = file) := by
  refine ⟨h.furthers.trans hr.furthers, fun other u hu => ?_⟩
  by_cases hne : other = file
  · subst hne
    obtain ⟨v, hv, hn, -⟩ := h.unit
    have hbound : t.BoundIn r other := by
      refine ((hr.unit other v hv).resolve_left fun hsame => ?_).1
      exact not_isBound_of_state (by rw [hsame, Option.map_some]) hn hb
    exact .inr ⟨h.furthers.boundIn_trans hbound, .inl rfl⟩
  · refine (hr.unit other u ((h.others other hne).trans hu)).imp_right fun ⟨hb, hreason⟩ => ?_
    exact ⟨h.furthers.boundIn_trans hb, hreason.imp_right h.furthers.takenIn_trans⟩

private theorem demandsOnly_ensureBoundUpTo (n : Nat) : DemandsOnly (ensureBoundUpTo n) where
  furthers := furthers_ensureBoundUpTo n
  binds _ target hs := (binds_ensureBoundUpTo n hs target).1
  demands s file hs := by
    induction n generalizing s file with
    | zero => exact .refl s _
    | succ n ih =>
      have he : DemandsOnly (ensureBoundUpTo n) :=
        ⟨furthers_ensureBoundUpTo n, fun _ target hs => (binds_ensureBoundUpTo n hs target).1, ih⟩
      rw [ensureBoundUpTo_succ]
      rcases s.ensureBoundBy_cases file with ⟨answer, h⟩ | ⟨t, ht, heq⟩
      · rw [h.ensureBoundBy_eq]
        exact .refl s _
      · rw [heq]
        obtain ⟨v, hv, -, hblank⟩ := ht.unit
        have hfile : file ∉ t.inProgress := ht.furthers.inProgress ▸ ht.notBegun
        exact ht.demands (demands_bindUnit he (ht.tidy hs) hfile ht.notBound hv (hblank hs))
          (binds_bindUnit he.binds (ht.tidy hs) hv (hblank hs)).2

theorem demandsOnly_ensureBound : DemandsOnly ensureBound where
  furthers := furthers_ensureBound
  binds _ target hs := (binds_ensureBound hs target).1
  demands s := (demandsOnly_ensureBoundUpTo s.bindingDepth).demands s

end Session
end LiveCheck
