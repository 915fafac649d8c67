import LiveCheck.Proofs.Session.Demand
import LiveCheck.Proofs.FirstOccurrences
import LiveCheck.Proofs.FoundDeclarations
import LiveCheck.Proofs.Session.Invariants

/-!
# Chains of imported names

An imported name leads to the declarations of that name in another module, and these may be imported
names again. Following them is looked at in two steps. While they are followed, files are bound, and
whatever was found out about a declaration stays so; behind the search, all that was asked has its
answer in one session. What is found is then a fact about the answers of that session.
-/

/-!
## What stays as it is while units are asked for

A unit that is bound, or that cannot be, is in a state in which nothing is done about it. It stays in
that state, and so does the answer to whether it is bound, whatever imports are looked up and whatever
other units are brought up to date.
-/

namespace LiveCheck.Session

variable {s t r : Session} {file other : FileId} {answer : Bool} {ensure : Binder}

/-! ### One unit -/

/-- All that matters for what is done about a unit is as it was. -/
private structure AsBefore (file : FileId) (s t : Session) : Prop where
  size : s.units.size ≤ t.units.size
  unit : t.unit? file = s.unit? file
  begun : file ∈ t.inProgress ↔ file ∈ s.inProgress
  files : t.files = s.files

private theorem AsBefore.refl (file : FileId) (s : Session) : AsBefore file s s :=
  ⟨Nat.le_refl _, rfl, Iff.rfl, rfl⟩

private theorem AsBefore.trans (h : AsBefore file s t) (h' : AsBefore file t r) :
    AsBefore file s r :=
  ⟨Nat.le_trans h.size h'.size, h'.unit.trans h.unit, h'.begun.trans h.begun,
    h'.files.trans h.files⟩

private theorem Rests.asBefore (hr : s.Rests file answer) (h : AsBefore file s t) :
    t.Rests file answer := by
  cases hr with
  | begun hfile => exact .begun (h.begun.mpr hfile)
  | gone hu => exact .gone (h.unit.trans hu)
  | unread hu hstate hc =>
    refine .unread (h.unit.trans hu) hstate ?_
    rwa [content?, h.unit, h.files]
  | bound hfile hu hb => exact .bound (fun hmem => hfile (h.begun.mp hmem)) (h.unit.trans hu) hb

private theorem Rests.ensureBound_eq (hr : s.Rests file answer) :
    s.ensureBound file = (answer, s) :=
  hr.ensureBoundBy_eq _

private theorem rest_resolveImport (s : Session) (file : FileId) (dotted : String) (level : Nat) :
    (s.resolveImport file dotted level).2.inProgress = s.inProgress ∧
      (s.resolveImport file dotted level).2.files = s.files := by
  refine ⟨(furthers_resolveImport s file dotted level).inProgress, ?_⟩
  rw [BindStep.rest (.resolve file dotted level : BindStep s _)]

private theorem asBefore_resolveImport (hlt : file < s.units.size) (hne : file ≠ other)
    (dotted : String)
    (level : Nat) : AsBefore file s (s.resolveImport other dotted level).2 := by
  obtain ⟨hprogress, hfiles⟩ := rest_resolveImport s other dotted level
  exact ⟨(furthers_resolveImport s other dotted level).size, unit?_resolveImport_of_ne hlt hne,
    by rw [hprogress], hfiles⟩

private theorem asBefore_bindUnit (hlt : file < s.units.size) (hne : file ≠ other)
    (he : ∀ r target, AsBefore file s r → AsBefore file r (ensure r target).2) :
    AsBefore file s (bindUnit ensure s other).2 := by
  cases htree : (s.unit? other).bind (·.tree) with
  | none =>
    have heq : bindUnit ensure s other = (false, s) := by simp [bindUnit, htree]
    rw [heq]
    exact .refl file s
  | some tree =>
    obtain ⟨u, hu, ht⟩ := Option.bind_eq_some_iff.mp htree
    obtain ⟨t, binding, targets, hkept, heq⟩ := bindUnit_eq ensure hu ht
    have hbegin : AsBefore file s (s.binding other) :=
      ⟨Nat.le_refl _, rfl, by simp [Session.binding, hne], rfl⟩
    have ht : AsBefore file s t := by
      refine hkept (AsBefore file s) ⟨fun r dotted level hr => ?_, fun r target hr => ?_⟩ hbegin
      · exact hr.trans (asBefore_resolveImport (Nat.lt_of_lt_of_le hlt hr.size) hne dotted level)
      · exact hr.trans (he r target hr)
    have hlast : AsBefore file t (t.bindWith other binding targets) := by
      refine ⟨by simp [bindWith, modifyUnit], ?_, ?_, rfl⟩
      · rw [unit?_bindWith, unit?_modifyUnit_of_ne t other _ hne]
      · simp [bindWith, hne]
    rw [heq]
    exact ht.trans hlast

private theorem asBefore_ensureBoundUpTo (n : Nat) (hlt : file < s.units.size)
    (hr : s.Rests file answer)
    (other : FileId) : AsBefore file s (ensureBoundUpTo n s other).2 := by
  induction n generalizing s other with
  | zero => exact .refl file s
  | succ n ih =>
    rw [ensureBoundUpTo_succ]
    by_cases hne : file = other
    · rw [← hne, hr.ensureBoundBy_eq]
      exact .refl file s
    · rcases s.ensureBoundBy_cases other with ⟨answer', h⟩ | ⟨t, ht, heq⟩
      · rw [h.ensureBoundBy_eq]
        exact .refl file s
      · have hready : AsBefore file s t :=
          ⟨ht.furthers.size, ht.others file hne, by rw [ht.furthers.inProgress], ht.files⟩
        rw [heq]
        refine hready.trans (asBefore_bindUnit (Nat.lt_of_lt_of_le hlt hready.size) hne ?_)
        intro r target h
        have h := hready.trans h
        exact ih (Nat.lt_of_lt_of_le hlt h.size) (hr.asBefore h) target

private theorem rests_ensureBound (hs : s.Tidy) (file : FileId) :
    (s.ensureBound file).2.Rests file (s.ensureBound file).1 := by
  rcases s.ensureBoundBy_cases file with ⟨answer, h⟩ | ⟨t, ht, heq⟩
  · rw [h.ensureBound_eq]
    exact h
  · obtain ⟨v, hv, -, hblank⟩ := ht.unit
    obtain ⟨tree, htree⟩ := Option.isSome_iff_exists.mp (hblank hs).1
    have hbind : s.ensureBound file =
        bindUnit (ensureBoundUpTo (s.files.size + s.units.size)) t file := heq _
    have htrue : (s.ensureBound file).1 = true := by
      obtain ⟨r, binding, targets, -, hr⟩ :=
        bindUnit_eq (ensureBoundUpTo (s.files.size + s.units.size)) hv htree
      rw [hbind, hr]
    obtain ⟨u, hu, hb⟩ := (binds_ensureBound hs file).2 htrue
    rw [htrue]
    exact .bound ((furthers_ensureBound s file).inProgress ▸ ht.notBegun) hu hb

/-! ### All units -/

/-- What nothing is done about stays so, and bound units keep all that they hold; they may only look up
more imports. -/
private structure Persists (s t : Session) : Prop where
  size : s.units.size ≤ t.units.size
  rests : ∀ file answer, file < s.units.size → s.Rests file answer → t.Rests file answer
  unit : ∀ file u, s.unit? file = some u → u.state.isBound = true →
    ∃ entries, t.unit? file = some { u with importCache := entries } ∧
      ∀ key known, u.importCache.lookup key = some known → entries.lookup key = some known

private theorem Persists.refl (s : Session) : s.Persists s :=
  ⟨Nat.le_refl _, fun _ _ _ h => h, fun _ u hu _ => ⟨u.importCache, hu, fun _ _ h => h⟩⟩

private theorem Persists.trans (h : s.Persists t) (h' : t.Persists r) : s.Persists r where
  size := Nat.le_trans h.size h'.size
  rests file answer hlt hr :=
    h'.rests file answer (Nat.lt_of_lt_of_le hlt h.size) (h.rests file answer hlt hr)
  unit file u hu hb := by
    obtain ⟨entries, hv, hkeeps⟩ := h.unit file u hu hb
    obtain ⟨entries', hw, hkeeps'⟩ := h'.unit file _ hv hb
    exact ⟨entries', hw, fun key known hlookup => hkeeps' key known (hkeeps key known hlookup)⟩

private theorem Persists.isBound (h : s.Persists t) (hb : s.IsBound file) : t.IsBound file := by
  obtain ⟨u, hu, hb⟩ := hb
  obtain ⟨entries, hv, -⟩ := h.unit file u hu hb
  exact ⟨_, hv, hb⟩

private theorem persists_resolveImport (s : Session) (file : FileId) (dotted : String)
    (level : Nat) :
    s.Persists (s.resolveImport file dotted level).2 where
  size := (furthers_resolveImport s file dotted level).size
  rests other answer hlt hr := by
    by_cases hne : other = file
    · subst hne
      obtain ⟨hprogress, hfiles⟩ := rest_resolveImport s other dotted level
      cases hr with
      | begun hfile => exact .begun (hprogress ▸ hfile)
      | gone hu =>
        have heq : s.resolveImport other dotted level = (none, s) := by simp [resolveImport, hu]
        rw [heq]
        exact .gone hu
      | unread hu hstate hc =>
        obtain ⟨entries, hv, -⟩ := lookup_resolveImport hu dotted level
        exact .unread hv hstate ((content?_congr hu hv rfl rfl hfiles).trans hc)
      | bound hfile hu hb =>
        obtain ⟨entries, hv, -⟩ := lookup_resolveImport hu dotted level
        exact .bound (hprogress ▸ hfile) hv hb
    · exact hr.asBefore (asBefore_resolveImport hlt hne dotted level)
  unit other u hu _ := by
    by_cases hne : other = file
    · subst hne
      obtain ⟨entries, hv, -, hkeeps⟩ := lookup_resolveImport hu dotted level
      exact ⟨entries, hv, hkeeps⟩
    · refine ⟨u.importCache, ?_, fun _ _ h => h⟩
      rw [unit?_resolveImport_of_ne (lt_size_of_unit? hu) hne, hu]

private theorem persists_ensureBound (s : Session) (file : FileId) :
    s.Persists (s.ensureBound file).2 where
  size := (furthers_ensureBound s file).size
  rests other answer hlt hr := hr.asBefore (asBefore_ensureBoundUpTo _ hlt hr file)
  unit other u hu hb := by
    have hr : ∃ answer, s.Rests other answer := by
      by_cases hmem : other ∈ s.inProgress
      · exact ⟨false, .begun hmem⟩
      · exact ⟨true, .bound hmem hu hb⟩
    obtain ⟨answer, hr⟩ := hr
    refine ⟨u.importCache, ?_, fun _ _ h => h⟩
    exact (asBefore_ensureBoundUpTo _ (lt_size_of_unit? hu) hr file).unit.trans hu

end LiveCheck.Session

namespace LiveCheck

open Session Evaluation

/-! ## Chains -/

section Chains

variable {leads : DeclId → DeclId → Prop} {next : DeclId → List DeclId} {n k : Nat}
  {decl target : DeclId}

/-- One declaration leads to another one through this many imports. -/
inductive Hops (leads : DeclId → DeclId → Prop) : Nat → DeclId → DeclId → Prop
  | refl (decl : DeclId) : Hops leads 0 decl decl
  | head {n : Nat} {decl through target : DeclId} (h : leads decl through)
    (hrest : Hops leads n through target) : Hops leads (n + 1) decl target

private theorem Hops.le_succ (h : Hops leads n decl target)
    (hnext : ∀ through, leads decl through → ∀ n, Hops leads n through target → n ≤ k) :
    n ≤ k + 1 := by
  cases h with
  | refl => exact Nat.zero_le _
  | head hfirst hrest => exact Nat.succ_le_succ (hnext _ hfirst _ hrest)

private theorem Hops.snoc {through : DeclId} (h : Hops leads n decl through)
    (hlast : leads through target) : Hops leads (n + 1) decl target := by
  induction h with
  | refl decl => exact .head hlast (.refl target)
  | head hfirst _ ih => exact .head hfirst (ih hlast)

/-- All that a declaration leads to through this many imports, or through fewer to where it ends. -/
def chase (next : DeclId → List DeclId) : Nat → DeclId → List DeclId
  | 0, decl => [decl]
  | n + 1, decl => if (next decl).isEmpty then [decl] else (next decl).flatMap (chase next n)

private theorem mem_chase_iff :
    target ∈ chase next n decl ↔
      ∃ k ≤ n, Hops (fun decl target => target ∈ next decl) k decl target ∧
        (next target = [] ∨ k = n) := by
  induction n generalizing decl with
  | zero =>
    rw [chase, List.mem_singleton]
    constructor
    · rintro rfl
      exact ⟨0, Nat.le_refl 0, .refl target, .inr rfl⟩
    · rintro ⟨k, hk, hops, -⟩
      obtain rfl := Nat.le_zero.mp hk
      cases hops
      rfl
  | succ n ih =>
    rw [chase]
    split
    · next hend =>
      have hend : next decl = [] := List.isEmpty_iff.mp hend
      rw [List.mem_singleton]
      constructor
      · rintro rfl
        exact ⟨0, Nat.zero_le _, .refl target, .inl hend⟩
      · rintro ⟨k, -, hops, -⟩
        cases hops with
        | refl => rfl
        | head h hrest => exact absurd h (hend ▸ List.not_mem_nil)
    · next hgoes =>
      simp only [List.mem_flatMap, ih]
      constructor
      · rintro ⟨through, hthrough, k, hk, hops, hlast⟩
        exact ⟨k + 1, Nat.succ_le_succ hk, .head hthrough hops, hlast.imp_right (congrArg _)⟩
      · rintro ⟨k, hk, hops, hlast⟩
        cases hops with
        | refl =>
          rcases hlast with hlast | hlast
          · exact absurd (List.isEmpty_iff.mpr hlast) hgoes
          · exact nomatch hlast
        | @head m _ through _ h hrest =>
          exact ⟨through, h, m, Nat.le_of_succ_le_succ hk, hrest, hlast.imp_right Nat.succ.inj⟩

end Chains

/-! ## What an imported name leads to -/

/-- The module and the member that an imported name stands for. -/
def Declaration.imported? : Declaration → Option (String × Nat × String)
  | { kind := .alias, origin := some ⟨_, path, level, some member⟩, .. } =>
    some (path, level, member)
  | _ => none

namespace Session

variable {s t : Session} {decl : DeclId} {targets : List DeclId}

/-- The module and the member that a declaration stands for if it is an imported name. -/
def imported? (s : Session) (decl : DeclId) : Option (String × Nat × String) :=
  (s.declaration? decl).bind Declaration.imported?

/-- The declarations of a name in a module. -/
def declared (s : Session) (target : FileId) (member : String) : List DeclId :=
  (((s.unit? target).bind (·.binding)).bind fun b => (b.moduleSymbol? member).map fun symbol =>
    (b.declarationsOf symbol).map fun d => (⟨target, d⟩ : DeclId)).getD []

/-- What a declaration leads to is known: it is no imported name, or the import is known to lead
nowhere, or to a module about which there is nothing more to be done. -/
inductive LedTo (s : Session) (decl : DeclId) : List DeclId → Prop
  | own (h : s.imported? decl = none) : LedTo s decl []
  | lost {u : SourceUnit} {path : String} {level : Nat} {member : String}
    (h : s.imported? decl = some (path, level, member)) (hu : s.unit? decl.file = some u)
    (hlookup : u.importCache.lookup (path, level) = some none) : LedTo s decl []
  | led {u : SourceUnit} {path : String} {level : Nat} {member : String} {target : FileId}
    {answer : Bool} (h : s.imported? decl = some (path, level, member))
    (hu : s.unit? decl.file = some u)
    (hlookup : u.importCache.lookup (path, level) = some (some target))
    (hlt : target < s.units.size) (hrests : s.Rests target answer) :
    LedTo s decl (if answer then s.declared target member else [])

/-- A declaration is known to lead to another one. -/
def PassesOn (s : Session) (decl target : DeclId) : Prop :=
  ∃ targets, s.LedTo decl targets ∧ target ∈ targets

private theorem Persists.imported? (h : s.Persists t) (hb : s.IsBound decl.file) :
    t.imported? decl = s.imported? decl := by
  obtain ⟨u, hu, hb⟩ := hb
  obtain ⟨entries, hv, -⟩ := h.unit _ u hu hb
  simp [Session.imported?, declaration?, hu, hv]

private theorem LedTo.persists (hs : s.LedTo decl targets) (h : s.Persists t)
    (hb : s.IsBound decl.file) : t.LedTo decl targets := by
  have himported := h.imported? hb
  obtain ⟨u, hu, hb⟩ := hb
  obtain ⟨entries, hv, hkeeps⟩ := h.unit _ u hu hb
  cases hs with
  | own hown => exact .own (himported.trans hown)
  | lost hname hu' hlookup =>
    obtain rfl := Option.some.inj (hu'.symm.trans hu)
    exact .lost (himported.trans hname) hv (hkeeps _ _ hlookup)
  | @led w path level member target answer hname hu' hlookup hlt hrests =>
    obtain rfl := Option.some.inj (hu'.symm.trans hu)
    have hsame : (if answer then s.declared target member else []) =
        if answer then t.declared target member else [] := by
      cases hrests with
      | begun => rfl
      | gone => rfl
      | unread => rfl
      | bound hfile hw hbound =>
        obtain ⟨entries, hw', -⟩ := h.unit _ _ hw hbound
        simp [declared, hw, hw']
    rw [hsame]
    exact .led (himported.trans hname) hv (hkeeps _ _ hlookup) (Nat.lt_of_lt_of_le hlt h.size)
      (h.rests target answer hlt hrests)

private def Grounded (s : Session) : Prop := s.Orderly ∧ s.Catalogued

private theorem Grounded.evaluates {slack : Nat} (hs : s.Grounded) (h : Evaluates slack s t) :
    t.Grounded :=
  h.induct (fun _ _ hstep hs => ⟨hstep.orderly hs.1, hstep.catalogued hs.1.2 hs.2⟩) hs

private theorem Grounded.binds (hs : s.Grounded) (h : Binds s t) : t.Grounded :=
  hs.evaluates (h.quietly : Quietly 0 s t).evaluates

private theorem Reached.grounded (hs : s.Reached) : s.Grounded :=
  ⟨hs.maintained.orderly, invariant_catalogued.reached hs⟩

end Session

namespace Query

variable {s t r : Session} {decl : DeclId} {targets decls found all before : List DeclId} {n : Nat}
  {α : Type} {waiting : List (DeclId × Nat)}

/-! ## One imported name -/

private theorem run_aliasTargets (s : Session) (decl : DeclId) :
    (aliasTargets decl).run s =
      match s.imported? decl with
      | none => (.ok [], s)
      | some (path, level, member) =>
        match s.resolveImport decl.file path level with
        | (none, r) => (.ok [], r)
        | (some target, r) =>
          (.ok (if (r.ensureBound target).1 then (r.ensureBound target).2.declared target member
            else []), (r.ensureBound target).2) := by
  have hget : (get : Query Session).run s = (.ok s, s) := rfl
  rw [aliasTargets, run_bind_ok hget, Session.imported?]
  cases hd : s.declaration? decl with
  | none => rfl
  | some d =>
    obtain ⟨kind, name, node, owner, scope, symbol, span, typeHint, origin, conditional, exported,
      wildcard⟩ := d
    cases kind <;> try rfl
    obtain _ | ⟨importIndex, path, level, _ | member⟩ := origin <;> try rfl
    let f := fun s : Session => s.resolveImport decl.file path level
    have hresolve : (operate f).run s = (.ok (f s).1, (f s).2) := rfl
    simp only [Option.bind_some, Declaration.imported?]
    rw [run_bind_ok hresolve]
    rcases hr : s.resolveImport decl.file path level with ⟨_ | target, r⟩
    · simp only [f, hr]
      rfl
    · simp only [f, hr]
      have hensure : (operate (·.ensureBound target)).run r =
          (.ok (r.ensureBound target).1, (r.ensureBound target).2) := rfl
      rw [run_bind_ok hensure]
      cases (r.ensureBound target).1 <;> rfl

/-- The declarations that a declaration leads to, as a session answers. -/
def destinations (s : Session) (decl : DeclId) : List DeclId :=
  match ((aliasTargets decl).run s).1 with
  | .ok found => found
  | .error _ => []

private theorem run_of_ledTo (h : s.LedTo decl targets) :
    (aliasTargets decl).run s = (.ok targets, s) := by
  rw [run_aliasTargets]
  cases h with
  | own hown => rw [hown]
  | lost hname hu hlookup =>
    rw [hname]
    simp [Session.resolveImport, hu, hlookup]
  | led hname hu hlookup hlt hrests =>
    rw [hname]
    simp [Session.resolveImport, hu, hlookup, hrests.ensureBound_eq]

private theorem destinations_of_ledTo (h : s.LedTo decl targets) :
    destinations s decl = targets := by
  rw [destinations, run_of_ledTo h]

private theorem passesOn_iff {target : DeclId} (h : s.LedTo decl targets) :
    s.PassesOn decl target ↔ target ∈ targets := by
  constructor
  · rintro ⟨found, hfound, hmem⟩
    rwa [← destinations_of_ledTo h, destinations_of_ledTo hfound]
  · exact fun hmem => ⟨targets, h, hmem⟩

private theorem mem_destinations_of_passesOn {target : DeclId} (h : s.PassesOn decl target) :
    target ∈ destinations s decl := by
  obtain ⟨targets, hled, hmem⟩ := h
  rwa [destinations_of_ledTo hled]

private theorem filesBound_declared {target : FileId} (h : s.IsBound target) (member : String) :
    FilesBound (s.declared target member) s := by
  intro d hd
  rw [file_eq_of_mem_symbolDeclarations hd]
  exact h

private theorem ledTo_aliasTargets (hs : s.Grounded) (hb : s.IsBound decl.file) :
    ∃ found t, (aliasTargets decl).run s = (.ok found, t) ∧ s.Persists t ∧ t.Grounded ∧
      t.LedTo decl found ∧ FilesBound found t := by
  rw [run_aliasTargets]
  split
  · next hown => exact ⟨_, s, rfl, .refl s, hs, .own hown, filesBound_nil s⟩
  · next path level member hname =>
    have hpersists := persists_resolveImport s decl.file path level
    have hground : (s.resolveImport decl.file path level).2.Grounded :=
      hs.binds (.single (.resolve decl.file path level))
    obtain ⟨u, hu, hbound⟩ := id hb
    obtain ⟨entries, hv, hlookup, -⟩ := lookup_resolveImport hu path level
    have himported := (hpersists.imported? hb).trans hname
    split
    · next r hresolve =>
      rw [hresolve] at hpersists hground hv hlookup himported
      exact ⟨_, r, rfl, hpersists, hground, .lost himported hv hlookup, filesBound_nil r⟩
    · next target r hresolve =>
      rw [hresolve] at hpersists hground hv hlookup himported
      have hensure := persists_ensureBound r target
      have hrests := rests_ensureBound hground.1.1 target
      have hlt := Nat.lt_of_lt_of_le (hground.2 _ _ hv _ _ hlookup) hensure.size
      have hfrom : r.IsBound decl.file := ⟨_, hv, hbound⟩
      have himported' := (hensure.imported? hfrom).trans himported
      obtain ⟨entries', hw, hkeeps⟩ := hensure.unit _ _ hv hbound
      refine ⟨_, _, rfl, hpersists.trans hensure,
        hground.binds (binds_ensureBound hground.1.1 target).1,
        .led himported' hw (hkeeps _ _ hlookup) hlt hrests, ?_⟩
      split
      · next htrue =>
        exact filesBound_declared ((binds_ensureBound hground.1.1 target).2 htrue) member
      · exact filesBound_nil _

/-! ## Following imported names -/

private def Explored (s : Session) : Nat → DeclId → Prop
  | 0, decl => s.IsBound decl.file ∧ ∃ found, s.LedTo decl found
  | n + 1, decl => s.IsBound decl.file ∧ ∃ found, s.LedTo decl found ∧
      ∀ target ∈ found, Explored s n target

private theorem Explored.ledTo (h : Explored s n decl) : s.LedTo decl (destinations s decl) := by
  have hfound : ∃ found, s.LedTo decl found := by
    cases n with
    | zero => exact h.2
    | succ n => exact h.2.imp fun _ h => h.1
  obtain ⟨found, hfound⟩ := hfound
  rwa [destinations_of_ledTo hfound]

private theorem Explored.target (h : Explored s (n + 1) decl) {target : DeclId}
    (ht : target ∈ destinations s decl) : Explored s n target := by
  obtain ⟨-, found, hfound, hrest⟩ := h
  rw [destinations_of_ledTo hfound] at ht
  exact hrest target ht

private theorem Explored.persists (h : Explored s n decl) (hp : s.Persists t) :
    Explored t n decl ∧ chase (destinations t) n decl = chase (destinations s) n decl := by
  induction n generalizing decl with
  | zero =>
    obtain ⟨hb, found, hfound⟩ := h
    exact ⟨⟨hp.isBound hb, found, hfound.persists hp hb⟩, rfl⟩
  | succ n ih =>
    obtain ⟨hb, found, hfound, hrest⟩ := h
    have hfound' := hfound.persists hp hb
    refine ⟨⟨hp.isBound hb, found, hfound', fun target ht => (ih (hrest target ht)).1⟩, ?_⟩
    rw [chase, chase, destinations_of_ledTo hfound, destinations_of_ledTo hfound']
    split
    · rfl
    · exact List.flatMap_congr fun target ht => (ih (hrest target ht)).2

private theorem Explored.hops (h : Explored s n decl) {k : Nat} {target : DeclId}
    (hops : Hops s.PassesOn k decl target) (hk : k ≤ n) : Explored s (n - k) target := by
  induction hops generalizing n with
  | refl => exact h
  | head hpasses _ ih =>
    cases n with
    | zero => exact absurd hk (Nat.not_succ_le_zero _)
    | succ n =>
      rw [Nat.add_sub_add_right]
      exact ih (h.target (mem_destinations_of_passesOn hpasses)) (Nat.le_of_succ_le_succ hk)

private theorem Explored.hops_iff (h : Explored s n decl) {k : Nat} {target : DeclId} (hk : k ≤ n) :
    Hops (fun decl target => target ∈ destinations s decl) k decl target ↔
      Hops s.PassesOn k decl target := by
  constructor
  · intro hops
    induction hops generalizing n with
    | refl => exact .refl _
    | head hmem _ ih =>
      cases n with
      | zero => exact absurd hk (Nat.not_succ_le_zero _)
      | succ n =>
        exact .head ((passesOn_iff h.ledTo).mpr hmem)
          (ih (h.target hmem) (Nat.le_of_succ_le_succ hk))
  · intro hops
    clear h
    induction hops generalizing n with
    | refl => exact .refl _
    | head hpasses _ ih =>
      exact .head (mem_destinations_of_passesOn hpasses) (ih (Nat.le_of_succ_le hk))

private theorem Explored.ledTo_nil_iff (h : Explored s n decl) :
    s.LedTo decl [] ↔ destinations s decl = [] :=
  ⟨destinations_of_ledTo, fun hnil => hnil ▸ h.ledTo⟩

private def Explores (s : Session) (n : Nat) (decls : List DeclId) (found : List DeclId)
    (t : Session) :
    Prop :=
  s.Persists t ∧ t.Grounded ∧ (∀ decl ∈ decls, Explored t n decl) ∧
    found = decls.flatMap (chase (destinations t) n)

private theorem explores_mapM (hf : ∀ decl s, s.Grounded → s.IsBound decl.file →
      ∃ found t, (followAlias n decl).run s = (.ok found, t) ∧ Explores s n [decl] found t)
    (hs : s.Grounded) (hdecls : FilesBound decls s) :
    ∃ founds t, (decls.mapM (followAlias n)).run s = (.ok founds, t) ∧
      Explores s n decls founds.flatten t := by
  induction decls generalizing s with
  | nil => exact ⟨[], s, rfl, .refl s, hs, nofun, rfl⟩
  | cons decl decls ih =>
    obtain ⟨hdecl, hrest⟩ := List.forall_mem_cons.mp hdecls
    obtain ⟨found, r, hrun, hfirst, hr, hexplored, hfound⟩ := hf decl s hs hdecl
    obtain ⟨founds, t, hrun', hpersists, ht, hexplored', hfounds⟩ :=
      ih hr fun d hd => hfirst.isBound (hrest d hd)
    obtain ⟨hkept, hsame⟩ := (hexplored decl List.mem_cons_self).persists hpersists
    refine ⟨found :: founds, t, ?_, hfirst.trans hpersists, ht, ?_, ?_⟩
    · rw [List.mapM_cons, run_bind_ok hrun, run_bind_ok hrun']
      rfl
    · exact List.forall_mem_cons.mpr ⟨hkept, hexplored'⟩
    · rw [List.flatten_cons, hfounds, List.flatMap_cons, hsame, hfound, List.flatMap_singleton]

private theorem explores_followAlias (n : Nat) (hs : s.Grounded) (hb : s.IsBound decl.file) :
    ∃ found t, (followAlias n decl).run s = (.ok found, t) ∧ Explores s n [decl] found t := by
  induction n generalizing s decl with
  | zero =>
    obtain ⟨found, t, hrun, hp, ht, hledTo, -⟩ := ledTo_aliasTargets hs hb
    refine ⟨[decl], t, ?_, hp, ht, ?_, rfl⟩
    · rw [followAlias, run_bind_ok hrun]
      rfl
    · exact List.forall_mem_singleton.mpr ⟨hp.isBound hb, found, hledTo⟩
  | succ n ih =>
    obtain ⟨found, r, hrun, hp, hr, hledTo, hfiles⟩ := ledTo_aliasTargets hs hb
    rw [followAlias, run_bind_ok hrun]
    cases hfound : found with
    | nil =>
      rw [hfound] at hledTo
      refine ⟨[decl], r, rfl, hp, hr, ?_, ?_⟩
      · exact List.forall_mem_singleton.mpr ⟨hp.isBound hb, [], hledTo, List.forall_mem_nil _⟩
      · rw [List.flatMap_singleton, chase, destinations_of_ledTo hledTo]
        rfl
    | cons target rest =>
      obtain ⟨founds, t, hrun', hp', ht, hexplored, hall⟩ :=
        explores_mapM (fun decl s => ih) hr hfiles
      have hledTo' := hledTo.persists hp' (hp.isBound hb)
      have hcons : found.isEmpty = false := by rw [hfound]; rfl
      refine ⟨founds.flatten, t, ?_, hp.trans hp', ht, ?_, ?_⟩
      · rw [← hfound, hcons, if_neg Bool.false_ne_true, run_bind_ok hrun']
        rfl
      · exact List.forall_mem_singleton.mpr
          ⟨hp'.isBound (hp.isBound hb), found, hledTo', hexplored⟩
      · rw [List.flatMap_singleton, chase, destinations_of_ledTo hledTo', hcons, hall]
        rfl

/-! ## One declaration after the other -/

/-- Declarations wait to be followed, each with the number of imports that led to it. One after the
other is asked what it leads to; that comes first in the line, unless there is nothing or the number
is used up, and then the declaration is found if it was not so before. -/
inductive Following : List (DeclId × Nat) → List DeclId → Session → List DeclId → Session → Prop
  | done (found : List DeclId) (s : Session) : Following [] found s found s
  | through {waiting : List (DeclId × Nat)} {decl : DeclId} {hops : Nat}
    {found targets all : List DeclId} {s r t : Session}
    (hrun : (aliasTargets decl).run s = (.ok targets, r))
    (hlimit : hops < Limits.aliasChain) (hgoes : targets ≠ [])
    (hrest : Following (targets.map (·, hops + 1) ++ waiting) found r all t) :
    Following ((decl, hops) :: waiting) found s all t
  | stop {waiting : List (DeclId × Nat)} {decl : DeclId} {hops : Nat}
    {found targets all : List DeclId} {s r t : Session}
    (hrun : (aliasTargets decl).run s = (.ok targets, r))
    (hends : hops = Limits.aliasChain ∨ targets = [])
    (hrest : Following waiting (if decl ∈ found then found else found ++ [decl]) r all t) :
    Following ((decl, hops) :: waiting) found s all t

private theorem run_bind_eq_ok {β : Type} {q : Query α} {f : α → Query β} {b : β}
    (h : (q >>= f).run s = (.ok b, t)) :
    ∃ a r, q.run s = (.ok a, r) ∧ (f a).run r = (.ok b, t) := by
  rcases hq : q.run s with ⟨e | a, r⟩
  · rw [run_bind_error hq] at h
    exact nomatch h
  · exact ⟨a, r, rfl, run_bind_ok hq ▸ h⟩

private theorem run_pure_eq_ok {a b : α} (h : (pure a : Query α).run s = (.ok b, t)) :
    b = a ∧ t = s := by
  obtain ⟨hb, rfl⟩ := Prod.mk.inj h
  exact ⟨(Except.ok.inj hb).symm, rfl⟩

private theorem following_mapM {hops : Nat} {founds : List (List DeclId)}
    (hf : ∀ {decl waiting before found s r}, (followAlias n decl).run s = (.ok found, r) →
      Following waiting (before ++ found).eraseDups r all t →
        Following ((decl, hops) :: waiting) before.eraseDups s all t)
    (hrun : (decls.mapM (followAlias n)).run s = (.ok founds, r))
    (hrest : Following waiting (before ++ founds.flatten).eraseDups r all t) :
    Following (decls.map (·, hops) ++ waiting) before.eraseDups s all t := by
  induction decls generalizing s before founds with
  | nil =>
    obtain ⟨rfl, rfl⟩ := run_pure_eq_ok hrun
    simpa using hrest
  | cons decl decls ih =>
    rw [List.mapM_cons] at hrun
    obtain ⟨found, s', hfirst, hrun⟩ := run_bind_eq_ok hrun
    obtain ⟨rest, r', hothers, hrun⟩ := run_bind_eq_ok hrun
    obtain ⟨rfl, rfl⟩ := run_pure_eq_ok hrun
    refine hf hfirst (ih hothers ?_)
    rwa [List.append_assoc, ← List.flatten_cons]

private theorem following_followAlias {hops : Nat} (hn : hops + n = Limits.aliasChain)
    (hrun : (followAlias n decl).run s = (.ok found, r))
    (hrest : Following waiting (before ++ found).eraseDups r all t) :
    Following ((decl, hops) :: waiting) before.eraseDups s all t := by
  induction n generalizing hops decl waiting before found s r with
  | zero =>
    obtain ⟨targets, r', hasked, hrun⟩ := run_bind_eq_ok hrun
    obtain ⟨rfl, rfl⟩ := run_pure_eq_ok hrun
    rw [eraseDups_append_singleton] at hrest
    exact .stop hasked (.inl hn) hrest
  | succ n ih =>
    rw [followAlias] at hrun
    obtain ⟨targets, r', hasked, hrun⟩ := run_bind_eq_ok hrun
    split at hrun
    · next hempty =>
      obtain ⟨rfl, rfl⟩ := run_pure_eq_ok hrun
      rw [eraseDups_append_singleton] at hrest
      exact .stop hasked (.inr (List.isEmpty_iff.mp hempty)) hrest
    · next hgoes =>
      obtain ⟨founds, r'', hrun, hfound⟩ := run_bind_eq_ok hrun
      obtain ⟨rfl, rfl⟩ := run_pure_eq_ok hfound
      refine .through hasked (by omega) (fun h => hgoes (List.isEmpty_iff.mpr h)) ?_
      exact following_mapM (ih (by omega)) hrun hrest

private theorem following_followAliases (hrun : (followAliases decls).run s = (.ok found, t)) :
    Following (decls.map (·, 0)) [] s found t := by
  obtain ⟨founds, r, hrun, hfound⟩ := run_bind_eq_ok hrun
  obtain ⟨rfl, rfl⟩ := run_pure_eq_ok hfound
  have hall : Following (decls.map (·, 0) ++ []) ([] : List DeclId).eraseDups s
      founds.flatten.eraseDups t :=
    following_mapM (following_followAlias (Nat.zero_add _)) hrun (.done _ t)
  rwa [List.append_nil] at hall

/-- **Imported names are followed to their end.** In whatever session a run and any evaluations since
have led to, following declarations of bound files through imported names ends. Behind it, for all
that was asked on the way it is known what it leads to, and to ask again changes nothing. What is
found is found once; it leads nowhere, unless it is as many imports away as may be followed; and if no
chain of imports is longer than that, which excludes circles, then the declarations that are found are
the ones that the chains lead to and that lead nowhere. -/
theorem followAliases_exact {origin : Session} {slack : Nat} (horigin : origin.Reached)
    (hs : Evaluates slack origin s) (hdecls : FilesBound decls s) :
    ∃ found t, (followAliases decls).run s = (.ok found, t) ∧
      Following (decls.map (·, 0)) [] s found t ∧
      (∀ first ∈ decls, ∀ n ≤ Limits.aliasChain, ∀ decl, Hops t.PassesOn n first decl →
        ∃ targets, t.LedTo decl targets ∧ (aliasTargets decl).run t = (.ok targets, t)) ∧
      found.Nodup ∧
      (∀ decl ∈ found, ∃ first ∈ decls, ∃ n ≤ Limits.aliasChain,
        Hops t.PassesOn n first decl ∧ (t.LedTo decl [] ∨ n = Limits.aliasChain)) ∧
      ((∀ first ∈ decls, ∀ n decl, Hops t.PassesOn n first decl → n ≤ Limits.aliasChain) →
        ∀ decl, decl ∈ found ↔
          t.LedTo decl [] ∧ ∃ first ∈ decls, ∃ n, Hops t.PassesOn n first decl) := by
  obtain ⟨founds, t, hrun, -, -, hexplored, hfound⟩ :=
    explores_mapM (fun _ _ => explores_followAlias Limits.aliasChain)
      (horigin.grounded.evaluates hs) hdecls
  have hall : (followAliases decls).run s = (.ok founds.flatten.eraseDups, t) := run_bind_ok hrun
  have hreached {first decl : DeclId} {n : Nat} (hfirst : first ∈ decls)
      (hn : n ≤ Limits.aliasChain) (hops : Hops t.PassesOn n first decl) :
      Explored t (Limits.aliasChain - n) decl :=
    (hexplored first hfirst).hops hops hn
  have hmem (decl : DeclId) : decl ∈ founds.flatten.eraseDups ↔ ∃ first ∈ decls,
      ∃ n ≤ Limits.aliasChain, Hops t.PassesOn n first decl ∧
        (t.LedTo decl [] ∨ n = Limits.aliasChain) := by
    simp only [List.mem_eraseDups, hfound, List.mem_flatMap, mem_chase_iff]
    refine exists_congr fun first => and_congr_right fun hfirst => exists_congr fun n =>
      and_congr_right fun hn => ?_
    rw [(hexplored first hfirst).hops_iff hn]
    exact and_congr_right fun hops => or_congr_left (hreached hfirst hn hops).ledTo_nil_iff.symm
  refine ⟨_, t, hall, following_followAliases hall, fun first hfirst n hn decl hops => ?_,
    nodup_eraseDups _, fun decl => (hmem decl).mp, fun hshort decl => ?_⟩
  · have hled := (hreached hfirst hn hops).ledTo
    exact ⟨_, hled, run_of_ledTo hled⟩
  · rw [hmem]
    constructor
    · rintro ⟨first, hfirst, n, hn, hops, hends | rfl⟩
      · exact ⟨hends, first, hfirst, n, hops⟩
      · -- A chain that goes on would be too long.
        have hled := (hreached hfirst hn hops).ledTo
        cases htargets : destinations t decl with
        | nil => exact ⟨htargets ▸ hled, first, hfirst, _, hops⟩
        | cons target rest =>
          have hpasses : t.PassesOn decl target :=
            (passesOn_iff hled).mpr (htargets ▸ List.mem_cons_self)
          exact absurd (hshort first hfirst _ target (hops.snoc hpasses)) (by omega)
    · rintro ⟨hends, first, hfirst, n, hops⟩
      exact ⟨first, hfirst, n, hshort first hfirst n decl hops, hops, .inl hends⟩

/-- A name that is imported from a module where it has two declarations, both imported names. One of
them leads to a module where the name is imported again and assigned as well: the three chains end at
two declarations. -/
theorem followAliases_exact_branches :
    let files := FileStore.ofList
      [("a.py", "from b import x\n"),
      ("b.py", "if 1:\n    from c import x\nelse:\n    from d import x\n"),
      ("c.py", "x = 1\n"), ("d.py", "from c import x\nx = 2\n")]
    let s := (Session.new {} files []).after [.setRoots ["a.py"], .ask (.diagnostics 0)]
    let found : List DeclId := [⟨2, 0⟩, ⟨3, 1⟩]
    s.Reached ∧ FilesBound [⟨0, 0⟩] s ∧ ∃ t, (followAliases [⟨0, 0⟩]).run s = (.ok found, t) ∧
      Following [(⟨0, 0⟩, 0)] [] s found t ∧
      t.LedTo ⟨0, 0⟩ [⟨1, 0⟩, ⟨1, 1⟩] ∧
      (∀ n decl, Hops t.PassesOn n ⟨0, 0⟩ decl → n ≤ Limits.aliasChain) ∧
      ∀ decl, decl ∈ found ↔ t.LedTo decl [] ∧ ∃ n, Hops t.PassesOn n ⟨0, 0⟩ decl := by
  intro files s found
  have hs : s.Reached := ⟨{}, files, [], _, rfl⟩
  have hevaluated : (s.unit? 0).map (·.state.isBound) = some true ∧
      ((followAliases [⟨0, 0⟩]).run s).1 = .ok found ∧
      [⟨0, 0⟩, ⟨1, 0⟩, ⟨1, 1⟩, ⟨3, 0⟩, ⟨2, 0⟩, ⟨3, 1⟩].map
          (destinations ((followAliases [⟨0, 0⟩]).run s).2) =
        [[⟨1, 0⟩, ⟨1, 1⟩], [⟨2, 0⟩], [⟨3, 0⟩, ⟨3, 1⟩], [⟨2, 0⟩], [], []] := by
    decide +kernel
  obtain ⟨hstate, hfound, hnext⟩ := hevaluated
  have hdecls : FilesBound [⟨0, 0⟩] s := by
    obtain ⟨u, hu, hb⟩ := Option.map_eq_some_iff.mp hstate
    exact List.forall_mem_singleton.mpr ⟨u, hu, hb⟩
  obtain ⟨_, t, hrun, hfollowing, hknown, -, -, hexact⟩ :=
    followAliases_exact hs (.refl : Evaluates 0 s s) hdecls
  rw [hrun] at hfound hnext
  obtain rfl := Except.ok.inj hfound
  simp only [List.map_cons, List.map_nil, List.cons.injEq, and_true] at hnext
  obtain ⟨hfirst, hleft, hright, hagain, hend, hend'⟩ := hnext
  have hled : t.LedTo ⟨0, 0⟩ [⟨1, 0⟩, ⟨1, 1⟩] := by
    obtain ⟨targets, hled, -⟩ :=
      hknown _ List.mem_cons_self 0 (Nat.zero_le _) _ (.refl ⟨0, 0⟩)
    rwa [← hfirst, destinations_of_ledTo hled]
  have hshort : ∀ n decl, Hops t.PassesOn n ⟨0, 0⟩ decl → n ≤ Limits.aliasChain := by
    intro n decl hops
    have hstep {k : Nat} {through : DeclId} {targets : List DeclId}
        (htargets : destinations t through = targets)
        (hrest : ∀ target ∈ targets, ∀ n, Hops t.PassesOn n target decl → n ≤ k) :
        ∀ n, Hops t.PassesOn n through decl → n ≤ k + 1 := fun n hops =>
      hops.le_succ fun target hpasses =>
        hrest target (htargets ▸ mem_destinations_of_passesOn hpasses)
    have hone := hstep hend (k := 0) nofun
    have hone' := hstep hend' (k := 0) nofun
    have htwo := hstep hagain (List.forall_mem_singleton.mpr hone)
    have hthree := hstep hright (List.forall_mem_cons.mpr
      ⟨htwo, List.forall_mem_singleton.mpr fun n hops => (hone' n hops).trans (by decide)⟩)
    have hthree' := hstep hleft (k := 2)
      (List.forall_mem_singleton.mpr fun n hops => (hone n hops).trans (by decide))
    have hfour := hstep hfirst (List.forall_mem_cons.mpr
      ⟨hthree', List.forall_mem_singleton.mpr hthree⟩)
    exact (hfour n hops).trans (by decide)
  refine ⟨hs, hdecls, t, hrun, hfollowing, hled, hshort, fun decl => ?_⟩
  rw [hexact (List.forall_mem_singleton.mpr hshort) decl]
  simp only [List.mem_singleton, exists_eq_left]

end Query
end LiveCheck
