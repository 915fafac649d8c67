import LiveCheck.Proofs.Evaluation.Bases

/-!
# Hierarchies are prepared

The walk that finds the bases of a class goes on until the bases of all declared classes above it
are noted. A class with declared bases is one of a file that is bound by then, so there are no more
of them than declarations; and the walk begins to count them anew when a file has been bound
meanwhile, which happens no more often than there are files.
-/

namespace LiveCheck

open Session Evaluation Discipline

variable {bases : List ClassKey}

namespace EvalState

variable {st st' : EvalState} {met : List DeclId} {waiting : List DeclaredClass}
  {cls : DeclaredClass} {decl : DeclId} {files classes : Nat}

private def Covers (st : EvalState) (met : List DeclId) (waiting : List DeclaredClass) : Prop :=
  ∀ decl ∈ met, ∃ bases, st.bases? decl = some bases ∧
    ∀ cls, ClassKey.declared cls ∈ bases → cls.decl ∈ met ∨ cls ∈ waiting

private def IsPrepared (st : EvalState) (cls : DeclaredClass) : Prop :=
  ∃ met, cls.decl ∈ met ∧ st.Covers met []

private theorem Covers.keeps (h : st.Covers met waiting) (hk : st.Keeps st') :
    st'.Covers met waiting := by
  intro decl hdecl
  obtain ⟨bases, hbases, hcls⟩ := h decl hdecl
  exact ⟨bases, hk.bases decl bases hbases, hcls⟩

private theorem IsPrepared.keeps (h : st.IsPrepared cls) (hk : st.Keeps st') :
    st'.IsPrepared cls := by
  obtain ⟨met, hmet, hcovers⟩ := h
  exact ⟨met, hmet, hcovers.keeps hk⟩

private theorem Covers.skip (h : st.Covers met (cls :: waiting)) (hmet : cls.decl ∈ met) :
    st.Covers met waiting := by
  intro decl hdecl
  obtain ⟨bases, hbases, hcls⟩ := h decl hdecl
  refine ⟨bases, hbases, fun c hc => ?_⟩
  rcases hcls c hc with hc | hc
  · exact .inl hc
  · rcases List.mem_cons.mp hc with rfl | hc
    · exact .inl hmet
    · exact .inr hc

private theorem Covers.meet (h : st.Covers met (cls :: waiting))
    (hbases : st.bases? cls.decl = some bases)
    (above : List DeclaredClass) (habove : ∀ c, ClassKey.declared c ∈ bases → c ∈ above) :
    st.Covers (cls.decl :: met) (above ++ waiting) := by
  intro decl hdecl
  rcases List.mem_cons.mp hdecl with rfl | hdecl
  · exact ⟨bases, hbases, fun c hc => .inr (List.mem_append_left _ (habove c hc))⟩
  · obtain ⟨found, hfound, hcls⟩ := h decl hdecl
    refine ⟨found, hfound, fun c hc => ?_⟩
    rcases hcls c hc with hc | hc
    · exact .inl (.tail _ hc)
    · rcases List.mem_cons.mp hc with rfl | hc
      · exact .inl (.head _)
      · exact .inr (List.mem_append_right _ hc)

private theorem mem_of_hasBase {base : DeclaredClass} (hbases : st.bases? cls.decl = some bases)
    (h : HasBase st.classBases.hierarchy (.declared cls) (.declared base)) :
    ClassKey.declared base ∈ bases := by
  have hnoted : st.classBases.hierarchy cls = bases := by
    rw [BaseNotes.hierarchy]
    exact congrArg (Option.getD · []) hbases
  rw [HasBase, directBases, hnoted] at h
  split at h
  · exact ClassKey.noConfusion (List.mem_singleton.mp h)
  · exact h

private theorem IsPrepared.exists_bases (h : st.IsPrepared cls) {above : DeclaredClass}
    (hbelow : Below st.classBases.hierarchy (.declared cls) (.declared above)) :
    ∃ bases, st.bases? above.decl = some bases := by
  obtain ⟨met, hmet, hcovers⟩ := h
  have hall : ∀ key, Below st.classBases.hierarchy (.declared cls) key →
      ∀ c, key = .declared c → c.decl ∈ met := by
    intro key hkey
    induction hkey with
    | refl => exact fun c heq => ClassKey.declared.inj heq ▸ hmet
    | @tail mid base _ hbase ih =>
      rintro c rfl
      cases mid with
      | builtin b =>
        obtain ⟨_, _, heq⟩ := exists_of_hasBase_builtin hbase
        exact ClassKey.noConfusion heq
      | declared m =>
        obtain ⟨bases, hbases, hcls⟩ := hcovers m.decl (ih m rfl)
        exact (hcls c (mem_of_hasBase hbases hbase)).resolve_right List.not_mem_nil
  obtain ⟨bases, hbases, -⟩ := hcovers above.decl (hall _ hbelow above rfl)
  exact ⟨bases, hbases⟩

private def HasTime (st : EvalState) (files classes : Nat) (met : List DeclId) : Prop :=
  st.session.unbound < files ∨
    st.session.unbound ≤ files ∧ (st.session.boundDeclarations \ met.toFinset).card < classes

private theorem HasTime.meet (h : st.HasTime files classes met)
    (hr : st.session.KeepsBound st'.session)
    (decl : DeclId) : st'.HasTime files classes (decl :: met) := by
  have hle := hr.unbound_le
  rcases h with h | ⟨hfiles, hclasses⟩
  · exact .inl (Nat.lt_of_le_of_lt hle h)
  · by_cases heq : st.session.unbound ≤ st'.session.unbound
    · refine .inr ⟨Nat.le_trans hle hfiles, Nat.lt_of_le_of_lt (Finset.card_le_card ?_) hclasses⟩
      rw [hr.boundDeclarations_eq heq, List.toFinset_cons]
      exact Finset.sdiff_subset_sdiff subset_rfl (Finset.subset_insert _ _)
    · exact .inl (by omega)

private theorem HasTime.meet_declared (h : st.HasTime files (classes + 1) met)
    (hr : st.session.KeepsBound st'.session) (hnew : decl ∉ met)
    (hdecl : st'.session.Declares decl) :
    st'.HasTime files classes (decl :: met) := by
  have hle := hr.unbound_le
  rcases h with h | ⟨hfiles, hclasses⟩
  · exact .inl (Nat.lt_of_le_of_lt hle h)
  · by_cases heq : st.session.unbound ≤ st'.session.unbound
    · refine .inr ⟨Nat.le_trans hle hfiles, ?_⟩
      have hmem : decl ∈ st.session.boundDeclarations \ met.toFinset := by
        rw [← hr.boundDeclarations_eq heq, Finset.mem_sdiff, mem_boundDeclarations,
          List.mem_toFinset]
        exact ⟨hdecl, hnew⟩
      rw [hr.boundDeclarations_eq heq, List.toFinset_cons, Finset.sdiff_insert]
      have hcard := Finset.card_erase_lt_of_mem hmem
      omega
    · exact .inl (by omega)

private theorem hasTime_bindingDepth (st : EvalState) : st.HasTime st.session.bindingDepth 0 met :=
  .inl st.session.unbound_lt_bindingDepth

private theorem HasTime.next (h : st.HasTime (files + 1) 0 met) :
    st.HasTime files (st.session.declarationCount + 1) met := by
  rcases h with h | ⟨-, h⟩
  · have hcard := (Finset.card_le_card (Finset.sdiff_subset (t := met.toFinset))).trans
      st.session.card_boundDeclarations_le
    exact .inr ⟨Nat.le_of_lt_succ h, Nat.lt_succ_of_le hcard⟩
  · exact absurd h (Nat.not_lt_zero _)

end EvalState

namespace Evaluation

variable {slack limit files classes : Nat} {keys : List EvalKey} {answers : List (EvalKey × TypeId)}
  {st : EvalState} {ask : Ask} {next again : List DeclaredClass → List DeclId → EvalM Unit}

private theorem mem_filterMap_declaredOf? {cls : DeclaredClass} :
    cls ∈ bases.filterMap declaredOf? ↔ ClassKey.declared cls ∈ bases := by
  rw [List.mem_filterMap]
  constructor
  · rintro ⟨key, hkey, hcls⟩
    cases key with
    | builtin b => exact nomatch hcls
    | declared c => exact Option.some.inj hcls ▸ hkey
  · exact fun h => ⟨.declared cls, h, rfl⟩

private def Finishes (D : Discipline EvalState) (files classes : Nat)
    (next : List DeclaredClass → List DeclId → EvalM Unit) : Prop :=
  ∀ st waiting met, D.Ok st → st.Covers met waiting → st.HasTime files classes met →
    ∃ all, met ⊆ all ∧ (∀ cls ∈ waiting, cls.decl ∈ all) ∧ (next waiting met st).2.Covers all []

variable (hask : ∀ n key, (noting slack limit keys answers).Sound n (ask key) TypeId.Known)
  {source target : TypeId}

include hask

private theorem finishes_prepareFirst
    (hnext : Finishes (noting slack limit keys answers) files classes next) :
    Finishes (noting slack limit keys answers) files (classes + 1) (prepareFirst ask next) := by
  intro st waiting met hst hcovers htime
  induction waiting generalizing st met with
  | nil => exact ⟨met, List.Subset.refl _, List.forall_mem_nil _, hcovers⟩
  | cons cls waiting ih =>
    rw [prepareFirst]
    split
    · next hmet =>
      have hmet : cls.decl ∈ met := List.contains_iff_mem.mp hmet
      obtain ⟨all, hall, hwaiting, hend⟩ := ih st met hst (hcovers.skip hmet) htime
      exact ⟨all, hall, List.forall_mem_cons.mpr ⟨hall hmet, hwaiting⟩, hend⟩
    · next hmet =>
      have hnew : cls.decl ∉ met := fun hmem => hmet (List.contains_iff_mem.mpr hmem)
      obtain ⟨hout, hbases⟩ := outcome_declaredBases hask hst cls
      rcases hr : declaredBases ask cls st with ⟨bases, st'⟩
      rw [hr] at hout hbases
      rw [bind_of_eq hr]
      have hkeeps : st.Keeps st' := hout.step.2
      have hcovers' := hcovers.keeps hkeeps
      cases habove : bases.filterMap declaredOf? with
      | nil =>
        have hmeet : st'.Covers (cls.decl :: met) waiting :=
          hcovers'.meet hbases [] fun c hc => habove ▸ mem_filterMap_declaredOf?.mpr hc
        obtain ⟨all, hall, hwaiting, hend⟩ :=
          ih st' (cls.decl :: met) hout.ok hmeet (htime.meet hkeeps.keepsBound cls.decl)
        obtain ⟨hcls, hall⟩ := List.cons_subset.mp hall
        exact ⟨all, hall, List.forall_mem_cons.mpr ⟨hcls, hwaiting⟩, hend⟩
      | cons first more =>
        have hmeet : st'.Covers (cls.decl :: met) ((first :: more).reverse ++ waiting) :=
          hcovers'.meet hbases _ fun c hc =>
            List.mem_reverse.mpr (habove ▸ mem_filterMap_declaredOf?.mpr hc)
        have hfirst : ClassKey.declared first ∈ bases :=
          mem_filterMap_declaredOf?.mp (habove ▸ .head _)
        have hdeclares : st'.session.Declares cls.decl :=
          hout.ok.2.grounded cls.decl bases first hbases hfirst
        obtain ⟨all, hall, hwaiting, hend⟩ := hnext st' _ (cls.decl :: met) hout.ok hmeet
          (htime.meet_declared hkeeps.keepsBound hnew hdeclares)
        obtain ⟨hcls, hall⟩ := List.cons_subset.mp hall
        refine ⟨all, hall, List.forall_mem_cons.mpr ⟨hcls, fun c hc => ?_⟩, hend⟩
        exact hwaiting c (List.mem_append_right _ hc)

private theorem finishes_prepareClasses
    (hagain : Finishes (noting slack limit keys answers) files 0 again) :
    Finishes (noting slack limit keys answers) files classes
      (prepareClasses ask again classes) := by
  induction classes with
  | zero => exact hagain
  | succ classes ih => exact finishes_prepareFirst hask ih

private theorem finishes_prepareUpTo :
    Finishes (noting slack limit keys answers) files 0 (prepareUpTo ask files) := by
  induction files with
  | zero =>
    intro st waiting met _ _ htime
    exact absurd htime (by simp [EvalState.HasTime])
  | succ files ih =>
    intro st waiting met hst hcovers htime
    exact finishes_prepareClasses hask ih st waiting met hst hcovers htime.next

private theorem isPrepared_prepare (hst : (noting slack limit keys answers).Ok st)
    (cls : DeclaredClass) :
    (prepare ask (.declared cls) st).2.IsPrepared cls := by
  obtain ⟨all, -, hwaiting, hcovers⟩ := finishes_prepareUpTo hask st [cls] [] hst
    (List.forall_mem_nil _) st.hasTime_bindingDepth
  exact ⟨all, hwaiting cls (.head _), hcovers⟩

private theorem outcome_prepareAll (hst : (noting slack limit keys answers).Ok st)
    (classes : List DeclaredClass) :
    let r := (forIn classes PUnit.unit fun cls _ => do
      prepare ask (.declared cls)
      pure (.yield PUnit.unit) : EvalM PUnit) st
    (noting slack limit keys answers).Outcome st anything r ∧
      ∀ cls ∈ classes, r.2.IsPrepared cls := by
  induction classes generalizing st with
  | nil =>
    exact ⟨⟨hst, (noting slack limit keys answers).refl st, Nat.le_refl _, trivial⟩,
      List.forall_mem_nil _⟩
  | cons cls classes ih =>
    have hfirst := sound_prepare (fun n cls st hst _ => (outcome_declaredBases hask hst cls).1)
      (.declared cls) st hst (Nat.zero_le _)
    have hprepared := isPrepared_prepare hask hst cls
    rcases hr : prepare ask (.declared cls) st with ⟨_, st'⟩
    rw [hr] at hfirst hprepared
    obtain ⟨hrest, hall⟩ := ih hfirst.ok
    have hstep : (do
        prepare ask (.declared cls)
        pure (.yield PUnit.unit) : EvalM (ForInStep PUnit)) st = (.yield PUnit.unit, st') :=
      bind_of_eq hr
    rw [List.forIn_cons, bind_of_eq hstep]
    exact ⟨hfirst.trans hrest, List.forall_mem_cons.mpr ⟨hprepared.keeps hrest.step.2, hall⟩⟩

omit hask in
private theorem isPrepared_comparison {t : TypeTable} (ht : t.Closed 0)
    (he : t.Extends st.session.types)
    (hsource : source < t.size) (htarget : target < t.size)
    (hclasses : ∀ cls ∈ t.declaredClasses source ++ t.declaredClasses target, st.IsPrepared cls) :
    Comparison.IsPrepared ⟨source, target, st.session.types, st.classBases⟩ := by
  intro cls hcls
  obtain ⟨type, first, args, hreaches, hinst, hbelow⟩ := TypeTable.Consults.exists_declared hcls
  refine (hclasses first ?_).exists_bases hbelow
  have hmem {id : TypeId} (hid : id < t.size)
      (h : st.session.types.Reaches TypeData.valueParts id type) :
      first ∈ t.declaredClasses id := by
    obtain ⟨hearlier, htype⟩ := h.earlier he
      (fun id data hd => ⟨rfl, fun part hp => ht.part_lt_size hd (TypeTable.valueParts_subset data hp)⟩) hid
    have hdata : t.get? type = some t.types[type] := Array.getElem?_eq_getElem htype
    exact TypeTable.mem_declaredClasses hearlier (hdata.trans ((he.get? hdata).symm.trans hinst))
  exact List.mem_append.mpr (hreaches.imp (hmem hsource) (hmem htarget))

omit hask in
private theorem outcome_compareTypes (hst : (noting slack limit keys answers).Ok st)
    (hprepared : slack = 0 →
      Comparison.IsPrepared ⟨source, target, st.session.types, st.classBases⟩) :
    (noting slack limit keys answers).Outcome st anything (compareTypes source target st) := by
  have hout := outcome_of_access hst.1
    (sound_compareTypes source target st hst.1.access (Nat.zero_le _))
  have haccounts := hst.2
  exact ⟨⟨hout.ok, haccounts.orderly, haccounts.grounded,
    List.forall_mem_cons.mpr ⟨List.suffix_refl _, haccounts.past⟩,
    fun h0 => List.forall_mem_cons.mpr ⟨hprepared h0, haccounts.prepared h0⟩⟩,
    ⟨hout.step, ⟨fun _ _ h => h, fun _ => .rfl, .refl _⟩⟩, hout.grows, trivial⟩

/-- Whenever two types are compared, the bases of all classes that matter have been noted. -/
theorem outcome_isAssignable (hst : (noting slack limit keys answers).Ok st)
    (hsource : source.Known (st.session.types.extent slack))
    (htarget : target.Known (st.session.types.extent slack)) :
    (noting slack limit keys answers).Outcome st anything (isAssignable ask source target st) := by
  have hnothing (b : Bool) : (noting slack limit keys answers).Outcome st anything (b, st) :=
    ⟨hst, (noting slack limit keys answers).refl st, Nat.le_refl _, trivial⟩
  have hplaceholder (type : TypeId) : isPlaceholder type st = ((isPlaceholder type st).1, st) := rfl
  have htypes : types st = (st.session.types, st) := rfl
  rw [isAssignable, bind_of_eq (hplaceholder source)]
  split
  · exact hnothing true
  · rw [bind_of_eq (hplaceholder target)]
    split
    · exact hnothing true
    · obtain ⟨hall, hclasses⟩ := outcome_prepareAll hask hst
        (st.session.types.declaredClasses source ++ st.session.types.declaredClasses target)
      rw [bind_of_eq htypes]
      refine hall.trans (outcome_compareTypes hall.ok fun h0 => ?_)
      subst h0
      have hclosed := hst.1.coherent.closed
      have hlt {id : TypeId} (hid : id.Known (st.session.types.extent 0)) :
          id < st.session.types.size := TypeTable.extent_zero _ ▸ hclosed.lt_extent hid
      exact isPrepared_comparison hclosed hall.step.1.performs.steps.extends (hlt hsource)
        (hlt htarget) hclasses

end Evaluation
end LiveCheck
