import LiveCheck.Proofs.BindingOnDemand
import LiveCheck.Proofs.Evaluation.Answers
import LiveCheck.Proofs.Types.Comparison
import Mathlib.Algebra.Order.BigOperators.Group.Finset

/-!
# The bases that are found

The bases of a declared class are noted twice: as none when the search for them begins, and as what
they are when they are found. What is noted when a computation begins is noted behind it, too, and
the computation leaves no search unfinished that it has begun. Only declarations of bound files have
bases that are declared.
-/

/-!
## Bound files stay bound

An evaluation binds files and lets go of none, and it makes units only for files that had none. So
either it binds one of the files that are left, or the declarations of bound files are the same
behind it as before.
-/

namespace LiveCheck.Session

variable {s t r : Session} {file : FileId}

/-- A unit that is bound stays so, and no room for units is made. -/
structure KeepsBound (s t : Session) : Prop where
  bound : ∀ file u, s.unit? file = some u → u.state.isBound = true →
    ∃ v, t.unit? file = some v ∧ u.StaysBound v
  size : s.units.size ≤ t.units.size
  capacity : t.capacity ≤ s.capacity

theorem KeepsBound.refl (s : Session) : s.KeepsBound s :=
  ⟨fun _ u hu hb => ⟨u, hu, hb, rfl, rfl⟩, Nat.le_refl _, Nat.le_refl _⟩

private theorem KeepsBound.trans (h : s.KeepsBound t) (h' : t.KeepsBound r) : s.KeepsBound r where
  bound file u hu hb := by
    obtain ⟨v, hv, hstays⟩ := h.bound file u hu hb
    obtain ⟨w, hw, hstays'⟩ := h'.bound file v hv hstays.isBound
    exact ⟨w, hw, hstays'.isBound, hstays'.tree.trans hstays.tree,
      hstays'.binding.trans hstays.binding⟩
  size := Nat.le_trans h.size h'.size
  capacity := Nat.le_trans h'.capacity h.capacity

private theorem keepsBound_of_furthers (hc : s.Completes t) (hf : s.Furthers t) : s.KeepsBound t :=
  ⟨hc.bound, hf.size, hf.capacity⟩

private theorem keepsBound_modifyUnit {f : SourceUnit → SourceUnit}
    (hf : ∀ u : SourceUnit, u.state.isBound = true → u.StaysBound (f u)) :
    s.KeepsBound (s.modifyUnit file f) where
  bound other u hu hb := by
    rw [unit?_modifyUnit, hu]
    split
    · exact ⟨f u, rfl, hf u hb⟩
    · exact ⟨u, rfl, hb, rfl, rfl⟩
  size := Nat.le_of_eq (by simp [modifyUnit])
  capacity := by
    have hsize : (s.modifyUnit file f).units.size = s.units.size := by simp [modifyUnit]
    exact Nat.le_of_eq (congrArg (· + s.unmet.card) hsize)

private theorem keepsBound_ensureBound (s : Session) (file : FileId) :
    s.KeepsBound (s.ensureBound file).2 :=
  keepsBound_of_furthers (completes_ensureBound s file) (furthers_ensureBound s file)

private theorem keepsBound_bindFile (s : Session) (file : FileId) :
    s.KeepsBound (s.bindFile file).2 := by
  have h := s.keepsBound_ensureBound file
  unfold bindFile
  split <;> next r hr => exact (congrArg Prod.snd hr) ▸ h

private theorem keepsBound_link (s : Session) (file target : FileId) :
    s.KeepsBound { s with graph := s.graph.add file target } :=
  ⟨fun _ u hu hb => ⟨u, hu, hb, rfl, rfl⟩, Nat.le_refl _, Nat.le_refl _⟩

theorem keepsBound_importFrom (s : Session) (file : FileId) (dotted : String) (level : Nat) :
    s.KeepsBound (s.importFrom file dotted level).2 := by
  have h := keepsBound_of_furthers (completes_resolveImport s file dotted level)
    (furthers_resolveImport s file dotted level)
  unfold importFrom
  split
  · next target r hr =>
    rw [hr] at h
    exact h.trans (keepsBound_link r file target)
  · next r hr =>
    rw [hr] at h
    exact h

theorem keepsBound_submodule (s : Session) (package : FileId) (name : String) :
    s.KeepsBound (s.submodule package name).2 := by
  unfold submodule
  split
  · next path hpath =>
    obtain ⟨u, -, hpath⟩ := Option.bind_eq_some_iff.mp hpath
    have h := keepsBound_of_furthers (completes_unitFor s path)
      (furthers_unitFor (List.find?_some hpath))
    exact h.trans (keepsBound_link _ package _)
  · exact .refl s

private theorem keepsBound_openAnalysis (s : Session) (file : FileId) :
    s.KeepsBound (s.openAnalysis file).2 := by
  have h := s.keepsBound_ensureBound file
  unfold openAnalysis
  split
  · next r hr =>
    rw [hr] at h
    refine h.trans (keepsBound_modifyUnit fun u hb => ?_)
    rw [SourceUnit.rest_evaluating]
    exact ⟨SourceUnit.isBound_evaluating hb _, rfl, rfl⟩
  · next r hr =>
    rw [hr] at h
    exact h

/-- The declaration is one of a file that is bound. -/
def Declares (s : Session) (decl : DeclId) : Prop :=
  ∃ u b, s.unit? decl.file = some u ∧ u.state.isBound = true ∧ u.binding = some b ∧
    decl.index < b.declarations.size

private theorem Declares.keepsBound {decl : DeclId} (h : s.Declares decl) (hr : s.KeepsBound t) :
    t.Declares decl := by
  obtain ⟨u, b, hu, hbound, hb, hlt⟩ := h
  obtain ⟨v, hv, hstays⟩ := hr.bound decl.file u hu hbound
  exact ⟨v, b, hv, hstays.isBound, hstays.binding.trans hb, hlt⟩

/-! ### What is left -/

/-- The files that are bound. -/
def boundFiles (s : Session) : Finset FileId :=
  {file ∈ Finset.range s.units.size | (s.unit? file).any (·.state.isBound)}

/-- How many files can still be bound. -/
def unbound (s : Session) : Nat := s.capacity - s.boundFiles.card

/-- The declarations that the names of a file have. -/
def declarationsIn (s : Session) (file : FileId) : Finset DeclId :=
  (Finset.range (((s.unit? file).bind (·.binding)).elim 0 (·.declarations.size))).image (⟨file, ·⟩)

/-- The declarations of bound files. -/
def boundDeclarations (s : Session) : Finset DeclId := s.boundFiles.biUnion s.declarationsIn

private theorem mem_boundFiles :
    file ∈ s.boundFiles ↔ ∃ u, s.unit? file = some u ∧ u.state.isBound = true := by
  simp only [boundFiles, Finset.mem_filter, Finset.mem_range, Option.any_eq_true]
  exact ⟨And.right, fun h => ⟨h.elim fun u hu => lt_size_of_unit? hu.1, h⟩⟩

private theorem card_boundFiles_le (s : Session) : s.boundFiles.card ≤ s.capacity := by
  have hle : s.boundFiles.card ≤ s.units.size := by
    simpa [boundFiles] using Finset.card_filter_le (Finset.range s.units.size) _
  exact Nat.le_trans hle (Nat.le_add_right _ _)

theorem unbound_lt_bindingDepth (s : Session) : s.unbound < s.bindingDepth :=
  Nat.lt_of_le_of_lt (Nat.sub_le _ _) s.capacity_lt_bindingDepth

theorem mem_boundDeclarations {decl : DeclId} : decl ∈ s.boundDeclarations ↔ s.Declares decl := by
  simp only [boundDeclarations, declarationsIn, Finset.mem_biUnion, mem_boundFiles,
    Finset.mem_image, Finset.mem_range]
  constructor
  · rintro ⟨file, ⟨u, hu, hb⟩, index, hlt, rfl⟩
    rw [hu, Option.bind_some] at hlt
    cases hbinding : u.binding with
    | none => simp [hbinding] at hlt
    | some b =>
      rw [hbinding, Option.elim_some] at hlt
      exact ⟨u, b, hu, hb, hbinding, hlt⟩
  · rintro ⟨u, b, hu, hb, hbinding, hlt⟩
    refine ⟨decl.file, ⟨u, hu, hb⟩, decl.index, ?_, rfl⟩
    rwa [hu, Option.bind_some, hbinding, Option.elim_some]

private theorem declarationCount_eq (s : Session) : s.declarationCount =
    ∑ file ∈ Finset.range s.units.size,
      ((s.unit? file).bind (·.binding)).elim 0 (·.declarations.size) :=
  foldl_add_eq_sum s.units _ _ fun file hfile => by
    rw [unit?, Array.getElem?_eq_getElem hfile, Option.join_some]

theorem card_boundDeclarations_le (s : Session) :
    s.boundDeclarations.card ≤ s.declarationCount := by
  rw [declarationCount_eq]
  calc s.boundDeclarations.card ≤ ∑ file ∈ s.boundFiles, (s.declarationsIn file).card :=
        Finset.card_biUnion_le
    _ ≤ ∑ file ∈ Finset.range s.units.size, (s.declarationsIn file).card :=
        Finset.sum_le_sum_of_subset (Finset.filter_subset _ _)
    _ ≤ _ := Finset.sum_le_sum fun file _ => by
        rw [declarationsIn]
        exact Finset.card_image_le.trans (Finset.card_range _).le

private theorem KeepsBound.boundFiles_subset (h : s.KeepsBound t) :
    s.boundFiles ⊆ t.boundFiles := by
  intro file hfile
  obtain ⟨u, hu, hb⟩ := mem_boundFiles.mp hfile
  obtain ⟨v, hv, hstays⟩ := h.bound file u hu hb
  exact mem_boundFiles.mpr ⟨v, hv, hstays.isBound⟩

theorem KeepsBound.unbound_le (h : s.KeepsBound t) : t.unbound ≤ s.unbound := by
  have hcard := Finset.card_le_card h.boundFiles_subset
  have hcapacity := h.capacity
  unfold unbound
  omega

/-- If no fewer files are left, then no file was bound, and no declarations are new. -/
theorem KeepsBound.boundDeclarations_eq (h : s.KeepsBound t) (hle : s.unbound ≤ t.unbound) :
    t.boundDeclarations = s.boundDeclarations := by
  have hfiles : s.boundFiles = t.boundFiles := by
    refine Finset.eq_of_subset_of_card_le h.boundFiles_subset ?_
    have hcapacity := h.capacity
    have hbound := t.card_boundFiles_le
    unfold unbound at hle
    omega
  refine Finset.biUnion_congr hfiles.symm fun file hfile => ?_
  obtain ⟨u, hu, hb⟩ := mem_boundFiles.mp (hfiles ▸ hfile : file ∈ s.boundFiles)
  obtain ⟨v, hv, hstays⟩ := h.bound file u hu hb
  rw [declarationsIn, declarationsIn, hu, hv, Option.bind_some, Option.bind_some, hstays.binding]

end LiveCheck.Session

namespace LiveCheck

open Session Evaluation Discipline

/-! ## Notes -/

namespace BaseNotes

variable {notes earlier : BaseNotes} {decl other : DeclId} {bases : List ClassKey}

/-- The bases of a declared class that were noted last. -/
def bases? (notes : BaseNotes) (decl : DeclId) : Option (List ClassKey) := notes.lookup decl

/-- How often bases of a declared class were noted. -/
def timesNoted (notes : BaseNotes) (decl : DeclId) : Nat := notes.countP (·.1 == decl)

/-- The bases of the class are being evaluated: something was noted when that began, and nothing
since. -/
def IsFinding (notes : BaseNotes) (decl : DeclId) : Prop := notes.timesNoted decl = 1

/-- No class is noted more than twice, and each is noted to have no bases first. -/
def Orderly : BaseNotes → Prop
  | [] => True
  | (decl, bases) :: earlier =>
    (timesNoted earlier decl = 0 ∧ bases = [] ∨ IsFinding earlier decl) ∧ Orderly earlier

private theorem bases?_cons : bases? ((decl, bases) :: notes) other =
    if other = decl then some bases else notes.bases? other := by
  rw [bases?, List.lookup_cons]
  by_cases h : other = decl
  · rw [if_pos h, beq_iff_eq.mpr h]
  · rw [if_neg h, beq_false_of_ne h, bases?]

private theorem timesNoted_cons : timesNoted ((decl, bases) :: notes) other =
    notes.timesNoted other + if other = decl then 1 else 0 := by
  rw [timesNoted, List.countP_cons, timesNoted]
  by_cases h : other = decl
  · simp [h]
  · simp [h, Ne.symm h]

private theorem timesNoted_eq_zero : notes.timesNoted decl = 0 ↔ notes.bases? decl = none := by
  rw [timesNoted, bases?, List.countP_eq_zero, List.lookup_eq_none_iff]
  exact forall₂_congr fun entry _ => by
    rw [BEq.comm, Bool.not_eq_true, bne, Bool.not_eq_true']

private theorem Orderly.bases?_of_isFinding (h : notes.Orderly) (hfinding : notes.IsFinding decl) :
    notes.bases? decl = some [] := by
  induction notes with
  | nil => exact absurd hfinding Nat.zero_ne_one
  | cons note notes ih =>
    rw [IsFinding, timesNoted_cons] at hfinding
    rw [bases?_cons]
    split
    · next heq =>
      rw [if_pos heq] at hfinding
      rcases h.1 with ⟨-, hnil⟩ | hfound
      · rw [hnil]
      · have hone : timesNoted notes decl = 1 := heq ▸ hfound
        omega
    · next hne =>
      rw [if_neg hne] at hfinding
      exact ih h.2 hfinding

/-- What was noted earlier is noted still, unless the bases were being evaluated then. -/
theorem Orderly.bases?_of_isSuffix (h : notes.Orderly) (hsuffix : earlier <:+ notes)
    (hbases : earlier.bases? decl = some bases) :
    earlier.IsFinding decl ∧ bases = [] ∨ notes.bases? decl = some bases := by
  induction notes with
  | nil => exact .inr (List.suffix_nil.mp hsuffix ▸ hbases)
  | cons note notes ih =>
    rcases List.suffix_cons_iff.mp hsuffix with rfl | hsuffix
    · exact .inr hbases
    · refine (ih h.2 hsuffix).elim .inl fun hlast => ?_
      rw [bases?_cons]
      split
      · next heq =>
        -- The class is noted for the second time, so it was noted once till then.
        have hnoted : timesNoted notes decl ≠ 0 := fun hzero => by
          simp [timesNoted_eq_zero.mp hzero] at hlast
        have honce : IsFinding notes decl := heq ▸ h.1.resolve_left fun hfirst =>
          hnoted (heq ▸ hfirst.1)
        have hle : earlier.timesNoted decl ≤ timesNoted notes decl := hsuffix.sublist.countP_le
        have hearlier : earlier.timesNoted decl ≠ 0 := fun hzero => by
          simp [timesNoted_eq_zero.mp hzero] at hbases
        have hnil := hlast.symm.trans (h.2.bases?_of_isFinding honce)
        unfold IsFinding at honce
        exact .inl ⟨by unfold IsFinding; omega, Option.some.inj hnil⟩
      · exact .inr hlast

end BaseNotes

/-! ## Comparisons -/

/-- The comparison may ask for the bases of the class. -/
def Comparison.Consults (c : Comparison) (cls : DeclaredClass) : Prop :=
  c.types.Consults c.notes.hierarchy c.source c.target cls

/-- The bases of all classes that the comparison may ask for are noted. -/
def Comparison.IsPrepared (c : Comparison) : Prop :=
  ∀ cls, c.Consults cls → ∃ bases, c.notes.bases? cls.decl = some bases

/-! ## Evaluations that take notes -/

namespace EvalState

variable {slack : Nat} {st st' st'' : EvalState} {decl other : DeclId} {bases : List ClassKey}

/-- The bases of a declared class that were noted last. -/
def bases? (st : EvalState) (decl : DeclId) : Option (List ClassKey) := st.classBases.bases? decl

/-- Behind a computation everything is still noted, and the bases of the same classes are being
evaluated. -/
structure Keeps (st st' : EvalState) : Prop where
  bases : ∀ decl bases, st.bases? decl = some bases → st'.bases? decl = some bases
  finding : ∀ decl, st'.classBases.IsFinding decl ↔ st.classBases.IsFinding decl
  keepsBound : st.session.KeepsBound st'.session

/-- The notes are orderly, bases are declared for declarations of bound files only, and comparisons
were made with what was noted by then. Without slack these notes were all that was needed. -/
structure Accounts (slack : Nat) (st : EvalState) : Prop where
  orderly : st.classBases.Orderly
  grounded : ∀ decl bases cls, st.bases? decl = some bases → ClassKey.declared cls ∈ bases →
    st.session.Declares decl
  past : ∀ c ∈ st.comparisons, c.notes <:+ st.classBases
  prepared : slack = 0 → ∀ c ∈ st.comparisons, c.IsPrepared

/-- An operation that notes no bases and makes no comparisons. -/
structure Abides (st st' : EvalState) : Prop where
  classBases : st'.classBases = st.classBases
  comparisons : st'.comparisons = st.comparisons
  keepsBound : st.session.KeepsBound st'.session

private theorem Keeps.refl (st : EvalState) : st.Keeps st := ⟨fun _ _ h => h, fun _ => .rfl, .refl _⟩

theorem Keeps.trans (h : st.Keeps st') (h' : st'.Keeps st'') : st.Keeps st'' :=
  ⟨fun decl bases hb => h'.bases decl bases (h.bases decl bases hb),
    fun decl => (h'.finding decl).trans (h.finding decl), h.keepsBound.trans h'.keepsBound⟩

private theorem Abides.refl (st : EvalState) : st.Abides st := ⟨rfl, rfl, .refl _⟩

private theorem Abides.trans (h : st.Abides st') (h' : st'.Abides st'') : st.Abides st'' :=
  ⟨h'.classBases.trans h.classBases, h'.comparisons.trans h.comparisons,
    h.keepsBound.trans h'.keepsBound⟩

private theorem Abides.bases? (h : st.Abides st') (decl : DeclId) :
    st'.bases? decl = st.bases? decl := by
  rw [EvalState.bases?, h.classBases, EvalState.bases?]

theorem Abides.keeps (h : st.Abides st') : st.Keeps st' where
  bases decl bases hb := (h.bases? decl).trans hb
  finding decl := by rw [h.classBases]
  keepsBound := h.keepsBound

theorem Accounts.abides (ha : st.Accounts slack) (h : st.Abides st') : st'.Accounts slack where
  orderly := h.classBases ▸ ha.orderly
  grounded decl bases cls hb hcls :=
    (ha.grounded decl bases cls (h.bases? decl ▸ hb) hcls).keepsBound h.keepsBound
  past := by
    rw [h.comparisons, h.classBases]
    exact ha.past
  prepared := h.comparisons ▸ ha.prepared

private def noted (st : EvalState) (decl : DeclId) (bases : List ClassKey) : EvalState :=
  { st with classBases := (decl, bases) :: st.classBases }

private theorem bases?_noted :
    (st.noted decl bases).bases? other = if other = decl then some bases else st.bases? other :=
  BaseNotes.bases?_cons

private theorem Accounts.noted (ha : st.Accounts slack)
    (horderly : st.classBases.timesNoted decl = 0 ∧ bases = [] ∨ st.classBases.IsFinding decl)
    (hdeclares : bases ≠ [] → st.session.Declares decl) : (st.noted decl bases).Accounts slack where
  orderly := ⟨horderly, ha.orderly⟩
  grounded other found cls hfound hcls := by
    rw [bases?_noted] at hfound
    split at hfound
    · next heq =>
      obtain rfl := Option.some.inj hfound
      exact heq ▸ hdeclares (List.ne_nil_of_mem hcls)
    · exact ha.grounded other found cls hfound hcls
  past c hc := (ha.past c hc).trans (List.suffix_cons _ _)
  prepared := ha.prepared

private theorem Keeps.noted (hnone : st.bases? decl = none) (h : (st.noted decl []).Keeps st') :
    st.Keeps (st'.noted decl bases) where
  bases other found hfound := by
    have hne : other ≠ decl := by
      rintro rfl
      exact nomatch hnone.symm.trans hfound
    rw [bases?_noted, if_neg hne]
    exact h.bases other found (by rwa [bases?_noted, if_neg hne])
  finding other := by
    have hother := h.finding other
    simp only [BaseNotes.IsFinding, EvalState.noted, BaseNotes.timesNoted_cons] at hother ⊢
    by_cases hne : other = decl
    · subst hne
      have hzero := BaseNotes.timesNoted_eq_zero.mpr hnone
      simp only [if_true] at hother ⊢
      omega
    · simpa only [if_neg hne, Nat.add_zero] using hother
  keepsBound := h.keepsBound

end EvalState

/-- The discipline of evaluations that take notes about bases. -/
def noting (slack limit : Nat) (keys : List EvalKey) (answers : List (EvalKey × TypeId)) :
    Discipline EvalState where
  Ok st := st.InOrder slack limit keys answers ∧ st.Accounts slack
  size st := st.session.types.extent slack
  Step st st' := st.Proceeds slack st' ∧ st.Keeps st'
  refl st := ⟨.refl slack st, .refl st⟩
  trans h h' := ⟨h.1.trans h'.1, h.2.trans h'.2⟩

namespace Evaluation

variable {slack limit n : Nat} {keys : List EvalKey} {answers : List (EvalKey × TypeId)}
  {α β : Type} {R : α → Nat → Prop} {st : EvalState} {key : EvalKey} {ask : Ask} {m : EvalM α}

/-! ## Operations that note no bases -/

/-- The computation notes no bases, wherever it runs. -/
def Abiding (m : EvalM α) : Prop := ∀ st, EvalState.Abides st (m st).2

theorem Abiding.pure (a : α) : Abiding (Pure.pure a) := .refl

theorem Abiding.bind {f : α → EvalM β} (hm : Abiding m) (hf : ∀ a, Abiding (f a)) :
    Abiding (m >>= f) := fun st => (hm st).trans (hf _ _)

theorem Abiding.ite {c : Prop} [Decidable c] {m' : EvalM α} (hm : Abiding m) (hm' : Abiding m') :
    Abiding (if c then m else m') := by
  split
  · exact hm
  · exact hm'

/-- What leaves the session and the notes alone notes no bases. -/
theorem abiding_aside (hs : ∀ st, (m st).2.session = st.session)
    (hb : ∀ st, (m st).2.classBases = st.classBases)
    (hc : ∀ st, (m st).2.comparisons = st.comparisons) : Abiding m :=
  fun st => ⟨hb st, hc st, hs st ▸ .refl _⟩

private theorem abiding_get : Abiding (get : EvalM EvalState) := .refl

theorem abiding_withSession {f : Session → α × Session} (hf : ∀ s : Session, s.KeepsBound (f s).2) :
    Abiding (withSession f) := fun st => ⟨rfl, rfl, hf st.session⟩

theorem abiding_bound? (file : FileId) : Abiding (bound? file) :=
  abiding_withSession fun s => s.keepsBound_bindFile file

theorem abiding_withTypes (m : TypeM α) : Abiding (withTypes m) :=
  abiding_withSession fun _ =>
    ⟨fun _ u hu hb => ⟨u, hu, hb, rfl, rfl⟩, Nat.le_refl _, Nat.le_refl _⟩

theorem abiding_report (file : FileId) (d : Diagnostic) :
    Abiding (modify fun st => { st with session := st.session.modifyUnit file (·.report d) }) :=
  fun _ => ⟨rfl, rfl, keepsBound_modifyUnit fun u hb => by
    rw [SourceUnit.rest_report]
    exact ⟨hb, rfl, rfl⟩⟩

private theorem abiding_declaration? (decl : DeclId) : Abiding (declaration? decl) :=
  (abiding_bound? decl.file).bind fun _ => .pure _

private theorem abiding_classDefinition? (decl : DeclId) : Abiding (classDefinition? decl) := by
  refine (abiding_declaration? decl).bind fun o => ?_
  cases o with
  | none => exact .pure none
  | some d =>
    dsimp only
    split
    · exact .pure none
    · exact (abiding_bound? decl.file).bind fun _ => .pure _

private theorem abiding_reportAt (file : FileId) (node : NodeId) (code : Nat) (args : List String) :
    Abiding (reportAt file node code args) :=
  (abiding_bound? file).bind fun _ => (abiding_bound? file).bind fun _ => abiding_report file _

private theorem abiding_site? (key : EvalKey) : Abiding (site? key) := by
  cases key with
  | node file node => exact .pure _
  | result file node => exact .pure _
  | decl decl => exact (abiding_declaration? decl).bind fun _ => .pure _

private theorem abiding_openSite? (key : EvalKey) : Abiding (openSite? key) := by
  refine (abiding_site? key).bind fun o => ?_
  cases o with
  | none => exact .pure none
  | some site =>
    exact (abiding_withSession fun s => s.keepsBound_openAnalysis site.1).bind fun _ => .pure _

theorem abiding_memo? (key : EvalKey) : Abiding (memo? key) := by
  refine (abiding_openSite? key).bind fun o => ?_
  cases o with
  | none => exact .pure none
  | some site => exact abiding_get.bind fun _ => .pure _

theorem abiding_remember (key : EvalKey) (type : TypeId) : Abiding (remember key type) := by
  refine (abiding_openSite? key).bind fun o => ?_
  cases o with
  | none => exact .pure _
  | some site => exact fun _ => ⟨rfl, rfl, keepsBound_modifyUnit fun _ hb => ⟨hb, rfl, rfl⟩⟩

theorem abiding_placeholder (key : EvalKey) : Abiding (Evaluation.placeholder key) := by
  cases key with
  | node file node => exact .pure _
  | result file node => exact abiding_get.bind fun _ => .pure _
  | decl decl =>
    refine (abiding_declaration? decl).bind fun o => ?_
    cases o with
    | none => exact .pure _
    | some d => exact abiding_withTypes _

theorem abiding_finish (key : EvalKey) (type : TypeId) : Abiding (finish key type) := by
  cases key with
  | node file node => exact .pure _
  | result file node => exact .pure _
  | decl decl =>
    exact abiding_get.bind fun _ => .ite (.ite (.pure _) (abiding_withTypes _)) (.pure _)

theorem abiding_tooDeep (key : EvalKey) : Abiding (tooDeep key) := by
  have hmark : Abiding (do
      modify fun st => { st with stack := lowerTop 0 st.stack }.note (.exceeded key)
      return TypeId.unknown) := abiding_aside (fun _ => rfl) (fun _ => rfl) fun _ => rfl
  refine (abiding_site? key).bind fun o => ?_
  cases o with
  | none => exact hmark
  | some site => exact (abiding_reportAt site.1 site.2 _ _).bind fun _ => hmark

/-! ## What rules do by themselves -/

theorem outcome_of_noting {r : α × EvalState}
    (h : (noting slack limit keys answers).Outcome st R r) :
    (evaluation slack limit keys answers).Outcome st R r := ⟨h.ok.1, h.step.1, h.grows, h.result⟩

private theorem noting_of_access (hst : (noting slack limit keys answers).Ok st) {r : α × EvalState}
    (h : (access slack).Outcome st R r) (ha : st.Abides r.2) :
    (noting slack limit keys answers).Outcome st R r := by
  have hout : (evaluation slack limit keys answers).Outcome st R r := outcome_of_access hst.1 h
  exact ⟨⟨hout.ok, hst.2.abides ha⟩, ⟨hout.step, ha.keeps⟩, hout.grows, hout.result⟩

theorem sound_noting (hm : (access slack).Sound n m R) (ha : Abiding m) :
    (noting slack limit keys answers).Sound n m R :=
  fun st hst hn => noting_of_access hst (hm st hst.1.access hn) (ha st)

private theorem declares_of_classDefinition? (hs : st.session.Tidy) (decl : DeclId)
    (h : (classDefinition? decl st).1.isSome = true) :
    (classDefinition? decl st).2.session.Declares decl := by
  rcases hr : declaration? decl st with ⟨o, st₁⟩
  rw [classDefinition?, bind_of_eq hr] at h ⊢
  cases o with
  | none => exact nomatch h
  | some d =>
    have hd : (st.session.bindFile decl.file).1.bind (·.binding.declarations[decl.index]?) =
        some d := congrArg Prod.fst hr
    obtain ⟨bound, hbound, hd⟩ := Option.bind_eq_some_iff.mp hd
    obtain ⟨u, hu, hb, hbinding⟩ := bound_of_bindFile hs hbound
    have hsession : (st.session.bindFile decl.file).2 = st₁.session := congrArg (·.2.session) hr
    have hdeclares : st₁.session.Declares decl :=
      ⟨u, bound.binding, hsession ▸ hu, hb, hbinding, (Array.getElem?_eq_some_iff.mp hd).1⟩
    refine hdeclares.keepsBound (EvalState.Abides.keepsBound ?_)
    dsimp only
    split
    · exact .refl _
    · exact (abiding_bound? decl.file).bind (fun _ => .pure _) st₁

private theorem outcome_setBases (hst : st.InOrder slack limit keys answers) (decl : DeclId)
    (bases : List ClassKey) :
    (evaluation slack limit keys answers).Outcome st anything ((), st.noted decl bases) :=
  outcome_of_access hst (sound_setBases decl bases st hst.access (Nat.zero_le _))

section Rules

variable (hask : ∀ n key, (noting slack limit keys answers).Sound n (ask key) TypeId.Known)

include hask

private theorem outcome_findBases (hst : (noting slack limit keys answers).Ok st) (decl : DeclId) :
    (noting slack limit keys answers).Outcome st anything (findBases ask decl st) ∧
      ((findBases ask decl st).1 ≠ [] → (findBases ask decl st).2.session.Declares decl) := by
  have hdefinition := sound_noting (sound_classDefinition? (fun _ => sound_bound?) decl)
    (abiding_classDefinition? decl) st hst (Nat.le_refl _)
  have hdeclares := declares_of_classDefinition? hst.1.coherent.tidy decl
  rcases hr : classDefinition? decl st with ⟨o, st₁⟩
  rw [hr] at hdefinition hdeclares
  rw [findBases, bind_of_eq hr]
  cases o with
  | none => exact ⟨⟨hdefinition.ok, hdefinition.step, hdefinition.grows, trivial⟩, (absurd rfl ·)⟩
  | some found =>
    have heval := sound_evaluateBases hask decl.file [] (baseExpressions found.1.arena found.2)
      st₁ hdefinition.ok (Nat.le_refl _)
    exact ⟨hdefinition.trans heval, fun _ => (hdeclares rfl).keepsBound heval.step.2.keepsBound⟩

/-- To find the bases of a class keeps what is noted, if the evaluation of expressions does so. What
is found is noted. -/
theorem outcome_declaredBases (hst : (noting slack limit keys answers).Ok st)
    (cls : DeclaredClass) :
    (noting slack limit keys answers).Outcome st anything (declaredBases ask cls st) ∧
      (declaredBases ask cls st).2.bases? cls.decl = some (declaredBases ask cls st).1 := by
  have hget : (get : EvalM EvalState) st = (st, st) := rfl
  unfold declaredBases
  rw [bind_of_eq hget]
  cases hnoted : st.classBases.lookup cls.decl with
  | some bases =>
    exact ⟨⟨hst, (noting slack limit keys answers).refl st, Nat.le_refl _, trivial⟩, hnoted⟩
  | none =>
    have hbegun := outcome_setBases hst.1 cls.decl []
    have hfirst : st.classBases.timesNoted cls.decl = 0 := BaseNotes.timesNoted_eq_zero.mpr hnoted
    have hst₁ : (noting slack limit keys answers).Ok (st.noted cls.decl []) :=
      ⟨hbegun.ok, hst.2.noted (.inl ⟨hfirst, rfl⟩) (absurd rfl)⟩
    obtain ⟨hfind, hdeclares⟩ := outcome_findBases hask hst₁ cls.decl
    have hbegin : setBases cls.decl [] st = ((), st.noted cls.decl []) := rfl
    dsimp only
    rw [bind_of_eq hbegin]
    generalize hrun : findBases ask cls.decl (st.noted cls.decl []) = r at hfind hdeclares
    have hr : findBases ask cls.decl (st.noted cls.decl []) = (r.1, r.2) := hrun
    have hfound := outcome_setBases hfind.ok.1 cls.decl r.1
    have hend : setBases cls.decl r.1 r.2 = ((), r.2.noted cls.decl r.1) := rfl
    rw [bind_of_eq hr, bind_of_eq hend]
    have hkeeps : st.Keeps (r.2.noted cls.decl r.1) := .noted hnoted hfind.step.2
    have hfinding : r.2.classBases.IsFinding cls.decl := by
      refine (hfind.step.2.finding cls.decl).mpr ?_
      rw [BaseNotes.IsFinding, EvalState.noted, BaseNotes.timesNoted_cons, hfirst, if_pos rfl]
    have haccounts := hfind.ok.2.noted (.inr hfinding) hdeclares
    refine ⟨⟨⟨hfound.ok, haccounts⟩, ⟨?_, hkeeps⟩, ?_, trivial⟩, ?_⟩
    · exact (evaluation slack limit keys answers).trans hbegun.step
        ((evaluation slack limit keys answers).trans hfind.step.1 hfound.step)
    · exact Nat.le_trans hbegun.grows (Nat.le_trans hfind.grows hfound.grows)
    · exact EvalState.bases?_noted.trans (if_pos rfl)

end Rules

end Evaluation
end LiveCheck
