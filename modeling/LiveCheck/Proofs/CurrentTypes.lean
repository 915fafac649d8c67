import LiveCheck.Proofs.Session.Runs

/-!
# Readable types are those of the current table

Results of a unit can be read if the unit is bound and the results are stamped with the current
generation. For every result the table of types is remembered in which it was made. As long as the
flushes of a run are steady, all results that can be read were made in the current table, where
their types mean what they meant then; the first flush that is not steady makes a result readable
that was made in a table that is gone.
-/

namespace LiveCheck.Session

/-! ## Where results come from -/

/-- The table of types in which a result was made: how many there were before it, and what it held
at that time. -/
structure Origin where
  epoch : Nat
  types : TypeTable

/-- The current table of types as an origin. -/
def origin (s : Session) : Origin := ⟨s.counters.fullInvalidations, s.types⟩

/-- The origins of all results. -/
abbrev Origins := FileId → NodeId → Slot → Origin

/-- Gives one result another origin. -/
def Origins.record (o : Origins) (file : FileId) (node : NodeId) (slot : Slot) (origin : Origin) :
    Origins :=
  fun f n l => if f = file ∧ n = node ∧ l = slot then origin else o f n l

/-- One step of an answer, with the origins of results. -/
inductive AnswerStep : Session × Origins → Session × Origins → Prop
  | quiet {s t : Session} {o : Origins} (h : QuietStep 0 s t) : AnswerStep (s, o) (t, o)
  /-- A result is kept, and its origin is the current table. -/
  | learn {s : Session} {o : Origins} {file : FileId} {u : SourceUnit} (node : NodeId)
    (key : EvalKey) {type : TypeId} (hu : s.unit? file = some u) (hb : u.state.isBound = true)
    (hs : u.analysis.stamp = s.generation) (ht : type < s.types.size) :
    AnswerStep (s, o)
      (s.modifyUnit file (·.learned node key type), o.record file node key.slot s.origin)
  | flush {s : Session} {o : Origins} : AnswerStep (s, o) (s.flush, o)
  | check {s : Session} {o : Origins} {file : FileId} (hb : s.IsBound file) :
    AnswerStep (s, o) (Query.markChecked file s, o)
  | register {s : Session} {o : Origins} (target : HandleTarget) :
    AnswerStep (s, o) ({ s with handles := (s.handles.register target).2 }, o)

/-- An answer, step by step. -/
abbrev Answers : Session × Origins → Session × Origins → Prop := Relation.ReflTransGen AnswerStep

/-- The origins behind some operations: only questions make results, and they do so after their
first flush. -/
inductive Provenance : Session → Origins → List Operation → Origins → Prop
  | nil {s : Session} {o : Origins} : Provenance s o [] o
  | change {s : Session} {o o' : Origins} {op : Operation} {ops : List Operation}
    (hop : ∀ question, op ≠ .ask question) (h : Provenance (s.apply op) o ops o') :
    Provenance s o (op :: ops) o'
  | ask {s : Session} {o o' o'' : Origins} {question : Question} {ops : List Operation}
    (ha : Answers (s.flush, o) (s.asked question, o'))
    (h : Provenance (s.asked question) o' ops o'') : Provenance s o (.ask question :: ops) o''

/-- Every result that can be read was made in the current table of types, in which its type means
what it meant then. -/
def ReadableCurrent (s : Session) (o : Origins) : Prop :=
  ∀ file u node slot type, s.unit? file = some u → u.state.isBound = true →
    u.analysis.stamp = s.generation → u.typeAt? node slot = some type →
      (o file node slot).epoch = s.counters.fullInvalidations ∧
        ∃ data, (o file node slot).types.get? type = some data ∧ s.types.get? type = some data

/-! ## Steady flushes -/

/-- A unit is bound and has results. -/
def hasResults (s : Session) (file : FileId) : Bool :=
  (s.unit? file).any fun u => u.state.isBound && !u.analysis.isEmpty

/-- The generation of the results of a unit. -/
def stamp? (s : Session) (file : FileId) : Option Nat := (s.unit? file).map (·.analysis.stamp)

/-- If the next flush moves results to a new generation, then none of those in units that are bound
behind it are from a generation before the given one. -/
def Steady (since : Nat) (s : Session) : Prop :=
  s.flush.counters.localInvalidations ≠ s.counters.localInvalidations →
    ∀ file ∈ s.flush.ids, s.flush.hasResults file = true → ∀ stamp ∈ s.stamp? file, since ≤ stamp

instance (since : Nat) (s : Session) : Decidable (s.Steady since) :=
  inferInstanceAs (Decidable (_ → _))

/-- The generation in which the table of types of the second session began, if that of the first one
began in the given generation. -/
def renewed (since : Nat) (s t : Session) : Nat :=
  if t.counters.fullInvalidations = s.counters.fullInvalidations then since else t.generation

end LiveCheck.Session

namespace LiveCheck

/-- Whether an operation begins with a flush. -/
def Operation.flushes : Operation → Bool
  | .flush | .ask _ => true
  | _ => false

/-- A session together with the generation in which its table of types began. -/
structure Era where
  session : Session
  since : Nat

namespace Era

open Session

/-- The era in which a session begins. -/
def start (s : Session) : Era := ⟨s, s.generation⟩

/-- The era behind an operation. -/
def apply (e : Era) (op : Operation) : Era :=
  ⟨e.session.apply op, renewed e.since e.session (e.session.apply op)⟩

/-- The era behind some operations. -/
def after (e : Era) (ops : List Operation) : Era := ops.foldl apply e

/-- The flushes of a run are steady, those at the beginning of questions included. -/
def Steady (e : Era) : List Operation → Prop
  | [] => True
  | op :: ops => (op.flushes = true → e.session.Steady e.since) ∧ (e.apply op).Steady ops

instance decidableSteady (e : Era) : (ops : List Operation) → Decidable (e.Steady ops)
  | [] => inferInstanceAs (Decidable True)
  | op :: ops =>
    have := decidableSteady (e.apply op) ops
    inferInstanceAs (Decidable (_ ∧ (e.apply op).Steady ops))

private theorem session_after (e : Era) (ops : List Operation) :
    (e.after ops).session = e.session.after ops := by
  induction ops generalizing e with
  | nil => rfl
  | cons op ops ih => exact ih (e.apply op)

end Era

namespace Session

variable {since : Nat} {s t : Session} {o o' : Origins} {file : FileId} {u v : SourceUnit}
  {texts : List String}

/-! ## The invariant -/

private theorem typeAt?_congr (h : v.analysis.entries = u.analysis.entries) (node : NodeId)
    (slot : Slot) :
    v.typeAt? node slot = u.typeAt? node slot := by
  rw [SourceUnit.typeAt?, SourceUnit.typeAt?, SideTable.get?, SideTable.get?, h]

private theorem isEmpty_congr (h : v.analysis.entries = u.analysis.entries) :
    v.analysis.isEmpty = u.analysis.isEmpty := by
  rw [SideTable.isEmpty, SideTable.isEmpty, h]

/-- A result that was made in a table of types can be read in the current one. -/
structure Origin.Serves (origin : Origin) (s : Session) (type : TypeId) : Prop where
  epoch : origin.epoch = s.counters.fullInvalidations
  keeps : origin.types.Extends s.types
  known : type < origin.types.size

/-- Results whose stamp is as recent as the table of types were made in it, and older ones were
not. -/
structure Accounted (since : Nat) (s : Session) (o : Origins) : Prop where
  tidy : s.Tidy
  closed : s.types.Closed 0
  since_le : since ≤ s.generation
  stamp_le : ∀ file u, s.unit? file = some u → u.analysis.isEmpty = false →
    u.analysis.stamp ≤ s.generation
  told : ∀ file u, s.unit? file = some u → u.analysis.isEmpty = false →
    ∃ node slot type, u.typeAt? node slot = some type
  recent : ∀ file u node slot type, s.unit? file = some u → u.typeAt? node slot = some type →
    since ≤ u.analysis.stamp → (o file node slot).Serves s type
  old : ∀ file u node slot type, s.unit? file = some u → u.typeAt? node slot = some type →
    u.analysis.stamp < since → (o file node slot).epoch < s.counters.fullInvalidations

theorem Accounted.coherent (hs : s.Accounted since o) : s.Coherent 0 where
  tidy := hs.tidy
  closed := hs.closed
  readable file u node slot type hu hstamp ht := by
    have hserves := hs.recent file u node slot type hu ht (hstamp ▸ hs.since_le)
    have hsize := hserves.keeps.size_le
    exact Nat.lt_of_lt_of_le hserves.known (Nat.le_trans hsize (TypeTable.size_le_extent 0 s.types))

private theorem Accounted.readableCurrent (hs : s.Accounted since o) : s.ReadableCurrent o := by
  intro file u node slot type hu _ hstamp ht
  have hserves := hs.recent file u node slot type hu ht (hstamp ▸ hs.since_le)
  obtain ⟨data, hdata⟩ : ∃ data, (o file node slot).types.get? type = some data :=
    ⟨_, Array.getElem?_eq_getElem hserves.known⟩
  exact ⟨hserves.epoch, data, hdata, hserves.keeps.get? hdata⟩

private theorem Accounted.ofInherits (hs : s.Accounted since o) (h : s.Inherits t) (ht : t.Tidy)
    (he : s.types.Extends t.types) (hc : t.types.Closed 0) (hg : t.generation = s.generation)
    (hf : t.counters.fullInvalidations = s.counters.fullInvalidations) :
    t.Accounted since o where
  tidy := ht
  closed := hc
  since_le := by
    rw [hg]
    exact hs.since_le
  stamp_le file v hv hn := by
    obtain ⟨u, hu, huv⟩ := h.unit? hv hn
    rw [hg, ← huv]
    exact hs.stamp_le file u hu (huv ▸ hn)
  told file v hv hn := by
    obtain ⟨u, hu, huv⟩ := h.unit? hv hn
    obtain ⟨node, slot, type, htype⟩ := hs.told file u hu (huv ▸ hn)
    exact ⟨node, slot, type, (typeAt?_congr (by rw [huv]) node slot).trans htype⟩
  recent file v node slot type hv htype hstamp := by
    obtain ⟨u, hu, hut, hst⟩ := h.typeAt? hv htype
    have hserves := hs.recent file u node slot type hu hut (hst ▸ hstamp)
    exact ⟨hserves.epoch.trans hf.symm, hserves.keeps.trans he, hserves.known⟩
  old file v node slot type hv htype hstamp := by
    obtain ⟨u, hu, hut, hst⟩ := h.typeAt? hv htype
    rw [hf]
    exact hs.old file u node slot type hu hut (hst ▸ hstamp)

private theorem QuietStep.accounted (h : QuietStep 0 s t) (hs : s.Accounted since o) :
    t.Accounted since o := by
  have hc := h.coherent hs.coherent
  have hf : t.counters.fullInvalidations = s.counters.fullInvalidations := by
    rw [(EvalStep.quiet h).rest]
  exact hs.ofInherits h.inherits hc.tidy h.extends hc.closed h.generation hf

private theorem EditStep.accounted (h : EditStep texts s t) (hs : s.Accounted since o) :
    t.Accounted since o := by
  have htypes : t.types = s.types := by rw [h.rest]
  refine hs.ofInherits h.inherits (h.tidy hs.tidy) ?_ ?_ (by rw [h.rest]) (by rw [h.rest])
  · rw [htypes]
    exact .refl _
  · rw [htypes]
    exact hs.closed

private theorem Accounted.learned (hs : s.Accounted since o) (node : NodeId) (key : EvalKey)
    {type : TypeId}
    (hu : s.unit? file = some u) (hb : u.state.isBound = true)
    (hstamp : u.analysis.stamp = s.generation) (ht : type < s.types.size) :
    (s.modifyUnit file (·.learned node key type)).Accounted since
      (o.record file node key.slot s.origin) := by
  -- The results behind the step are the new one and those of before, whose origins stay.
  have hresult {other : FileId} {v : SourceUnit} {n : NodeId} {slot : Slot} {found : TypeId}
      (hv : (s.modifyUnit file (·.learned node key type)).unit? other = some v)
      (hfound : v.typeAt? n slot = some found) :
      ∃ w, s.unit? other = some w ∧ v.analysis.stamp = w.analysis.stamp ∧
        ((other = file ∧ (o.record file node key.slot s.origin) other n slot = s.origin ∧
            found = type) ∨
          ((o.record file node key.slot s.origin) other n slot = o other n slot ∧
            w.typeAt? n slot = some found)) := by
    obtain ⟨w, hw, ⟨rfl, rfl⟩ | ⟨hne, rfl⟩⟩ := unit?_modifyUnit_eq_some hv
    · refine ⟨w, hw, rfl, ?_⟩
      rw [SourceUnit.typeAt?_learned] at hfound
      split at hfound
      · next h =>
        refine .inl ⟨rfl, ?_, (Option.some.inj hfound).symm⟩
        simp [Origins.record, h]
      · next h => exact .inr ⟨by simp [Origins.record, h], hfound⟩
    · exact ⟨v, hw, rfl, .inr ⟨by simp [Origins.record, hne], hfound⟩⟩
  refine ⟨?_, hs.closed, hs.since_le, fun other v hv hn => ?_, fun other v hv hn => ?_,
    fun other v n slot found hv hfound hsince => ?_, fun other v n slot found hv hfound hold => ?_⟩
  · refine Tidy.modifyUnit (s := s) hs.tidy fun v hv => ?_
    obtain rfl := Option.some.inj (hv.symm.trans hu)
    exact (hs.tidy file v hv).learned hb node key type
  · obtain ⟨w, hw, ⟨rfl, rfl⟩ | ⟨-, rfl⟩⟩ := unit?_modifyUnit_eq_some hv
    · obtain rfl := Option.some.inj (hw.symm.trans hu)
      exact Nat.le_of_eq hstamp
    · exact hs.stamp_le other v hw hn
  · obtain ⟨w, hw, ⟨rfl, rfl⟩ | ⟨-, rfl⟩⟩ := unit?_modifyUnit_eq_some hv
    · refine ⟨node, key.slot, type, ?_⟩
      rw [SourceUnit.typeAt?_learned, if_pos ⟨rfl, rfl⟩]
    · exact hs.told other v hw hn
  · obtain ⟨w, hw, hst, ⟨-, ho, rfl⟩ | ⟨ho, hwt⟩⟩ := hresult hv hfound
    · rw [ho]
      exact ⟨rfl, .refl _, ht⟩
    · rw [ho]
      have hserves := hs.recent other w n slot found hw hwt (hst ▸ hsince)
      exact { hserves with }
  · obtain ⟨w, hw, hst, ⟨rfl, -, -⟩ | ⟨ho, hwt⟩⟩ := hresult hv hfound
    · obtain rfl := Option.some.inj (hw.symm.trans hu)
      have := hs.since_le
      omega
    · rw [ho]
      exact hs.old other w n slot found hw hwt (hst ▸ hold)

/-! ## Flushes -/

private theorem Accounted.full (hs : s.Accounted since o) (rebuilt : List FileId) :
    (s.nextGeneration.invalidateAll rebuilt).Accounted (s.generation + 1) o := by
  have hgeneration : (s.nextGeneration.invalidateAll rebuilt).generation = s.generation + 1 :=
    generation_invalidateAll _ rebuilt
  have hfull : (s.nextGeneration.invalidateAll rebuilt).counters.fullInvalidations =
      s.counters.fullInvalidations + 1 := by
    rw [counters_invalidateAll]
    rfl
  have hinherits : s.Inherits (s.nextGeneration.invalidateAll rebuilt) := by
    intro file v hv
    rw [unit?_invalidateAll] at hv
    split at hv
    · exact .inr ⟨v, hv, rfl⟩
    · obtain ⟨u, hu, rfl⟩ := Option.map_eq_some_iff.mp hv
      exact .inr ⟨u, hu, by rw [u.rest_outdated]⟩
  have hstamp {file : FileId} {v : SourceUnit}
      (hv : (s.nextGeneration.invalidateAll rebuilt).unit? file = some v)
      (hn : v.analysis.isEmpty = false) : v.analysis.stamp ≤ s.generation := by
    obtain ⟨u, hu, huv⟩ := hinherits.unit? hv hn
    rw [← huv]
    exact hs.stamp_le file u hu (huv ▸ hn)
  refine ⟨(FlushEnd.full rebuilt).tidy hs.tidy, ?_, Nat.le_of_eq hgeneration.symm,
    fun file v hv hn => ?_, fun file v hv hn => ?_,
    fun file v node slot type hv htype hsince => ?_,
    fun file v node slot type hv htype _ => ?_⟩
  · rw [types_invalidateAll]
    exact TypeTable.closed_initial 0
  · rw [hgeneration]
    exact Nat.le_succ_of_le (hstamp hv hn)
  · obtain ⟨u, hu, huv⟩ := hinherits.unit? hv hn
    obtain ⟨node, slot, type, htype⟩ := hs.told file u hu (huv ▸ hn)
    exact ⟨node, slot, type, (typeAt?_congr (by rw [huv]) node slot).trans htype⟩
  · have := hstamp hv (SourceUnit.isEmpty_eq_false_of_typeAt? htype)
    omega
  · obtain ⟨u, hu, hut, -⟩ := hinherits.typeAt? hv htype
    rw [hfull]
    by_cases hold : u.analysis.stamp < since
    · have := hs.old file u node slot type hu hut hold
      omega
    · have := (hs.recent file u node slot type hu hut (Nat.le_of_not_lt hold)).epoch
      omega

private theorem Accounted.dependents (hs : s.Accounted since o) (rebuilt affected : List FileId)
    (hsteady : ∀ file u v, s.unit? file = some u →
      (s.nextGeneration.invalidateDependents rebuilt affected).unit? file = some v →
      v.state.isBound = true → v.analysis.isEmpty = false → since ≤ u.analysis.stamp) :
    (s.nextGeneration.invalidateDependents rebuilt affected).Accounted since o := by
  let t := s.nextGeneration.invalidateDependents rebuilt affected
  have hrest : t.generation = s.generation + 1 ∧ t.types = s.types ∧
      t.counters.fullInvalidations = s.counters.fullInvalidations := by
    simp only [t]
    rw [rest_invalidateDependents]
    exact ⟨rfl, rfl, rfl⟩
  obtain ⟨hgeneration, htypes, hfull⟩ := hrest
  have hsince := hs.since_le
  refine ⟨(FlushEnd.dependents rebuilt affected).tidy hs.tidy, ?_, ?_, fun file v hv hn => ?_,
    fun file v hv hn => ?_, fun file v node slot type hv htype hstamp => ?_,
    fun file v node slot type hv htype hstamp => ?_⟩
  · change t.types.Closed 0
    rw [htypes]
    exact hs.closed
  · change since ≤ t.generation
    omega
  · obtain ⟨u, hu, hentries, hstamp⟩ := unit?_dependents hv
    have := hs.stamp_le file u hu (isEmpty_congr hentries ▸ hn)
    change v.analysis.stamp ≤ t.generation
    rw [hstamp]
    split <;> omega
  · obtain ⟨u, hu, hentries, -⟩ := unit?_dependents hv
    obtain ⟨node, slot, type, htype⟩ := hs.told file u hu (isEmpty_congr hentries ▸ hn)
    exact ⟨node, slot, type, (typeAt?_congr hentries node slot).trans htype⟩
  · obtain ⟨u, hu, hentries, hv'⟩ := unit?_dependents hv
    have hut := (typeAt?_congr hentries node slot).symm.trans htype
    have hrecent : since ≤ u.analysis.stamp := by
      rw [hv'] at hstamp
      split at hstamp
      · next h =>
        exact hsteady file u v hu hv (Bool.and_eq_true_iff.mp h).1
          (SourceUnit.isEmpty_eq_false_of_typeAt? htype)
      · exact hstamp
    have hserves := hs.recent file u node slot type hu hut hrecent
    exact ⟨hserves.epoch.trans hfull.symm, htypes.symm ▸ hserves.keeps, hserves.known⟩
  · obtain ⟨u, hu, hentries, hv'⟩ := unit?_dependents hv
    have hut := (typeAt?_congr hentries node slot).symm.trans htype
    change _ < t.counters.fullInvalidations
    rw [hfull]
    refine hs.old file u node slot type hu hut ?_
    rw [hv'] at hstamp
    split at hstamp
    · omega
    · exact hstamp

private theorem Accounted.flushing (hs : s.Accounted since o) :
    ∃ r, s.Inherits r ∧ r.Accounted since o ∧ r.counters.fullInvalidations =
      s.counters.fullInvalidations ∧ r.counters.localInvalidations =
      s.counters.localInvalidations ∧ FlushEnd r s.flush := by
  obtain ⟨r, hinherits, htidy, htypes, hgeneration, hfull, hlocal, he⟩ := flush_end hs.tidy
  refine ⟨r, hinherits, hs.ofInherits hinherits htidy ?_ ?_ hgeneration hfull, hfull, hlocal, he⟩
  · rw [htypes]
    exact .refl _
  · rw [htypes]
    exact hs.closed

private theorem hasResults_iff :
    s.hasResults file = true ↔
      ∃ u, s.unit? file = some u ∧ u.state.isBound = true ∧ u.analysis.isEmpty = false := by
  rw [hasResults, Option.any_eq_true]
  simp

private theorem Accounted.flush (hs : s.Accounted since o) (hsteady : s.Steady since) :
    s.flush.Accounted (renewed since s s.flush) o := by
  obtain ⟨r, hinherits, hr, hfull, hlocal, he⟩ := hs.flushing
  unfold Steady at hsteady
  generalize s.flush = t at he hsteady ⊢
  cases he with
  | calm =>
    rw [renewed, if_pos hfull]
    exact hr
  | full rebuilt =>
    have hne : (r.nextGeneration.invalidateAll rebuilt).counters.fullInvalidations ≠
        s.counters.fullInvalidations := by
      rw [counters_invalidateAll, ← hfull]
      exact Nat.succ_ne_self _
    rw [renewed, if_neg hne, generation_invalidateAll]
    exact hr.full rebuilt
  | dependents rebuilt affected =>
    have heq : (r.nextGeneration.invalidateDependents rebuilt affected).counters =
        { r.counters with localInvalidations := r.counters.localInvalidations + 1 } := by
      rw [rest_invalidateDependents]
      rfl
    have hmoved : (r.nextGeneration.invalidateDependents
        rebuilt affected).counters.localInvalidations ≠ s.counters.localInvalidations := by
      rw [heq, ← hlocal]
      exact Nat.succ_ne_self _
    rw [renewed, if_pos (by rw [heq, ← hfull])]
    refine hr.dependents rebuilt affected fun file u v hu hv hbound hn => ?_
    obtain ⟨u', hu', hentries, -⟩ := unit?_dependents hv
    obtain rfl := Option.some.inj (hu.symm.trans hu')
    obtain ⟨w, hw, hwu⟩ := hinherits.unit? hu (isEmpty_congr hentries ▸ hn)
    rw [← hwu]
    refine hsteady hmoved file (mem_ids.mpr (by rw [hv]; rfl)) ?_ w.analysis.stamp ?_
    · exact hasResults_iff.mpr ⟨v, hv, hbound, hn⟩
    · rw [stamp?, hw]
      rfl

private theorem Accounted.steady (hs : s.Accounted since o) (h : s.flush.ReadableCurrent o) :
    s.Steady since := by
  intro hmoved file _ hresults stamp hstamp
  have htidy := hs.tidy.flush
  obtain ⟨r, hinherits, hr, hfull, hlocal, he⟩ := hs.flushing
  obtain ⟨v, hv, hbound, hn⟩ := hasResults_iff.mp hresults
  generalize s.flush = t at he h hmoved hv htidy
  cases he with
  | calm => exact absurd hlocal hmoved
  | full rebuilt =>
    rw [counters_invalidateAll] at hmoved
    exact absurd hlocal hmoved
  | dependents rebuilt affected =>
    obtain ⟨u, hu, hentries, hv'⟩ := unit?_dependents hv
    obtain ⟨w, hw, hwu⟩ := hinherits.unit? hu (isEmpty_congr hentries ▸ hn)
    obtain ⟨w', hw', rfl⟩ := Option.map_eq_some_iff.mp hstamp
    obtain rfl := Option.some.inj (hw.symm.trans hw')
    -- The unit is bound, and so its results are moved to the current generation.
    have htree := (htidy file v hv).bound hbound
    rw [hbound, htree.1, Bool.and_true, if_pos rfl] at hv'
    have hgeneration : v.analysis.stamp =
        (r.nextGeneration.invalidateDependents rebuilt affected).generation := by
      rw [hv', rest_invalidateDependents]
      rfl
    obtain ⟨node, slot, type, htype⟩ := hs.told file w hw (hwu ▸ isEmpty_congr hentries ▸ hn)
    have hvt : v.typeAt? node slot = some type := by
      rw [typeAt?_congr hentries, typeAt?_congr (u := w) (by rw [hwu])]
      exact htype
    have hepoch := (h file v node slot type hv hbound hgeneration hvt).1
    have hsame : (r.nextGeneration.invalidateDependents
        rebuilt affected).counters.fullInvalidations = s.counters.fullInvalidations := by
      rw [rest_invalidateDependents, ← hfull]
      rfl
    refine Nat.le_of_not_lt fun hold => ?_
    have := hs.old file w node slot type hw htype hold
    omega

/-! ## Answers -/

/-- What holds all through an answer that began in the given session. -/
structure Answering (since : Nat) (start s : Session) (o : Origins) : Prop where
  accounted : s.Accounted (renewed since start s) o
  settled : s.dirty = []
  later : start.counters.fullInvalidations ≤ s.counters.fullInvalidations

variable {start : Session} {p q : Session × Origins}

private theorem Answering.ofSame (hs : Answering since start s o)
    (ht : t.Accounted (renewed since start s) o') (hd : t.dirty = s.dirty)
    (hg : t.generation = s.generation)
    (hf : t.counters.fullInvalidations = s.counters.fullInvalidations) :
    Answering since start t o' := by
  have hrenewed : renewed since start t = renewed since start s := by
    rw [renewed, renewed, hg, hf]
  exact ⟨hrenewed ▸ ht, hd.trans hs.settled, hf ▸ hs.later⟩

private theorem Answering.flush (hs : Answering since start s o) :
    Answering since start s.flush o := by
  have htidy := hs.accounted.tidy
  cases hp : s.pendingFull with
  | false => rwa [flush_of_not_pending (by simp [hasPendingChanges, hp, hs.settled])]
  | true =>
    obtain ⟨hfull, hlocal⟩ := counters_flush htidy hp
    have hlater := hs.later
    have haccounted := hs.accounted.flush fun hmoved => absurd hlocal hmoved
    have hrenewed (since : Nat) (start : Session)
        (h : start.counters.fullInvalidations ≤ s.counters.fullInvalidations) :
        renewed since start s.flush = s.flush.generation := by
      rw [renewed, if_neg (by omega)]
    rw [hrenewed _ s (Nat.le_refl _)] at haccounted
    refine ⟨?_, dirty_flush htidy, by omega⟩
    rw [hrenewed since start hlater]
    exact haccounted

private theorem QuietStep.answering (h : QuietStep 0 s t) (hs : Answering since start s o) :
    Answering since start t o :=
  hs.ofSame (h.accounted hs.accounted) (by rw [(EvalStep.quiet h).rest]) h.generation
    (by rw [(EvalStep.quiet h).rest])

private theorem Answering.markChecked (hs : Answering since start s o) (hb : s.IsBound file) :
    Answering since start (Query.markChecked file s) o := by
  have hinherits : s.Inherits (Query.markChecked file s) :=
    inherits_modifyUnit (s := s) fun _ _ => .inr rfl
  refine hs.ofSame (hs.accounted.ofInherits hinherits ?_ (.refl _) hs.accounted.closed rfl rfl)
    rfl rfl rfl
  exact hs.accounted.tidy.markChecked hb

private theorem Answering.register (hs : Answering since start s o) (target : HandleTarget) :
    Answering since start { s with handles := (s.handles.register target).2 } o :=
  hs.ofSame (hs.accounted.ofInherits (.refl s) hs.accounted.tidy (.refl _) hs.accounted.closed rfl
    rfl) rfl rfl rfl

private theorem AnswerStep.answering (h : AnswerStep p q) (hp : Answering since start p.1 p.2) :
    Answering since start q.1 q.2 := by
  cases h with
  | quiet h => exact h.answering hp
  | learn node key hu hb hs ht =>
    exact hp.ofSame (hp.accounted.learned node key hu hb hs ht) rfl rfl rfl
  | flush => exact hp.flush
  | check hb => exact hp.markChecked hb
  | register target => exact hp.register target

private theorem Answers.answering (h : Answers p q) (hp : Answering since start p.1 p.2) :
    Answering since start q.1 q.2 := by
  induction h with
  | refl => exact hp
  | tail _ hstep ih => exact hstep.answering ih

theorem Accounted.answering (hs : s.Accounted since o) (hsteady : s.Steady since) :
    Answering since s s.flush o :=
  ⟨hs.flush hsteady, dirty_flush hs.tidy, fullInvalidations_flush_le hs.tidy⟩

/-- Every answer that began with a steady flush goes step by step. -/
theorem respected_answers (first : Session × Origins) :
    Query.Respected fun s => ∃ o, Answers first (s, o) ∧ Answering since start s o where
  flush s := by
    rintro ⟨o, ha, hs⟩
    exact ⟨o, ha.tail .flush, hs.flush⟩
  evaluate s := by
    rintro ⟨o, ha, hs⟩
    refine ⟨0, hs.accounted.coherent, fun t ht => ?_⟩
    refine ht.steps.induct (P := fun s => ∃ o, Answers first (s, o) ∧ Answering since start s o)
      (fun s t hstep => ?_) ⟨o, ha, hs⟩
    rintro ⟨o, ha, hs⟩
    cases hstep with
    | quiet h => exact ⟨o, ha.tail (.quiet h), h.answering hs⟩
    | learn node key hu hb hst ht =>
      have hlearn : AnswerStep (s, o) _ :=
        .learn node key hu hb hst (by simpa [TypeTable.extent] using ht)
      exact ⟨_, ha.tail hlearn, hlearn.answering hs⟩
  check s file := by
    rintro ⟨o, ha, hs⟩ hb
    exact ⟨o, ha.tail (.check hb), hs.markChecked hb⟩
  register s target := by
    rintro ⟨o, ha, hs⟩
    exact ⟨o, ha.tail (.register target), hs.register target⟩

/-! ## Every run -/

private theorem Edits.accounted (h : Edits texts s t) (hs : s.Accounted since o) :
    t.Accounted (renewed since s t) o := by
  have ht : t.Accounted since o ∧
      t.counters.fullInvalidations = s.counters.fullInvalidations := by
    refine h.induct (P := fun t => t.Accounted since o ∧
      t.counters.fullInvalidations = s.counters.fullInvalidations) (fun r t hstep hr => ?_) ⟨hs, rfl⟩
    refine ⟨hstep.accounted hr.1, ?_⟩
    rw [hstep.rest]
    exact hr.2
  rw [renewed, if_pos ht.2]
  exact ht.1

private theorem Accounted.ofFiles (hs : s.Accounted since o) (files : FileStore) :
    ({ s with files := files } : Session).Accounted
      (renewed since s { s with files := files }) o := by
  rw [renewed, if_pos rfl]
  exact hs.ofInherits (.refl s) hs.tidy (.refl _) hs.closed rfl rfl

private theorem Accounted.apply (hs : s.Accounted since o) {op : Operation}
    (hop : ∀ question, op ≠ .ask question) (hsteady : op.flushes = true → s.Steady since) :
    (s.apply op).Accounted (renewed since s (s.apply op)) o := by
  have hedits {t : Session} (h : Edits op.content?.toList s t) :
      t.Accounted (renewed since s t) o := h.accounted hs
  cases op with
  | update path content => exact hedits (edits_update s path List.mem_cons_self)
  | openFile path content => exact hedits (edits_openFile s path List.mem_cons_self)
  | closeFile path => exact hedits (edits_closeFile s path)
  | notify path => exact hedits (edits_notifyChanged s path)
  | remove path => exact hedits (edits_removeFile s path)
  | setRoots paths => exact hedits (edits_setRoots s paths)
  | collectGarbage => exact hedits (edits_collectGarbage s)
  | setPolicy policy => exact hedits (.single (.settle policy s.roots s.openFiles s.pendingFull))
  | write path content => exact hs.ofFiles _
  | delete path => exact hs.ofFiles _
  | flush => exact hs.flush (hsteady rfl)
  | ask question => exact absurd rfl (hop question)

end Session

namespace Era

open Session

variable {e : Era} {o o' : Origins} {ops : List Operation}

private theorem accounted_after (he : e.session.Accounted e.since o) (hsteady : e.Steady ops)
    (h : Provenance e.session o ops o') :
    (e.after ops).session.Accounted (e.after ops).since o' := by
  induction ops generalizing e o with
  | nil =>
    cases h with
    | nil => exact he
  | cons op ops ih =>
    cases h with
    | change hop h =>
      exact ih (e := e.apply op) (he.apply hop hsteady.1) hsteady.2 h
    | ask ha h =>
      have hanswer := ha.answering (he.answering (hsteady.1 rfl))
      exact ih (e := e.apply _) hanswer.accounted hsteady.2 h

private theorem exists_provenance (he : e.session.Accounted e.since o) (hsteady : e.Steady ops) :
    ∃ o', Provenance e.session o ops o' := by
  induction ops generalizing e o with
  | nil => exact ⟨o, .nil⟩
  | cons op ops ih =>
    by_cases hop : ∀ question, op ≠ .ask question
    · obtain ⟨o', h⟩ := ih (e := e.apply op) (he.apply hop hsteady.1) hsteady.2
      exact ⟨o', .change hop h⟩
    · obtain ⟨question, rfl⟩ : ∃ question, op = .ask question := by simpa using hop
      obtain ⟨o₁, ha, hs⟩ := (respected_answers (e.session.flush, o)).asked
        ⟨o, .refl, he.answering (hsteady.1 rfl)⟩ question
      obtain ⟨o', h⟩ := ih (e := e.apply (.ask question)) hs.accounted hsteady.2
      exact ⟨o', .ask ha h⟩

end Era

namespace Session

private theorem accounted_new (options : Options) (files : FileStore) (hostPaths : List String)
    (o : Origins) :
    (Session.new options files hostPaths).Accounted 1 o := by
  have hnone (file : FileId) (u : SourceUnit) :
      (Session.new options files hostPaths).unit? file ≠ some u := nofun
  refine ⟨(orderly_new options files hostPaths).1, TypeTable.closed_initial 0, Nat.le_refl 1,
    fun file u hu => ?_, fun file u hu => ?_, fun file u _ _ _ hu => ?_, fun file u _ _ _ hu => ?_⟩
  all_goals exact absurd hu (hnone file u)

/-- In every run whose flushes are steady, results are accounted for. -/
theorem exists_accounted_after (options : Options) (files : FileStore) (hostPaths : List String)
    (ops : List Operation) (hsteady : (Era.start (.new options files hostPaths)).Steady ops) :
    ∃ o, ((Session.new options files hostPaths).after ops).Accounted
      ((Era.start (.new options files hostPaths)).after ops).since o := by
  let start := Era.start (Session.new options files hostPaths)
  let origins : Origins := fun _ _ _ => ⟨0, .initial⟩
  have hnew : start.session.Accounted start.since origins :=
    accounted_new options files hostPaths origins
  obtain ⟨o, ho⟩ := Era.exists_provenance hnew hsteady
  have hacc := Era.accounted_after hnew hsteady ho
  rw [Era.session_after] at hacc
  exact ⟨o, hacc⟩

/-- If the next flush is steady, too, then all readable types exist behind it. -/
theorem coherent_flush (options : Options) (files : FileStore) (hostPaths : List String)
    (ops : List Operation) :
    let start := Session.new options files hostPaths
    let s := start.after ops
    (Era.start start).Steady ops → s.Steady ((Era.start start).after ops).since →
      s.flush.Coherent 0 := by
  intro start s hsteady hnext
  obtain ⟨o, hacc⟩ := exists_accounted_after options files hostPaths ops hsteady
  exact (hacc.answering hnext).accounted.coherent

/-- In every run whose flushes are steady, all results have origins, and those that can be read were
made in the current table of types, where their types mean what they meant then. The next flush
keeps it so exactly if it is steady. -/
theorem readableCurrent_after (options : Options) (files : FileStore) (hostPaths : List String)
    (ops : List Operation) (hsteady : (Era.start (.new options files hostPaths)).Steady ops) :
    let start := Session.new options files hostPaths
    let since := ((Era.start start).after ops).since
    ∀ o, (∃ o', Provenance start o ops o') ∧ ∀ o', Provenance start o ops o' →
      (start.after ops).ReadableCurrent o' ∧
        ((start.after ops).flush.ReadableCurrent o' ↔ (start.after ops).Steady since) := by
  intro start since o
  have hnew : (Era.start start).session.Accounted (Era.start start).since o :=
    accounted_new options files hostPaths o
  refine ⟨Era.exists_provenance hnew hsteady, fun o' h => ?_⟩
  have hs := Era.accounted_after hnew hsteady h
  rw [Era.session_after] at hs
  exact ⟨hs.readableCurrent, hs.steady, fun h => (hs.flush h).readableCurrent⟩

/-- Results that are made again after everything was looked at again may be moved on. -/
theorem readableCurrent_after_renewal :
    let files := FileStore.ofList [("a.py", "x = [1]\n"), ("c.py", "z = 1\n"), ("d.py", "w = 1\n")]
    let ops : List Operation :=
      [.setRoots ["a.py", "c.py", "d.py"], .ask (.checkProgram false), .update "d.py" "v = 1\n",
        .ask (.checkProgram false), .update "a.py" "x = [1]\n", .update "c.py" "z = 2\n"]
    let start := Session.new {} files []
    let since := ((Era.start start).after ops).since
    (Era.start start).Steady ops ∧ since = 2 ∧ (start.after ops).Steady since ∧
      (start.after ops).flush.generation = 3 ∧ (start.after ops).flush.hasResults 0 = true ∧
      ∀ o, (∃ o', Provenance start o ops o') ∧ ∀ o', Provenance start o ops o' →
        (start.after ops).ReadableCurrent o' ∧
          ((start.after ops).flush.ReadableCurrent o' ↔ (start.after ops).Steady since) := by
  intro files ops start since
  have hrun : (Era.start start).Steady ops ∧ since = 2 ∧ (start.after ops).Steady since ∧
      (start.after ops).flush.generation = 3 ∧ (start.after ops).flush.hasResults 0 = true := by
    decide +kernel
  obtain ⟨hsteady, hsince, hnext, hgeneration, hresults⟩ := hrun
  exact ⟨hsteady, hsince, hnext, hgeneration, hresults,
    readableCurrent_after {} files [] ops hsteady⟩

/-- After everything was looked at again, a unit whose content is replaced by the same text comes
back with the results of the old table of types, and the next change makes them readable. -/
theorem not_readableCurrent_after_replacement :
    let files := FileStore.ofList [("a.py", "x = [1]\n"), ("c.py", "z = 1\n"), ("d.py", "w = 1\n")]
    let ops : List Operation :=
      [.setRoots ["a.py", "c.py", "d.py"], .ask (.typeOfSymbol 0 "x"), .ask (.typeOfSymbol 1 "z"),
        .ask (.typeOfSymbol 2 "w"), .update "d.py" "v = 1\n", .flush,
        .update "a.py" "x = [1]\n", .update "c.py" "z = 2\n", .flush]
    let s := (Session.new {} files []).after ops
    s.hasResults 0 = true ∧ s.stamp? 0 = some s.generation ∧
      ((s.unit? 0).bind fun u => u.typeAt? 2 .expression) = some 12 ∧ s.types.get? 12 = none ∧
      ∀ o, ¬ s.ReadableCurrent o := by
  intro files ops s
  have hrun : s.hasResults 0 = true ∧ s.stamp? 0 = some s.generation ∧
      ((s.unit? 0).bind fun u => u.typeAt? 2 .expression) = some 12 ∧ s.types.get? 12 = none := by
    decide +kernel
  obtain ⟨hresults, hstamp, htype, hunknown⟩ := hrun
  refine ⟨hresults, hstamp, htype, hunknown, fun o h => ?_⟩
  obtain ⟨u, hu, hbound, -⟩ := hasResults_iff.mp hresults
  have hstamp : u.analysis.stamp = s.generation := by simpa [stamp?, hu] using hstamp
  have htype : u.typeAt? 2 .expression = some 12 := by simpa [hu] using htype
  obtain ⟨-, data, -, hdata⟩ := h 0 u 2 .expression 12 hu hbound hstamp htype
  rw [hunknown] at hdata
  exact nomatch hdata

end Session
end LiveCheck
