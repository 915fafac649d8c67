import LiveCheck.Proofs.Evaluation.Access

/-!
# Evaluations take steps

Every evaluation, whatever it is asked for, is a sequence of the steps that evaluations take, keeps
a coherent session coherent, and answers with types that exist. Its journal is lawful, and it leaves
the stack and the provisional answers as it found them. The proof goes by induction on the room that
is left on the stack: the rules keep to the discipline if what they ask for does.
-/

namespace LiveCheck

open Session Evaluation Discipline TypeTable

/-- If the event is that the type of a declaration was kept, then this type does not stand for the
declaration. -/
def Moment.Resolved (t : TypeTable) (m : Moment) : Prop :=
  ∀ decl type, m.event = .kept (.decl decl) type →
    type < t.size ∧ Evaluation.Resolved t decl type

/-- An evaluation is in order, with these keys on the stack and with these provisional answers. -/
structure EvalState.InOrder (slack limit : Nat) (keys : List EvalKey)
    (answers : List (EvalKey × TypeId)) (st : EvalState) : Prop where
  coherent : st.session.Coherent slack
  depth : st.session.options.maxEvaluationDepth = limit
  stacked : keysOf st.stack = keys
  provided : st.provisional = answers
  known : ∀ entry ∈ answers, entry.2 < st.session.types.extent slack
  lawful : Lawful limit st.journal
  resolved : slack = 0 → ∀ m ∈ st.journal, m.Resolved st.session.types

variable {s : Session}

namespace EvalState

variable {slack limit : Nat} {keys : List EvalKey} {answers : List (EvalKey × TypeId)}
  {st st' st'' : EvalState}

theorem InOrder.access (h : st.InOrder slack limit keys answers) : (access slack).Ok st :=
  ⟨h.coherent, h.provided ▸ h.known⟩

private theorem InOrder.resolved_later (h : st.InOrder slack limit keys answers)
    (hs : Performs slack st.session s) (h0 : slack = 0) :
    ∀ m ∈ st.journal, m.Resolved s.types := by
  subst h0
  intro m hm decl type he
  obtain ⟨hlt, hr⟩ := h.resolved rfl m hm decl type he
  have hextends := hs.steps.extends
  exact ⟨Nat.lt_of_lt_of_le hlt hextends.size_le, hr.extends h.coherent.closed hextends hlt⟩

private theorem InOrder.note (h : st.InOrder slack limit keys answers) (event : EvalEvent)
    {keys' : List EvalKey} (hs : st'.session = st.session) (hp : st'.provisional = st.provisional)
    (hj : st'.journal = ⟨event, st'.stack⟩ :: st.journal) (hkeys : keysOf st'.stack = keys')
    (hlawful : Moment.Lawful limit ⟨event, st'.stack⟩ st.journal)
    (hresolved : slack = 0 → Moment.Resolved st.session.types ⟨event, st'.stack⟩) :
    st'.InOrder slack limit keys' answers where
  coherent := hs ▸ h.coherent
  depth := hs ▸ h.depth
  stacked := hkeys
  provided := hp.trans h.provided
  known := hs ▸ h.known
  lawful := hj ▸ ⟨hlawful, h.lawful⟩
  resolved h0 m hm := by
    rw [hj] at hm
    rw [hs]
    rcases List.mem_cons.mp hm with rfl | hm
    · exact hresolved h0
    · exact h.resolved h0 m hm

/-- Every result is one from before, or it was kept according to the journal. -/
def Records (st st' : EvalState) : Prop :=
  ∀ file v node slot type, st'.session.unit? file = some v → v.typeAt? node slot = some type →
    (∃ u, st.session.unit? file = some u ∧ u.typeAt? node slot = some type) ∨
      ∃ m ∈ st'.journal, ∃ key,
        m.event = .kept key type ∧ LivesAt file node key ∧ key.slot = slot

/-- No result becomes known whose computation has begun, if nothing was being bound. -/
def Withholds (st st' : EvalState) : Prop :=
  st.session.inProgress = [] → ∀ key ∈ keysOf st.stack, ∀ type,
    st'.session.Knows key type → st.session.Knows key type

/-- An evaluation proceeds by the steps that evaluations take, off the stack below the innermost
computation, and records what it keeps. -/
structure Proceeds (slack : Nat) (st st' : EvalState) : Prop where
  performs : Performs slack st.session st'.session
  advances : st.Advances st'
  records : st.Records st'
  withholds : st.Withholds st'

private theorem records_of_inherits (h : st.session.Inherits st'.session) : st.Records st' := by
  intro file v node slot type hv ht
  obtain ⟨u, hu, hut, -⟩ := h.typeAt? hv ht
  exact .inl ⟨u, hu, hut⟩

private theorem Withholds.refl (st : EvalState) : st.Withholds st := fun _ _ _ _ h => h

private theorem withholds_of_prepares (h : Prepares slack st.session st'.session) :
    st.Withholds st' :=
  fun _ _ _ _ hknows => h.knows_iff.mp hknows

theorem Proceeds.refl (slack : Nat) (st : EvalState) : st.Proceeds slack st :=
  ⟨.refl _, .refl _, records_of_inherits (.refl _), .refl st⟩

theorem Proceeds.trans (h : st.Proceeds slack st') (h' : st'.Proceeds slack st'') :
    st.Proceeds slack st'' := by
  refine ⟨h.performs.trans h'.performs, h.advances.trans h'.advances, ?_, ?_⟩
  · intro file v node slot type hv ht
    obtain ⟨u, hu, hut⟩ | hkept := h'.records file v node slot type hv ht
    · refine (h.records file u node slot type hu hut).imp_right fun ⟨m, hm, hkept⟩ => ?_
      obtain ⟨news, hnews, -⟩ := h'.advances.events
      exact ⟨m, hnews ▸ List.mem_append_right news hm, hkept⟩
    · exact .inr hkept
  · intro hidle key hkey type hknows
    have hidle' := h.performs.completes.inProgress.trans hidle
    refine h.withholds hidle key hkey type (h'.withholds hidle' key ?_ type hknows)
    rw [h.advances.keys]
    exact hkey

end EvalState

/-- The discipline of evaluations on top of these keys. -/
def evaluation (slack limit : Nat) (keys : List EvalKey) (answers : List (EvalKey × TypeId)) :
    Discipline EvalState where
  Ok := EvalState.InOrder slack limit keys answers
  size st := st.session.types.extent slack
  Step := EvalState.Proceeds slack
  refl := .refl slack
  trans := .trans

namespace Evaluation

variable {slack limit n : Nat} {keys : List EvalKey} {answers : List (EvalKey × TypeId)} {α : Type}
  {R : α → Nat → Prop} {st st' : EvalState} {key : EvalKey} {t : Session} {m : EvalM α}

/-! ## Off the stack -/

private theorem maxEvaluationDepth_eq (h : Performs slack s t) :
    t.options.maxEvaluationDepth = s.options.maxEvaluationDepth := by
  rw [h.steps.rest]

/-- What rules do by themselves leaves the evaluation in order. -/
theorem outcome_of_access (hst : st.InOrder slack limit keys answers) {r : α × EvalState}
    (h : (access slack).Outcome st R r) : (evaluation slack limit keys answers).Outcome st R r := by
  obtain ⟨hok, ⟨hprepares, hsame⟩, hgrows, hresult⟩ := h
  have hperforms := hprepares.performs
  refine ⟨?_, ⟨hperforms, EvalState.advances_of_eq hsame.stack hsame.journal,
    EvalState.records_of_inherits hprepares.inherits,
    EvalState.withholds_of_prepares hprepares⟩, hgrows, hresult⟩
  refine ⟨hok.1, ?_, ?_, hsame.provisional.trans hst.provided, ?_, ?_, fun h0 => ?_⟩
  · rw [maxEvaluationDepth_eq hperforms, hst.depth]
  · rw [hsame.stack, hst.stacked]
  · exact fun entry hentry => Nat.lt_of_lt_of_le (hst.known entry hentry) hgrows
  · rw [hsame.journal]
    exact hst.lawful
  · rw [hsame.journal]
    exact hst.resolved_later hperforms h0

theorem sound_of_access (hm : (access slack).Sound n m R) :
    (evaluation slack limit keys answers).Sound n m R :=
  fun st hst hn => outcome_of_access hst (hm st hst.access hn)

/-- The discipline of evaluations allows all that rules do, if it allows what they ask for. -/
theorem admits_evaluation {ask : Ask}
    (hask : ∀ n key, (evaluation slack limit keys answers).Sound n (ask key) TypeId.Known) :
    Admits slack (evaluation slack limit keys answers) ask :=
  have h : Admits slack (access slack) fun _ => return .unknown := admits_nothing
  have hbases := fun (_ : Nat) => sound_declaredBases hask
    (fun n file => sound_of_access (h.binds n file))
    fun _ decl bases => sound_of_access (sound_setBases decl bases)
  { size := fun _ => rfl
    closed := fun _ hst => hst.coherent.closed
    asks := hask
    makes := fun hm => sound_of_access (h.makes hm)
    binds := fun n file => sound_of_access (h.binds n file)
    imports := fun n file dotted level => sound_of_access (h.imports n file dotted level)
    enters := fun n package name => sound_of_access (h.enters n package name)
    reports := fun n file d => sound_of_access (h.reports n file d)
    takes := fun n key => sound_of_access (h.takes n key)
    bases := hbases
    compares := fun _ _ => sound_isAssignable hbases
      (fun _ source target => sound_of_access (sound_compareTypes source target)) _ _
    strays := fun hR => sound_of_access (h.strays hR) }

/-! ## Events -/

/-- The keys have room on the stack, and provisional answers are given for keys on it only. -/
structure Fits (limit : Nat) (keys : List EvalKey) (answers : List (EvalKey × TypeId)) : Prop where
  height : keys.length ≤ limit
  nodup : keys.Nodup
  owned : ∀ entry ∈ answers, entry.1 ∈ keys

/-- A key that is not on the stack can be put on it. -/
theorem Fits.cons (h : Fits limit keys answers) (hlt : keys.length < limit) (hkey : key ∉ keys) :
    Fits limit (key :: keys) answers where
  height := hlt
  nodup := List.nodup_cons.mpr ⟨hkey, h.nodup⟩
  owned entry he := List.mem_cons_of_mem key (h.owned entry he)

theorem Fits.new (h : Fits limit keys answers) (hkey : key ∉ keys) :
    ∀ entry ∈ answers, entry.1 ≠ key := fun entry he heq => hkey (heq ▸ h.owned entry he)

/-- A key on the stack can be answered. -/
theorem Fits.answer (h : Fits limit (key :: keys) answers) (type : TypeId) :
    Fits limit (key :: keys) ((key, type) :: answers) :=
  ⟨h.height, h.nodup, List.forall_mem_cons.mpr ⟨List.mem_cons_self, h.owned⟩⟩

private theorem Fits.lawful (h : Fits limit keys answers) {stack : List Frame}
    (hs : keysOf stack = keys)
    {event : EvalEvent} {earlier : List Moment}
    (hplace : ∀ key place, event = .reentered key place → position? stack key = some place)
    (hfull : ∀ key, event = .exceeded key → keys.length = limit)
    (hcomplete : ∀ key type, event = .kept key type → Completed key stack earlier) :
    Moment.Lawful limit ⟨event, stack⟩ earlier := by
  have hlength : stack.length = keys.length := by rw [← length_keysOf, hs]
  refine ⟨?_, ?_, hplace, fun key he => ?_, hcomplete⟩
  · exact hlength ▸ h.height
  · exact hs ▸ h.nodup
  · exact hlength.trans (hfull key he)

variable (hfits : Fits limit keys answers) {type : TypeId} {top : Frame} {D : Discipline EvalState}
  {f : EvalState → EvalM α} {room : Nat}

include hfits

theorem outcome_noteReentry {place : Nat} (hst : st.InOrder slack limit keys answers)
    (hplace : position? st.stack key = some place) :
    (evaluation slack limit keys answers).Outcome st anything (noteReentry key place st) := by
  have hkeys : keysOf (lowerTop place st.stack) = keys := by rw [keysOf_lowerTop, hst.stacked]
  have hlawful : Moment.Lawful limit ⟨.reentered key place, lowerTop place st.stack⟩
      st.journal := by
    refine hfits.lawful hkeys (fun other place' he => ?_) nofun nofun
    obtain ⟨rfl, rfl⟩ := EvalEvent.reentered.inj he
    rw [position?_lowerTop, hplace]
  refine ⟨hst.note (.reentered key place) rfl rfl rfl hkeys hlawful nofun,
    ⟨.refl _, EvalState.advances_lower rfl rfl rfl, EvalState.records_of_inherits (.refl _),
      .refl st⟩, Nat.le_refl _, trivial⟩

omit hfits in
/-- Meeting a full stack is a report, then a mark and an entry in the journal. -/
theorem tooDeep_eq (hst : (access slack).Ok st) (key : EvalKey) :
    ∃ st₁, (access slack).Outcome st anything ((), st₁) ∧ tooDeep key st =
      (.unknown, { st₁ with stack := lowerTop 0 st₁.stack }.note (.exceeded key)) := by
  have hsite : (access slack).Outcome st anything (site? key st) :=
    sound_site? key st hst (Nat.zero_le _)
  simp only [tooDeep, Bind.bind, StateT.bind]
  generalize site? key st = r at hsite ⊢
  obtain ⟨_ | ⟨file, node⟩, st'⟩ := r
  · exact ⟨st', ⟨hsite.ok, hsite.step, hsite.grows, trivial⟩, rfl⟩
  · have hreport : (access slack).Outcome st' anything
        (reportAt file node Code.evaluationTooDeep [] st') :=
      sound_reportAt admits_nothing file node _ _ st' hsite.ok (Nat.zero_le _)
    exact ⟨_, hsite.trans hreport, rfl⟩

theorem sound_tooDeep (hfull : keys.length = limit) (key : EvalKey) :
    (evaluation slack limit keys answers).Sound n (tooDeep key) TypeId.Known := by
  intro st hst _
  obtain ⟨st₁, hout, heq⟩ := tooDeep_eq hst.access key
  have hmid := outcome_of_access hst hout
  have hst₁ : st₁.InOrder slack limit keys answers := hmid.ok
  have hkeys : keysOf (lowerTop 0 st₁.stack) = keys := by rw [keysOf_lowerTop, hst₁.stacked]
  have hlawful : Moment.Lawful limit ⟨.exceeded key, lowerTop 0 st₁.stack⟩ st₁.journal :=
    hfits.lawful hkeys nofun (fun _ _ => hfull) nofun
  have hunknown : TypeId.unknown < TypeId.intrinsicCount := by decide
  rw [heq]
  exact hmid.trans ⟨hst₁.note (.exceeded key) rfl rfl rfl hkeys hlawful nofun,
    ⟨.refl _, EvalState.advances_lower rfl rfl rfl, EvalState.records_of_inherits (.refl _),
      .refl st₁⟩, Nat.le_refl _, .inl hunknown⟩

/-! ## Computations -/

/-- Neither is the key being computed, nor, if nothing is being bound, is its result known. -/
def Unsettled (keys : List EvalKey) (key : EvalKey) (s : Session) : Prop :=
  key ∉ keys ∧ (s.inProgress = [] → ∀ type, ¬ s.Knows key type)

omit hfits in
private theorem Unsettled.prepares (h : Unsettled keys key s) (hp : Prepares slack s t) :
    Unsettled keys key t :=
  ⟨h.1, fun hidle type hknows =>
    h.2 (hp.completes.inProgress.symm.trans hidle) type (hp.knows_iff.mp hknows)⟩

private theorem outcome_kept (hst : st.InOrder slack limit keys answers) {u : SourceUnit}
    (hu : st.session.Opened key.file u) {node : NodeId} (hnode : u.KeepsAt key node)
    (hnew : Unsettled keys key st.session) (htype : type < st.session.types.extent slack)
    (hcomplete : Completed key st.stack st.journal)
    (hresolved : slack = 0 → ∀ decl, key = .decl decl → Resolved st.session.types decl type) :
    (evaluation slack limit keys answers).Outcome st anything ((),
      { st with session := st.session.modifyUnit key.file (·.learned node key type) }.note
        (.kept key type)) := by
  let learned : EvalState :=
    { st with session := st.session.modifyUnit key.file (·.learned node key type) }
  have hperforms : Performs slack st.session learned.session :=
    performs_learn hu hnode htype hnew.2
  have hlearned : learned.InOrder slack limit keys answers :=
    ⟨hperforms.steps.coherent hst.coherent, hst.depth, hst.stacked, hst.provided, hst.known,
      hst.lawful, hst.resolved⟩
  have hlawful : Moment.Lawful limit ⟨.kept key type, st.stack⟩ st.journal := by
    refine hfits.lawful hst.stacked nofun nofun fun other type' he => ?_
    obtain ⟨rfl, -⟩ := EvalEvent.kept.inj he
    exact hcomplete
  have hmoment : slack = 0 → Moment.Resolved st.session.types ⟨.kept key type, st.stack⟩ := by
    intro h0 decl type' he
    obtain ⟨rfl, rfl⟩ := EvalEvent.kept.inj he
    subst h0
    exact ⟨extent_zero _ ▸ htype, hresolved rfl decl rfl⟩
  have hadvances := learned.advances_note (.kept key type) rfl
  refine ⟨hlearned.note (.kept key type) rfl rfl rfl hst.stacked hlawful hmoment,
    ⟨hperforms, { hadvances with }, ?_, ?_⟩, Nat.le_refl _, trivial⟩
  · intro other v node' slot type' hv ht
    obtain ⟨w, hw, ⟨rfl, rfl⟩ | ⟨-, rfl⟩⟩ := unit?_modifyUnit_eq_some hv
    · rw [SourceUnit.typeAt?_learned] at ht
      split at ht
      · next h =>
        obtain ⟨rfl, rfl⟩ := h
        obtain rfl := Option.some.inj ht
        exact .inr ⟨⟨.kept key type, st.stack⟩, List.mem_cons_self, key, rfl,
          livesAt_of_keepsAt hnode, rfl⟩
      · exact .inl ⟨w, hw, ht⟩
    · exact .inl ⟨v, hw, ht⟩
  · intro _ key' hkey' type' hknows
    refine (knows_learned_of_ne hu hnode ?_).mp hknows
    rintro rfl
    exact hnew.1 (hst.stacked ▸ hkey')

private theorem outcome_remember (hst : st.InOrder slack limit keys answers)
    (hnew : Unsettled keys key st.session) (htype : type.Known (st.session.types.extent slack))
    (hcomplete : Completed key st.stack st.journal)
    (hresolved : slack = 0 → ∀ decl, key = .decl decl → Resolved st.session.types decl type) :
    (evaluation slack limit keys answers).Outcome st anything (remember key type st) := by
  obtain ⟨hsite, hopen⟩ := outcome_openSite? hst.access key
  simp only [remember, Bind.bind, StateT.bind]
  generalize openSite? key st = r at hsite hopen ⊢
  have hmid := outcome_of_access hst hsite
  obtain ⟨_ | ⟨file, node⟩, st'⟩ := r
  · exact ⟨hmid.ok, hmid.step, hmid.grows, trivial⟩
  · obtain ⟨rfl, u, hu, hnode⟩ := hopen file node rfl
    obtain ⟨hprepares, hsame⟩ := hsite.step
    have hlt : type < st'.session.types.extent slack :=
      hsite.ok.1.closed.lt_extent (TypeId.lasting_known type _ _ hsite.grows htype)
    have hnew' : Unsettled keys key st'.session := hnew.prepares hprepares
    refine hmid.trans (outcome_kept hfits hmid.ok hu hnode hnew' hlt ?_ fun h0 decl he => ?_)
    · change Completed key st'.stack st'.journal
      rw [hsame.stack, hsame.journal]
      exact hcomplete
    · subst h0
      have hin : type < st.session.types.size := extent_zero _ ▸ hst.coherent.closed.lt_extent htype
      have hextends := hprepares.performs.steps.extends
      exact (hresolved rfl decl he).extends hst.coherent.closed hextends hin

/-- A key that is not on the stack can be put on it. -/
theorem inOrder_push (hst : st.InOrder slack limit keys answers) (hlt : keys.length < limit)
    (hkey : key ∉ keys) : (push key st).2.InOrder slack limit (key :: keys) answers := by
  have hkeys : keysOf (push key st).2.stack = key :: keys := congrArg (key :: ·) hst.stacked
  have hlawful : Moment.Lawful limit ⟨.began key, (push key st).2.stack⟩ st.journal :=
    (hfits.cons hlt hkey).lawful hkeys nofun nofun nofun
  exact hst.note (.began key) rfl rfl rfl hkeys hlawful nofun

omit hfits in
/-- Behind a computation, its frame is on top of the stack that it began on. -/
theorem stack_computed (hst : st'.InOrder slack limit (key :: keys) answers)
    (h : (push key st).2.Advances st') :
    ∃ top, st'.stack = top :: st.stack ∧ top.key = key := by
  have hbelow : st'.stack.tail = st.stack := h.below
  have hkeys := hst.stacked
  cases hstack : st'.stack with
  | nil =>
    rw [hstack] at hkeys
    exact nomatch hkeys
  | cons top rest =>
    rw [hstack] at hbelow hkeys
    exact ⟨top, by rw [← hbelow]; rfl, (List.cons.inj hkeys).1⟩

omit hfits in
private theorem advances_pop (h : (push key st).2.Advances st')
    (hstack : st'.stack = top :: st.stack) :
    st.Advances (pop (st.stack.length + 1) st').2 := by
  obtain ⟨news, hnews, hmarks⟩ := h.events
  have hpop : (pop (st.stack.length + 1) st').2 =
      { st' with stack := lowerTop top.lowest st.stack }.note (.ended top.key) := by
    simp only [pop, hstack]
  rw [hpop]
  refine ⟨keysOf_lowerTop .., tail_lowerTop .., lowestSeen_lowerTop_le ..,
    ⟨⟨.ended top.key, lowerTop top.lowest st.stack⟩ :: news ++
      [⟨.began key, (push key st).2.stack⟩], ?_, fun m hm => ?_⟩, fun hjournal hpos => ?_⟩
  · change _ :: st'.journal = _
    rw [hnews]
    simp [push, EvalState.note]
  · rcases List.mem_append.mp hm with hm | hm
    · rcases List.mem_cons.mp hm with rfl | hm
      · exact ⟨Nat.le_of_eq (length_lowerTop ..).symm, nofun⟩
      · refine ⟨Nat.le_of_succ_le (hmarks m hm).1, fun mark hmark => ?_⟩
        have hseen := (hmarks m hm).2 mark hmark
        rw [hstack] at hseen
        exact Nat.le_trans (lowestSeen_lowerTop_le_place ..) hseen
    · obtain rfl := List.mem_singleton.mp hm
      exact ⟨Nat.le_succ _, nofun⟩
  · have htop := h.unmarked (fun m hm => hjournal m (List.mem_cons_of_mem _ hm)) (Nat.succ_pos _)
    rw [hstack] at htop
    change 0 < lowestSeen (lowerTop top.lowest st.stack)
    rw [lowestSeen_lowerTop]
    exact Nat.lt_min.mpr ⟨hpos, htop⟩

omit hfits in
private theorem completed_pop (h : (push key st).2.Advances st')
    (hstack : st'.stack = top :: st.stack)
    (hkey : top.key = key) (hlowest : st.stack.length + 1 ≤ (pop (st.stack.length + 1) st').1) :
    Completed key (pop (st.stack.length + 1) st').2.stack
      (pop (st.stack.length + 1) st').2.journal := by
  obtain ⟨news, hnews, hmarks⟩ := h.events
  have hpop : pop (st.stack.length + 1) st' =
      (top.lowest, { st' with stack := lowerTop top.lowest st.stack }.note (.ended key)) := by
    simp only [pop, hstack, hkey]
  rw [hpop] at hlowest ⊢
  have hlowest : st.stack.length + 1 ≤ top.lowest := hlowest
  have hlength := length_lowerTop st.stack top.lowest
  refine ⟨news, (push key st).2.stack, st.journal, ?_, ?_, fun m hm => ?_⟩
  · change _ :: st'.journal = _
    rw [hnews]
    rfl
  · exact congrArg (key :: ·) (keysOf_lowerTop ..).symm
  · obtain ⟨hheight, hseen⟩ := hmarks m hm
    rw [hstack] at hseen
    change (lowerTop top.lowest st.stack).length < m.stack.length ∧ _
    refine ⟨by rw [hlength]; exact hheight, fun other place he => ?_, fun other he => ?_⟩
    · have hmark : top.lowest ≤ place := hseen place (by rw [he]; rfl)
      change (lowerTop top.lowest st.stack).length < place
      omega
    · have hmark : top.lowest ≤ 0 := hseen 0 (by rw [he]; rfl)
      omega

/-- A computation that ends leaves the evaluation in order. -/
theorem outcome_pop (hst : st.InOrder slack limit keys answers) {r : TypeId × EvalState}
    (hr : (evaluation slack limit (key :: keys) answers).Outcome (push key st).2 TypeId.Known r) :
    (evaluation slack limit keys answers).Outcome st anything (pop (st.stack.length + 1) r.2) := by
  obtain ⟨top, hstack, hkey⟩ := stack_computed hr.ok hr.step.advances
  have hadvances := advances_pop hr.step.advances hstack
  have hpop : (pop (st.stack.length + 1) r.2).2 =
      { r.2 with stack := lowerTop top.lowest st.stack }.note (.ended top.key) := by
    simp only [pop, hstack]
  have hkeys : keysOf (lowerTop top.lowest st.stack) = keys := by
    rw [keysOf_lowerTop, hst.stacked]
  have hlawful : Moment.Lawful limit ⟨.ended top.key, lowerTop top.lowest st.stack⟩
      r.2.journal := hfits.lawful hkeys nofun nofun nofun
  refine ⟨?_, ⟨?_, hadvances, ?_, ?_⟩, ?_, trivial⟩
  · change (pop _ _).2.InOrder _ _ _ _
    rw [hpop]
    exact hr.ok.note (.ended top.key) rfl rfl rfl hkeys hlawful nofun
  · rw [hpop]
    exact hr.step.performs
  · rw [hpop]
    intro file v node slot type hv ht
    refine (hr.step.records file v node slot type hv ht).imp_right fun ⟨m, hm, hkept⟩ => ?_
    exact ⟨m, List.mem_cons_of_mem _ hm, hkept⟩
  · rw [hpop]
    exact fun hidle key' hkey' => hr.step.withholds hidle key' (List.mem_cons_of_mem key hkey')
  · rw [hpop]
    exact hr.grows

omit hfits in
theorem session_pop (position : Nat) (st : EvalState) : (pop position st).2.session = st.session := by
  unfold pop
  split <;> rfl

/-- A key is put on the stack while it is computed. What it comes to is kept, unless something below
the key was met. -/
def computation (key : EvalKey) (m : EvalM TypeId) : EvalM TypeId := do
  let position ← push key
  let found ← m
  let lowest ← pop position
  let type ← finish key found
  if position ≤ lowest then remember key type
  return type

/-- The computation of a key that is not on the stack keeps to the discipline, if the rules do so
with the key on the stack. -/
theorem outcome_computation (hst : st.InOrder slack limit keys answers)
    (hnew : Unsettled keys key st.session) {m : EvalM TypeId}
    (hrun : (evaluation slack limit (key :: keys) answers).Outcome (push key st).2 TypeId.Known
      (m (push key st).2)) :
    (evaluation slack limit keys answers).Outcome st TypeId.Known (computation key m st) := by
  obtain ⟨top, hstack, htop⟩ := stack_computed hrun.ok hrun.step.advances
  have hpop := outcome_pop hfits hst hrun
  have hcompleted := completed_pop hrun.step.advances hstack htop
  let found := (m (push key st).2).1
  let popped := pop (st.stack.length + 1) (m (push key st).2).2
  have hfound : found.Known (popped.2.session.types.extent slack) := by
    rw [session_pop]
    exact hrun.result
  obtain ⟨hfinish, hresolved⟩ := outcome_finish hpop.ok.access key hfound
  have hfinished := outcome_of_access hpop.ok hfinish
  have hsame := hfinish.step.2
  refine hpop.trans (hfinished.trans ?_)
  let finished := finish key found popped.2
  change (evaluation slack limit keys answers).Outcome finished.2 TypeId.Known
    ((if st.stack.length + 1 ≤ popped.1 then (do remember key finished.1; return finished.1)
      else return finished.1 : EvalM TypeId) finished.2)
  split
  · next hle =>
    have hcomplete : Completed key finished.2.stack finished.2.journal := by
      rw [hsame.stack, hsame.journal]
      exact hcompleted hle
    have hcomputed : Unsettled keys key popped.2.session := by
      refine ⟨hnew.1, fun hidle type hknows => ?_⟩
      rw [session_pop] at hidle hknows
      have hidle := hrun.step.performs.completes.inProgress.symm.trans hidle
      exact hnew.2 hidle type (hrun.step.withholds hidle key List.mem_cons_self type hknows)
    have hkept := outcome_remember hfits hfinished.ok (hcomputed.prepares hfinish.step.1)
      hfinish.result hcomplete hresolved
    refine ⟨hkept.ok, hkept.step, hkept.grows, ?_⟩
    exact TypeId.lasting_known _ _ _ hkept.grows hfinish.result
  · exact ⟨hfinished.ok, (evaluation slack limit keys answers).refl _, Nat.le_refl _, hfinish.result⟩

/-! ## Answers -/

omit hfits in
/-- A computation may read the state that it starts in. -/
theorem sound_get (hf : ∀ st, D.Ok st → n ≤ D.size st → D.Outcome st R (f st st)) :
    D.Sound n (get >>= f) R :=
  fun st hst hn => hf st hst hn

omit hfits in
private theorem outcome_get (hf : D.Outcome st R (f st st)) : D.Outcome st R ((get >>= f) st) := hf

omit hfits in
private theorem outcome_bind {β : Type} {f : α → EvalM β} {Q : β → Nat → Prop}
    (hm : D.Outcome st R (m st)) (hf : D.Outcome (m st).2 Q (f (m st).1 (m st).2)) :
    D.Outcome st Q ((m >>= f) st) := hm.trans hf

-- One level of the engine: what is asked for by the rules is answered with less room.
private theorem sound_level (hroom : room + keys.length = limit)
    (hrules : ∀ room' key, room = room' + 1 → key ∉ keys →
      (evaluation slack limit (key :: keys) answers).Sound 0 (compute (evaluateBy compute room') key)
        TypeId.Known) (key : EvalKey) :
    (evaluation slack limit keys answers).Sound n (evaluateBy compute room key) TypeId.Known := by
  intro st hst hn
  have hmemo : (evaluation slack limit keys answers).Outcome st _ (memo? key st) :=
    sound_of_access (sound_memo? key) st hst hn
  have hunknown := fun hidle (hnone : (memo? key st).1 = none) =>
    not_knows_of_memo? hst.access hidle hnone
  unfold evaluateBy
  refine outcome_bind hmemo ?_
  generalize memo? key st = r at hmemo hunknown ⊢
  obtain ⟨_ | type, st'⟩ := r
  · refine outcome_get ?_
    have hst' : st'.InOrder slack limit keys answers := hmemo.ok
    change (evaluation slack limit keys answers).Outcome st' TypeId.Known _
    cases hplace : position? st'.stack key with
    | some place =>
      have hnote := outcome_noteReentry hfits hst' hplace
      exact hnote.trans (sound_of_access (sound_placeholder key) _ hnote.ok (Nat.le_refl _))
    | none =>
      have hkey : key ∉ keys := hst'.stacked ▸ position?_eq_none_iff.mp hplace
      have hidle : st'.session.inProgress = _ := hmemo.step.performs.completes.inProgress
      have hnew : Unsettled keys key st'.session :=
        ⟨hkey, fun hidle' => hunknown (hidle.symm.trans hidle') rfl⟩
      cases room with
      | zero => exact sound_tooDeep hfits (by omega) key st' hst' (Nat.le_refl _)
      | succ room =>
        have hpush := inOrder_push hfits hst' (by omega) hkey
        exact outcome_computation hfits hst' hnew (hrules room key rfl hkey _ hpush (Nat.zero_le _))
  · exact ⟨hmemo.ok, (evaluation slack limit keys answers).refl _, Nat.le_refl _,
      hmemo.result type rfl⟩

omit hfits in
/-- A provisional answer leaves the evaluation in order. -/
theorem inOrder_setProvisional (hst : st.InOrder slack limit keys answers)
    (hnew : ∀ entry ∈ answers, entry.1 ≠ key) (htype : type.Known (st.session.types.extent slack)) :
    (setProvisional key type st).2.InOrder slack limit keys ((key, type) :: answers) := by
  have hfilter : answers.filter (·.1 != key) = answers :=
    List.filter_eq_self.mpr fun entry he => by simpa using hnew entry he
  refine ⟨hst.coherent, hst.depth, hst.stacked, ?_, fun entry he => ?_, hst.lawful, hst.resolved⟩
  · change (key, type) :: st.provisional.filter _ = _
    rw [hst.provided, hfilter]
  · rcases List.mem_cons.mp he with rfl | he
    · exact hst.coherent.closed.lt_extent htype
    · exact hst.known entry he

omit hfits in
/-- A computation with a provisional answer keeps to the discipline, if it does so once the answer
has been given. -/
theorem outcome_withProvisional (hnew : ∀ entry ∈ answers, entry.1 ≠ key)
    (hrun : (evaluation slack limit keys ((key, type) :: answers)).Outcome
      (setProvisional key type st).2 R (m (setProvisional key type st).2)) :
    (evaluation slack limit keys answers).Outcome st R (withProvisional key type m st) := by
  have hfilter : answers.filter (·.1 != key) = answers :=
    List.filter_eq_self.mpr fun entry he => by simpa using hnew entry he
  have hadvances := hrun.step.advances
  refine ⟨⟨hrun.ok.coherent, hrun.ok.depth, hrun.ok.stacked, ?_, fun entry he => ?_, hrun.ok.lawful,
    hrun.ok.resolved⟩, ⟨hrun.step.performs, { hadvances with }, hrun.step.records, hrun.step.withholds⟩, hrun.grows,
    hrun.result⟩
  · change (m (setProvisional key type st).2).2.provisional.filter _ = _
    rw [hrun.ok.provided, List.filter_cons_of_neg (by simp), hfilter]
  · exact hrun.ok.known entry (List.mem_cons_of_mem _ he)

omit hfits in
private theorem provides_evaluation (hnew : ∀ entry ∈ answers, entry.1 ≠ key) {ask : Ask}
    (hask : ∀ type n key', (evaluation slack limit keys ((key, type) :: answers)).Sound n (ask key')
      TypeId.Known) :
    Provides slack (evaluation slack limit keys answers) ask key := by
  intro n type htype
  refine ⟨evaluation slack limit keys ((key, type) :: answers), admits_evaluation (hask type), ?_⟩
  intro α m R hm st hst hn
  have hknown := TypeId.lasting_known type n _ hn htype
  exact outcome_withProvisional hnew (hm _ (inOrder_setProvisional hst hnew hknown) hn)

section

variable {ask : Ask} (hfits' : Fits limit (key :: keys) answers) (hkey : key ∉ keys)
  (hask : ∀ answers', Fits limit (key :: keys) answers' → ∀ n key',
    (evaluation slack limit (key :: keys) answers').Sound n (ask key') TypeId.Known)

include hfits' hkey hask

/-- A provisional answer may be given for a key on top of the stack. -/
theorem provides_rules : Provides slack (evaluation slack limit (key :: keys) answers) ask key :=
  provides_evaluation (hfits.new hkey) fun type => hask _ (hfits'.answer type)

/-- The rules for a key on top of the stack keep to the discipline, if what they ask for does so
whatever provisional answers are given. -/
theorem sound_rules :
    (evaluation slack limit (key :: keys) answers).Sound n (compute ask key) TypeId.Known :=
  sound_compute (admits_evaluation (hask answers hfits')) key
    (provides_rules hfits hfits' hkey hask)

end

/-- Every key is answered with a type that exists, by steps that evaluations take. -/
theorem sound_evaluateBy (hroom : room + keys.length = limit) (key : EvalKey) :
    (evaluation slack limit keys answers).Sound n (evaluateBy compute room key) TypeId.Known := by
  induction room generalizing keys answers key n with
  | zero => exact sound_level hfits hroom (fun _ _ h => absurd h (Nat.zero_ne_add_one _)) key
  | succ room ih =>
    refine sound_level hfits hroom (fun room' key' h hkey => ?_) key
    obtain rfl := Nat.succ.inj h
    refine sound_rules hfits (hfits.cons (by omega) hkey) hkey fun answers' hfits' n key'' => ?_
    refine ih hfits' ?_ key''
    rw [List.length_cons]
    omega

omit hfits in
/-- The empty stack fits below every limit. -/
theorem fits_nil (limit : Nat) : Fits limit [] [] := ⟨Nat.zero_le _, .nil, nofun⟩

omit hfits in
theorem sound_evaluate (key : EvalKey) :
    (evaluation slack limit [] []).Sound n (evaluate key) TypeId.Known := by
  refine sound_get fun st hst hn => ?_
  rw [hst.depth]
  exact sound_evaluateBy (fits_nil limit) rfl key st hst hn

omit hfits in
/-- The evaluator keeps to the discipline of evaluations. -/
theorem admits_evaluate : Admits slack (evaluation slack limit [] []) evaluate :=
  admits_evaluation fun _ key => sound_evaluate key

omit hfits in
/-- An evaluation that begins in a coherent session is in order. -/
theorem inOrder_start (hs : s.Coherent slack) :
    EvalState.InOrder slack s.options.maxEvaluationDepth [] [] { session := s } :=
  ⟨hs, rfl, rfl, rfl, nofun, trivial, nofun⟩

omit hfits in
/-- What a computation that keeps to the discipline does when it is run on a session. -/
theorem outcome_run (hs : s.Coherent slack)
    (hm : ∀ limit, (evaluation slack limit [] []).Sound 0 m R) :
    (evaluation slack s.options.maxEvaluationDepth [] []).Outcome { session := s } R
      (m { session := s }) :=
  hm _ { session := s } (inOrder_start hs) (Nat.zero_le _)

omit hfits in
/-- An evaluation has a result unless it goes on without end. -/
theorem mem_run {a : α} :
    a ∈ (run m s).1 ↔ (m { session := s }).2.endless = false ∧ (m { session := s }).1 = a := by
  have hrun : (run m s).1 =
      if (m { session := s }).2.endless then none else some (m { session := s }).1 := rfl
  cases he : (m { session := s }).2.endless <;> simp [hrun, he]

omit hfits in
/-- What a sound computation does to a coherent session, and its answer. -/
theorem run_of_sound (hs : s.Coherent slack)
    (hm : ∀ limit, (evaluation slack limit [] []).Sound 0 m R) :
    Performs slack s (run m s).2 ∧ ∀ a ∈ (run m s).1, R a ((run m s).2.types.extent slack) := by
  have h := outcome_run hs hm
  refine ⟨h.step.performs, fun a ha => ?_⟩
  rw [← (mem_run.mp ha).2]
  exact h.result

end Evaluation
end LiveCheck
