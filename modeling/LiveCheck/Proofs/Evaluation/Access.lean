import LiveCheck.Proofs.Evaluation.Knowledge
import LiveCheck.Proofs.Evaluation.Statements

/-!
# What rules do by themselves

Between the keys that it asks for, a rule of evaluation works on the session, the table of types and
its own notes. All of this is made of steps that evaluations take, keeps a coherent session coherent,
and touches neither the stack nor the journal.
-/

/-!
## Stacks and journals of evaluations

The journal of an evaluation records what happened and the stack behind each event. A journal is
lawful if the stack was never too high, no key was on it twice, and results were kept only for
computations that had seen nothing unfinished below them and never met a full stack. A computation
advances an evaluation if it leaves the stack below its own frame alone and its own mark is not
above anything that it has seen unfinished.
-/

namespace LiveCheck

open Evaluation

/-! ### Stacks -/

/-- The keys of the computations that have begun, the innermost first. -/
def keysOf (stack : List Frame) : List EvalKey := stack.map (·.key)

/-- The lowest place that the innermost computation has seen unfinished. -/
def lowestSeen : List Frame → Nat
  | [] => 0
  | top :: _ => top.lowest

variable (stack : List Frame) (key : EvalKey) (place : Nat)

@[simp]
theorem length_keysOf : (keysOf stack).length = stack.length := List.length_map ..

@[simp]
theorem keysOf_lowerTop : keysOf (lowerTop place stack) = keysOf stack := by
  cases stack <;> rfl

@[simp]
theorem tail_lowerTop : (lowerTop place stack).tail = stack.tail := by
  cases stack <;> rfl

@[simp]
theorem length_lowerTop : (lowerTop place stack).length = stack.length := by
  cases stack <;> rfl

@[simp]
theorem lowestSeen_lowerTop : lowestSeen (lowerTop place stack) = min (lowestSeen stack) place := by
  cases stack <;> simp [lowestSeen, lowerTop]

theorem lowestSeen_lowerTop_le : lowestSeen (lowerTop place stack) ≤ lowestSeen stack := by
  rw [lowestSeen_lowerTop]
  exact Nat.min_le_left _ _

theorem lowestSeen_lowerTop_le_place : lowestSeen (lowerTop place stack) ≤ place := by
  rw [lowestSeen_lowerTop]
  exact Nat.min_le_right _ _

/-- The place of a key depends on the keys only. -/
theorem position?_eq_keysOf :
    position? stack key = ((keysOf stack).reverse.findIdx? (· == key)).map (· + 1) := by
  rw [position?, keysOf, ← List.map_reverse, List.findIdx?_map]
  rfl

theorem position?_lowerTop : position? (lowerTop place stack) key = position? stack key := by
  rw [position?_eq_keysOf, position?_eq_keysOf, keysOf_lowerTop]

variable {stack key place}

/-- A key has no place on a stack exactly if it is not on it. -/
theorem position?_eq_none_iff : position? stack key = none ↔ key ∉ keysOf stack := by
  rw [position?_eq_keysOf, Option.map_eq_none_iff, List.findIdx?_eq_none_iff]
  simp only [List.mem_reverse, beq_eq_false_iff_ne]
  constructor
  · intro h hmem
    exact h key hmem rfl
  · intro h other hmem heq
    exact h (heq ▸ hmem)

/-- Where no key is on the stack twice, a key has a place exactly if the stack has the key there,
counted from one at the bottom. -/
theorem position?_eq_some_iff (hn : (keysOf stack).Nodup) :
    position? stack key = some place ↔
      0 < place ∧ (keysOf stack).reverse[place - 1]? = some key := by
  rw [position?_eq_keysOf, Option.map_eq_some_iff]
  have hn : (keysOf stack).reverse.Nodup := List.nodup_reverse.mpr hn
  generalize (keysOf stack).reverse = keys at hn ⊢
  constructor
  · rintro ⟨index, hfound, rfl⟩
    obtain ⟨hlt, hkey, -⟩ := List.findIdx?_eq_some_iff_getElem.mp hfound
    rw [Nat.add_sub_cancel, List.getElem?_eq_getElem hlt]
    simpa using hkey
  · rintro ⟨hpos, hkey⟩
    refine ⟨place - 1, ?_, by omega⟩
    obtain ⟨hlt, hkey⟩ := List.getElem?_eq_some_iff.mp hkey
    refine List.findIdx?_eq_some_iff_getElem.mpr ⟨hlt, by simpa using hkey, fun j hj => ?_⟩
    -- Another occurrence would be the same place.
    simp only [beq_iff_eq, ← hkey]
    exact fun heq => absurd (hn.getElem_inj_iff.mp heq) (by omega)

/-! ### Journals -/

/-- The lowest place of which an event shows that its computation is unfinished. -/
def EvalEvent.mark? : EvalEvent → Option Nat
  | .reentered _ place => some place
  | .exceeded _ => some 0
  | _ => none

/-- The computation of the key has just ended on top of the stack, and it was complete: since it
began, no key below it was asked for again, and the stack was never full. -/
def Completed (key : EvalKey) (stack : List Frame) (journal : List Moment) : Prop :=
  ∃ inside opened earlier,
    journal = ⟨.ended key, stack⟩ :: inside ++ ⟨.began key, opened⟩ :: earlier ∧
      keysOf opened = key :: keysOf stack ∧
      ∀ m ∈ inside, stack.length < m.stack.length ∧
        (∀ other place, m.event = .reentered other place → stack.length < place) ∧
        ∀ other, m.event ≠ .exceeded other

/-- The stack behind an event is not too high and has no key twice; a key that was asked for again
is at the place that was noted, a full stack is full, and a result that was kept is complete. -/
structure Moment.Lawful (limit : Nat) (m : Moment) (earlier : List Moment) : Prop where
  height : m.stack.length ≤ limit
  nodup : (keysOf m.stack).Nodup
  place : ∀ key place, m.event = .reentered key place → position? m.stack key = some place
  full : ∀ key, m.event = .exceeded key → m.stack.length = limit
  complete : ∀ key type, m.event = .kept key type → Completed key m.stack earlier

/-- All events of a journal were lawful when they happened. -/
def Lawful (limit : Nat) : List Moment → Prop
  | [] => True
  | m :: earlier => m.Lawful limit earlier ∧ Lawful limit earlier

/-- At every moment of a lawful journal, what happened was lawful. -/
theorem Lawful.moment {limit : Nat} {journal later earlier : List Moment} {m : Moment}
    (h : Lawful limit journal) (he : journal = later ++ m :: earlier) : m.Lawful limit earlier := by
  induction later generalizing journal with
  | nil =>
    subst he
    exact h.1
  | cons _ later ih =>
    subst he
    exact ih h.2 rfl

namespace EvalState

variable {st st' st'' : EvalState}

/-- The evaluation went on without touching the stack below the innermost computation; that one is
marked for all that happened. -/
structure Advances (st st' : EvalState) : Prop where
  keys : keysOf st'.stack = keysOf st.stack
  below : st'.stack.tail = st.stack.tail
  lowest : lowestSeen st'.stack ≤ lowestSeen st.stack
  events : ∃ news, st'.journal = news ++ st.journal ∧ ∀ m ∈ news,
    st.stack.length ≤ m.stack.length ∧ ∀ mark ∈ m.event.mark?, lowestSeen st'.stack ≤ mark
  /-- The stack counts as having been full only if it was. -/
  unmarked : (∀ m ∈ st'.journal, m.event.mark? ≠ some 0) → 0 < lowestSeen st.stack →
    0 < lowestSeen st'.stack

private theorem Advances.length (h : st.Advances st') : st'.stack.length = st.stack.length := by
  rw [← length_keysOf, h.keys, length_keysOf]

/-- What the journal says stays in it. -/
theorem Advances.suffix (h : st.Advances st') : st.journal <:+ st'.journal := by
  obtain ⟨news, hnews, -⟩ := h.events
  exact ⟨news, hnews.symm⟩

/-- Nothing happens as long as neither the stack nor the journal changes. -/
theorem advances_of_eq (hs : st'.stack = st.stack) (hj : st'.journal = st.journal) :
    st.Advances st' where
  keys := by rw [hs]
  below := by rw [hs]
  lowest := Nat.le_of_eq (by rw [hs])
  events := ⟨[], hj, nofun⟩
  unmarked _ hpos := by rwa [hs]

theorem Advances.refl (st : EvalState) : st.Advances st := advances_of_eq rfl rfl

theorem Advances.trans (h : st.Advances st') (h' : st'.Advances st'') : st.Advances st'' where
  keys := h'.keys.trans h.keys
  below := h'.below.trans h.below
  lowest := Nat.le_trans h'.lowest h.lowest
  events := by
    obtain ⟨news, hnews, hmarks⟩ := h.events
    obtain ⟨news', hnews', hmarks'⟩ := h'.events
    refine ⟨news' ++ news, by rw [hnews', hnews, List.append_assoc], fun m hm => ?_⟩
    rcases List.mem_append.mp hm with hm | hm
    · exact ⟨h.length ▸ (hmarks' m hm).1, (hmarks' m hm).2⟩
    · exact ⟨(hmarks m hm).1, fun mark hmark => Nat.le_trans h'.lowest ((hmarks m hm).2 mark hmark)⟩
  unmarked hjournal hpos := by
    obtain ⟨news', hnews', -⟩ := h'.events
    refine h'.unmarked hjournal (h.unmarked (fun m hm => hjournal m ?_) hpos)
    rw [hnews']
    exact List.mem_append_right news' hm

/-- Lowering the mark of the innermost computation and writing the event into the journal that
tells of it. -/
theorem advances_lower {event : EvalEvent} {place : Nat}
    (hs : st'.stack = lowerTop place st.stack) (hj : st'.journal = ⟨event, st'.stack⟩ :: st.journal)
    (hm : event.mark? = some place) : st.Advances st' where
  keys := by rw [hs, keysOf_lowerTop]
  below := by rw [hs, tail_lowerTop]
  lowest := hs ▸ lowestSeen_lowerTop_le ..
  events := by
    refine ⟨[⟨event, st'.stack⟩], hj, fun m h => ?_⟩
    obtain rfl := List.mem_singleton.mp h
    refine ⟨Nat.le_of_eq (by rw [hs, length_lowerTop]), fun mark hmark => ?_⟩
    obtain rfl := Option.some.inj (hm.symm.trans hmark)
    rw [hs]
    exact lowestSeen_lowerTop_le_place ..
  unmarked hjournal hpos := by
    have hplace : event.mark? ≠ some 0 := hjournal ⟨event, st'.stack⟩ (by rw [hj]; simp)
    have hpos' : 0 < place := Nat.pos_of_ne_zero fun h => hplace (h ▸ hm)
    rw [hs, lowestSeen_lowerTop]
    exact Nat.lt_min.mpr ⟨hpos, hpos'⟩

/-- Writing an event into the journal that marks nothing. -/
theorem advances_note (st : EvalState) (event : EvalEvent) (hm : event.mark? = none) :
    st.Advances (st.note event) where
  keys := rfl
  below := rfl
  lowest := Nat.le_refl _
  events := by
    refine ⟨[⟨event, st.stack⟩], rfl, fun m h => ?_⟩
    obtain rfl := List.mem_singleton.mp h
    refine ⟨Nat.le_refl _, fun mark hmark => ?_⟩
    rw [hm] at hmark
    exact nomatch hmark
  unmarked _ hpos := hpos

end EvalState
end LiveCheck

namespace LiveCheck

open Session Evaluation Discipline TypeTable

/-- The two states of an evaluation agree in the stack, the journal and the provisional answers. -/
structure EvalState.SameCourse (st st' : EvalState) : Prop where
  stack : st'.stack = st.stack
  journal : st'.journal = st.journal
  provisional : st'.provisional = st.provisional

private theorem EvalState.SameCourse.refl (st : EvalState) : st.SameCourse st := ⟨rfl, rfl, rfl⟩

private theorem EvalState.SameCourse.trans {st st' st'' : EvalState} (h : st.SameCourse st')
    (h' : st'.SameCourse st'') : st.SameCourse st'' :=
  ⟨h'.stack.trans h.stack, h'.journal.trans h.journal, h'.provisional.trans h.provisional⟩

/-- The discipline of what rules do by themselves: coherent sessions, and the steps that evaluations
take, off the stack and without keeping results. -/
def access (slack : Nat) : Discipline EvalState where
  Ok st := st.session.Coherent slack ∧
    ∀ entry ∈ st.provisional, entry.2 < st.session.types.extent slack
  size st := st.session.types.extent slack
  Step st st' := Prepares slack st.session st'.session ∧ st.SameCourse st'
  refl st := ⟨.refl st.session, .refl st⟩
  trans h h' := ⟨h.1.trans h'.1, h.2.trans h'.2⟩

namespace Evaluation

variable {slack n : Nat} {α : Type} {R : α → Nat → Prop} {st : EvalState} {a : α} {u : SourceUnit}
  {node : NodeId} {file : FileId} {b : Binding} {type id : TypeId} {t t' : TypeTable}
  {decl : DeclId}

/-- After an operation that is known, the rest runs on what it gives. -/
theorem bind_of_eq {β : Type} {m : EvalM α} {f : α → EvalM β} {st' : EvalState}
    (h : m st = (a, st')) : (m >>= f) st = f a st' := by
  simp only [Bind.bind, StateT.bind, h]

/-! ## Operations of the session -/

private theorem outcome_of_performs (hst : (access slack).Ok st) {s : Session}
    (he : Prepares slack st.session s) (hR : R a (s.types.extent slack)) :
    (access slack).Outcome st R (a, { st with session := s }) := by
  have hgrows := he.performs.steps.extends.extent_le slack
  refine ⟨⟨he.performs.steps.coherent hst.1, fun entry hm => ?_⟩, ⟨he, rfl, rfl, rfl⟩, hgrows, hR⟩
  exact Nat.lt_of_lt_of_le (hst.2 entry hm) hgrows

private theorem sound_withSession {f : Session → α × Session}
    (hf : ∀ s, s.Coherent slack → Prepares slack s (f s).2) :
    (access slack).Sound n (withSession f) anything :=
  fun st hst _ => outcome_of_performs hst (hf st.session hst.1) trivial

private theorem sound_aside {f : EvalM α} (hs : ∀ st, (f st).2.session = st.session)
    (hc : ∀ st, EvalState.SameCourse st (f st).2) : (access slack).Sound n f anything := by
  intro st hst _
  refine ⟨?_, ⟨?_, hc st⟩, ?_, trivial⟩
  · change (f st).2.session.Coherent slack ∧
      ∀ entry ∈ (f st).2.provisional, entry.2 < (f st).2.session.types.extent slack
    rw [hs, (hc st).provisional]
    exact hst
  · rw [hs]
    exact .refl st.session
  · exact Nat.le_of_eq (congrArg (fun s : Session => s.types.extent slack) (hs st).symm)

theorem sound_bound? (file : FileId) : (access slack).Sound n (bound? file) anything :=
  sound_withSession fun _ hs => prepares_bindFile hs.tidy file

private theorem sound_withTypes {m : TypeM α} (hm : (growth slack).Sound n m R) :
    (access slack).Sound n (withTypes m) R := by
  intro st hst hn
  have h := hm st.session.types hst.1.closed hn
  exact outcome_of_performs hst (prepares_make h.step h.ok) h.result

theorem sound_setBases (decl : DeclId) (bases : List ClassKey) :
    (access slack).Sound n (setBases decl bases) anything :=
  sound_aside (fun _ => rfl) fun _ => ⟨rfl, rfl, rfl⟩

theorem sound_compareTypes (source target : TypeId) :
    (access slack).Sound n (compareTypes source target) anything :=
  sound_aside (fun _ => rfl) fun _ => ⟨rfl, rfl, rfl⟩

private theorem admits_access {ask : Ask}
    (hask : ∀ n key, (access slack).Sound n (ask key) TypeId.Known) :
    Admits slack (access slack) ask where
  size _ := rfl
  closed _ hst := hst.1.closed
  asks := hask
  makes := sound_withTypes
  binds _ file := sound_bound? file
  imports _ file dotted level :=
    sound_withSession fun s _ => prepares_importFrom s file dotted level
  enters _ package name := sound_withSession fun s _ => prepares_submodule s package name
  reports _ file d _ hst _ := outcome_of_performs hst (prepares_report _ file d) trivial
  takes _ _ := sound_aside (fun _ => rfl) fun _ => ⟨rfl, rfl, rfl⟩
  bases _ := sound_declaredBases hask (fun _ => sound_bound?) fun _ => sound_setBases
  compares _ _ := sound_isAssignable
    (fun _ => sound_declaredBases hask (fun _ => sound_bound?) fun _ => sound_setBases)
    (fun _ => sound_compareTypes) _ _
  strays {_ _ a _} hR st hst hn :=
    have h := sound_aside (f := giveUp a) (fun _ => rfl) (fun _ => ⟨rfl, rfl, rfl⟩) st hst hn
    ⟨h.ok, h.step, h.grows, hR _ (Nat.le_trans hn h.grows)⟩

/-- Rules that ask for nothing are allowed all that they do. -/
theorem admits_nothing : Admits slack (access slack) fun _ => return .unknown :=
  admits_access fun _ _ => sound_unknown

/-! ## Results -/

theorem sound_site? (key : EvalKey) : (access slack).Sound n (site? key) anything := by
  cases key with
  | node file node => exact .pure fun _ _ => trivial
  | result file node => exact .pure fun _ _ => trivial
  | decl decl =>
    exact (sound_declaration? admits_nothing decl).bind fun _ _ _ _ => .pure fun _ _ => trivial

/-- The result for the key belongs to the node of the file. -/
def LivesAt (file : FileId) (node : NodeId) : EvalKey → Prop
  | .node f n | .result f n => f = file ∧ n = node
  | .decl d => d.file = file

theorem livesAt_of_keepsAt {key : EvalKey} (h : u.KeepsAt key node) :
    LivesAt key.file node key := by
  cases key with
  | node f n => exact ⟨rfl, h⟩
  | result f n => exact ⟨rfl, h⟩
  | decl d => exact rfl

private theorem keepsAt_site? (hs : st.session.Tidy) {key : EvalKey}
    (h : (site? key st).1 = some (file, node)) :
    file = key.file ∧ ∀ s v, (site? key st).2.session.Completes s → s.unit? file = some v →
      v.KeepsAt key node := by
  cases key with
  | node f n =>
    obtain ⟨rfl, rfl⟩ := Prod.mk.inj (Option.some.inj h)
    exact ⟨rfl, fun _ _ _ _ => rfl⟩
  | result f n =>
    obtain ⟨rfl, rfl⟩ := Prod.mk.inj (Option.some.inj h)
    exact ⟨rfl, fun _ _ _ _ => rfl⟩
  | decl d =>
    have h : ((st.session.bindFile d.file).1.bind (·.binding.declarations[d.index]?)).map
        (fun found => (d.file, found.node)) = some (file, node) := h
    obtain ⟨found, hfound, h⟩ := Option.map_eq_some_iff.mp h
    obtain ⟨bound, hbound, hfound⟩ := Option.bind_eq_some_iff.mp hfound
    obtain ⟨rfl, rfl⟩ := Prod.mk.inj h
    obtain ⟨u, hu, hb, hbinding⟩ := bound_of_bindFile hs hbound
    refine ⟨rfl, fun s v hc hv => ⟨bound.binding, found, ?_, hfound, rfl⟩⟩
    obtain ⟨w, hw, hstays⟩ := hc.bound d.file u hu hb
    obtain rfl := Option.some.inj (hw.symm.trans hv)
    exact hstays.binding.trans hbinding

/-- Where the result for a key is kept, the results of the unit are open. -/
theorem outcome_openSite? (hst : (access slack).Ok st) (key : EvalKey) :
    (access slack).Outcome st anything (openSite? key st) ∧
      ∀ file node, (openSite? key st).1 = some (file, node) →
        file = key.file ∧
          ∃ u, (openSite? key st).2.session.Opened file u ∧ u.KeepsAt key node := by
  have hsite : (access slack).Outcome st anything (site? key st) :=
    sound_site? key st hst (Nat.le_refl _)
  have hkeeps (file : FileId) (node : NodeId) (h : (site? key st).1 = some (file, node)) :=
    keepsAt_site? hst.1.tidy h
  simp only [openSite?, Bind.bind, StateT.bind]
  generalize site? key st = r at hsite hkeeps ⊢
  obtain ⟨_ | ⟨file, node⟩, st'⟩ := r
  · exact ⟨hsite, nofun⟩
  · have hopen : Prepares slack _ _ ∧ _ := prepares_openAnalysis hsite.ok.1.tidy file
    refine ⟨hsite.trans (outcome_of_performs hsite.ok hopen.1 trivial), fun file' node' h => ?_⟩
    change (if (st'.session.openAnalysis file).1 then some (file, node) else none) =
      some (file', node') at h
    split at h
    · next hb =>
      obtain ⟨rfl, rfl⟩ := Prod.mk.inj (Option.some.inj h)
      obtain ⟨hfile, hkept⟩ := hkeeps file node rfl
      obtain ⟨u, hu⟩ := hopen.2 hb
      exact ⟨hfile, u, hu, hkept _ u hopen.1.completes hu.1⟩
    · exact nomatch h

/-- Where nothing is being bound, evaluation sees the tree and the names of a bound file. -/
theorem bound?_of_tree (hidle : st.session.inProgress = []) (hu : st.session.unit? file = some u)
    (hb : u.state.isBound = true) {tree : Tree} (htree : u.tree = some tree)
    (hbinding : u.binding = some b) :
    bound? file st = (some ⟨file, u.path, u.moduleName, tree.arena, tree.root, b⟩, st) := by
  have hbound : st.session.boundFile? file =
      some ⟨file, u.path, u.moduleName, tree.arena, tree.root, b⟩ := by
    simp [Session.boundFile?, hu, htree, hbinding]
  have hbind : st.session.bindFile file = (st.session.boundFile? file, st.session) := by
    rw [Session.bindFile, ensureBound_of_bound hu hb (by simp [hidle])]
  change ((st.session.bindFile file).1, { st with session := (st.session.bindFile file).2 }) = _
  rw [hbind, hbound]

/-- Where nothing is being bound, a bound file is seen as it is. -/
theorem bound?_of_bound (hs : st.session.Tidy) (hidle : st.session.inProgress = [])
    (hu : st.session.unit? file = some u) (hb : u.state.isBound = true)
    (hbinding : u.binding = some b) :
    ∃ bound, bound? file st = (some bound, st) ∧ bound.binding = b := by
  obtain ⟨tree, htree⟩ := Option.isSome_iff_exists.mp ((hs file u hu).bound hb).1
  exact ⟨_, bound?_of_tree hidle hu hb htree hbinding, rfl⟩

private theorem site?_of_keepsAt (hs : st.session.Tidy) (hidle : st.session.inProgress = [])
    {key : EvalKey}
    (hu : st.session.unit? key.file = some u) (hb : u.state.isBound = true)
    (hnode : u.KeepsAt key node) :
    site? key st = (some (key.file, node), st) := by
  cases key with
  | node f n =>
    obtain rfl : n = node := hnode
    rfl
  | result f n =>
    obtain rfl : n = node := hnode
    rfl
  | decl d =>
    obtain ⟨b, found, hbinding, hfound, rfl⟩ := hnode
    obtain ⟨bound, hbound, rfl⟩ := bound?_of_bound hs hidle hu hb hbinding
    have hfile : bound? d.file st = (some bound, st) := hbound
    simp only [site?, declaration?, Bind.bind, StateT.bind, hfile]
    change ((Option.bind (some bound) (·.binding.declarations[d.index]?)).map
      fun found => (d.file, found.node), st) = _
    rw [Option.bind_some, hfound]
    rfl

/-- Where nothing is being bound, the results of a unit are opened at once. -/
theorem openSite?_of_keepsAt (hs : st.session.Tidy) (hidle : st.session.inProgress = [])
    {key : EvalKey} (hu : st.session.unit? key.file = some u) (hb : u.state.isBound = true)
    (hnode : u.KeepsAt key node) :
    openSite? key st = (some (key.file, node), { st with
      session := st.session.modifyUnit key.file (·.evaluating st.session.generation) }) := by
  let opened := st.session.modifyUnit key.file (·.evaluating st.session.generation)
  have hopened : (opened.unit? key.file).bind (·.tree) = u.tree := by
    rw [unit?_modifyUnit_self, hu]
    change (u.evaluating st.session.generation).tree = u.tree
    rw [SourceUnit.rest_evaluating]
  have hopen : st.session.openAnalysis key.file = (true, opened) := by
    rw [Session.openAnalysis, ensureBound_of_bound hu hb (by simp [hidle])]
    change (((opened.unit? key.file).bind (·.tree)).isSome, opened) = _
    rw [hopened, ((hs key.file u hu).bound hb).1]
  simp only [openSite?, Bind.bind, StateT.bind, site?_of_keepsAt hs hidle hu hb hnode]
  change (if (st.session.openAnalysis key.file).1 then some (key.file, node) else none,
    { st with session := (st.session.openAnalysis key.file).2 }) = _
  rw [hopen]
  rfl

/-- Where nothing is being bound, what is known is found. -/
theorem memo?_of_knows (hs : st.session.Tidy) (hidle : st.session.inProgress = []) {key : EvalKey}
    (h : st.session.Knows key type) : (memo? key st).1 = some type := by
  obtain ⟨u, node, ⟨hu, hb, hstamp⟩, hnode, htype⟩ := h
  simp only [memo?, Bind.bind, StateT.bind, openSite?_of_keepsAt hs hidle hu hb hnode]
  change (((st.session.modifyUnit key.file _).unit? key.file).bind (·.analysis.get? node)).bind
    (known? · key) = some type
  rw [unit?_modifyUnit_self, hu, Option.map_some, Option.bind_some,
    SourceUnit.analysis_evaluating_of_stamp hstamp]
  obtain ⟨entry, hentry, htype⟩ := Option.bind_eq_some_iff.mp htype
  rw [hentry, Option.bind_some, known?_eq_type?, htype]

/-- What is found is known. -/
theorem knows_of_memo? (hst : (access slack).Ok st) {key : EvalKey}
    (h : (memo? key st).1 = some type) : (memo? key st).2.session.Knows key type := by
  obtain ⟨-, hopen⟩ := outcome_openSite? hst key
  simp only [memo?, Bind.bind, StateT.bind] at h ⊢
  generalize openSite? key st = r at hopen h ⊢
  obtain ⟨_ | ⟨file, node⟩, st'⟩ := r
  · exact nomatch h
  · obtain ⟨rfl, u, hu, hnode⟩ := hopen file node rfl
    refine ⟨u, node, hu, hnode, ?_⟩
    have h : ((st'.session.unit? key.file).bind (·.analysis.get? node)).bind (known? · key) =
        some type := h
    rw [hu.1] at h
    obtain ⟨entry, hentry, htype⟩ := Option.bind_eq_some_iff.mp h
    have hentry : u.analysis.get? node = some entry := hentry
    rw [SourceUnit.typeAt?, hentry, Option.bind_some, ← known?_eq_type?, htype]

/-- A result that is found is a type that exists. -/
theorem sound_memo? (key : EvalKey) :
    (access slack).Sound n (memo? key) (ifSome TypeId.Known) := by
  intro st hst _
  have hmemo : (access slack).Outcome st anything (memo? key st) := by
    obtain ⟨hsite, -⟩ := outcome_openSite? hst key
    simp only [memo?, Bind.bind, StateT.bind]
    generalize openSite? key st = r at hsite ⊢
    obtain ⟨_ | ⟨file, node⟩, st'⟩ := r
    · exact ⟨hsite.ok, hsite.step, hsite.grows, trivial⟩
    · exact ⟨hsite.ok, hsite.step, hsite.grows, trivial⟩
  refine ⟨hmemo.ok, hmemo.step, hmemo.grows, fun type htype => .inr ?_⟩
  obtain ⟨u, node, ⟨hu, -, hstamp⟩, -, hat⟩ := knows_of_memo? hst htype
  exact hmemo.ok.1.readable key.file u node key.slot type hu hstamp hat

/-- Where nothing is being bound, what is not found is not known. -/
theorem not_knows_of_memo? (hst : (access slack).Ok st) (hidle : st.session.inProgress = [])
    {key : EvalKey} (h : (memo? key st).1 = none) (type : TypeId) :
    ¬ (memo? key st).2.session.Knows key type := by
  have hmemo : (access slack).Outcome st (ifSome TypeId.Known) (memo? key st) :=
    sound_memo? key st hst (Nat.le_refl _)
  intro hknows
  have hfound := memo?_of_knows hst.1.tidy hidle (hmemo.step.1.knows_iff.mp hknows)
  rw [h] at hfound
  exact nomatch hfound

/-- A placeholder is a type that exists. -/
theorem sound_placeholder (key : EvalKey) :
    (access slack).Sound n (placeholder key) TypeId.Known := by
  cases key with
  | node file node => exact sound_unknown
  | result file node =>
    intro st hst _
    refine outcome_of_performs hst (.refl _) (known_getD fun type htype => .inr ?_)
    obtain ⟨before, after, he, -⟩ := List.lookup_eq_some_iff.mp htype
    exact hst.2 (.result file node, type) (by rw [he]; simp)
  | decl decl =>
    refine (sound_declaration? admits_nothing decl).bind fun o k _ _ => ?_
    split
    · exact sound_withTypes (sound_recursive decl _)
    · exact sound_unknown

/-! ## Finished declarations -/

/-- Neither the type nor a member of it stands for the declaration. -/
def Resolved (t : TypeTable) (decl : DeclId) (type : TypeId) : Prop :=
  ∀ m ∈ t.members type, t.recursiveDecl? m ≠ some decl

private theorem recursiveDecl?_extends (he : t.Extends t') (hid : id < t.size) :
    t'.recursiveDecl? id = t.recursiveDecl? id := by
  cases hd : t.get? id with
  | none => exact absurd hid (Nat.not_lt_of_le (Array.getElem?_eq_none_iff.mp hd))
  | some data => rw [TypeTable.recursiveDecl?, TypeTable.recursiveDecl?, hd, he.get? hd]

/-- No type with a fixed number stands for a declaration. -/
theorem recursiveDecl?_intrinsic (ht : t.Proper) (hid : id < TypeId.intrinsicCount) :
    t.recursiveDecl? id = none := by
  have hall : ∀ i < TypeId.intrinsicCount, initial.recursiveDecl? i = none := by decide
  rw [recursiveDecl?_extends ht.base hid, hall id hid]

private theorem Resolved.ofIntrinsic (ht : t.Proper) (decl : DeclId)
    (h : type < TypeId.intrinsicCount) :
    Resolved t decl type := by
  intro m hm
  rw [ht.members_intrinsic h, List.mem_singleton] at hm
  rw [hm, recursiveDecl?_intrinsic ht h]
  exact nofun

private theorem lt_size_of_mem_members (ht : t.Closed 0) {m : TypeId} (htype : type.Known t.size)
    (hm : m ∈ t.members type) : m < t.size := by
  rw [← extent_zero] at htype ⊢
  exact ht.lt_extent (ht.members (Nat.le_refl _) htype m hm)

theorem Resolved.extends (h : Resolved t decl type) (ht : t.Closed 0) (he : t.Extends t')
    (htype : type < t.size) :
    Resolved t' decl type := by
  intro m hm
  rw [he.members htype] at hm
  rw [recursiveDecl?_extends he (lt_size_of_mem_members ht (.inr htype) hm)]
  exact h m hm

private theorem resolved_union (ht : t.Closed 0) {ids : List TypeId} (htype : type.Known t.size)
    (hids : ∀ id ∈ ids, id ∈ t.members type ∧ t.recursiveDecl? id ≠ some decl) :
    Resolved (TypeTable.union ids t).2 decl (TypeTable.union ids t).1 := by
  have hknown : each TypeId.Known ids (t.extent 0) := fun id hid =>
    ht.members (Nat.le_refl _) (by rwa [extent_zero]) id (hids id hid).1
  have hgrown := sound_union hknown t ht (Nat.le_refl _)
  intro m hm
  have hself : ∀ id ∈ ids, t.members id = [id] := fun id hid =>
    (ht.proper rfl).members_of_mem (hids id hid).1
  rcases mem_members_union ht hself hm with hmem | hfixed
  · rw [recursiveDecl?_extends hgrown.step (lt_size_of_mem_members ht htype (hids m hmem).1)]
    exact (hids m hmem).2
  · rw [recursiveDecl?_intrinsic (hgrown.ok.proper rfl) hfixed]
    exact nofun

/-- Finishing a declaration takes the declaration itself out of its type. -/
theorem outcome_finish (hst : (access slack).Ok st) (key : EvalKey)
    (htype : type.Known (st.session.types.extent slack)) :
    (access slack).Outcome st TypeId.Known (finish key type st) ∧
      (slack = 0 → ∀ decl, key = .decl decl →
        Resolved (finish key type st).2.session.types decl (finish key type st).1) := by
  have same {id : TypeId} (h : id.Known (st.session.types.extent slack)) :
      (access slack).Outcome st TypeId.Known (id, st) := outcome_of_performs hst (.refl _) h
  cases key with
  | node file node => exact ⟨same htype, nofun⟩
  | result file node => exact ⟨same htype, nofun⟩
  | decl decl =>
    let t := st.session.types
    let isSelf (m : TypeId) : Bool := t.recursiveDecl? m == some decl
    let rest := (t.members type).filter (!isSelf ·)
    have hrun : finish (.decl decl) type st =
        (if (t.members type).any isSelf then
          if rest.isEmpty then pure .unknown else withTypes (TypeTable.union rest)
        else pure type : EvalM TypeId) st := rfl
    have hmembers := hst.1.closed.members (Nat.le_refl _) htype
    rw [hrun]
    split
    · split
      · refine ⟨same (.inl (by decide)), fun h0 other _ => ?_⟩
        have hfixed : TypeId.unknown < TypeId.intrinsicCount := by decide
        exact .ofIntrinsic (hst.1.closed.proper h0) other hfixed
      · have hrest : each TypeId.Known rest (t.extent slack) := fun id hid =>
          hmembers id (List.mem_filter.mp hid).1
        refine ⟨sound_withTypes (sound_union hrest) st hst (Nat.le_refl _), ?_⟩
        rintro rfl other he
        obtain rfl := EvalKey.decl.inj he
        rw [extent_zero] at htype
        refine resolved_union hst.1.closed htype fun id hid => ?_
        obtain ⟨hmem, hself⟩ := List.mem_filter.mp hid
        exact ⟨hmem, by simpa [isSelf] using hself⟩
    · next hany =>
      refine ⟨same htype, fun _ other he m hm hself => hany ?_⟩
      obtain rfl := EvalKey.decl.inj he
      exact List.any_eq_true.mpr ⟨m, hm, beq_iff_eq.mpr hself⟩

end Evaluation
end LiveCheck
