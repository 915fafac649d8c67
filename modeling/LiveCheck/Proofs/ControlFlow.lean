import LiveCheck.Proofs.Session.Runs

/-!
# Control flow

A block that always exits never lets control pass, so a function whose end is reached gives `None`.
-/

/-!
## Where control can go

What may happen when statements are executed, with values left out: any expression may raise, a test
may go either way, and a loop may run its body any number of times. A block that always exits is one
whose last statement never lets control pass; no execution of it comes to its end.
-/

namespace LiveCheck

/-- How the execution of a statement or of a block ends. -/
inductive Ending
  /-- Control goes on behind it. -/
  | completes
  | breaks
  | continues
  | returns
  | raises
deriving DecidableEq

namespace NodeData

/-- Whether a statement does nothing that can raise by itself. -/
def isSafe : NodeData → Bool
  | pass | breakLoop | continueLoop | globalStmt _ | nonlocalStmt _ | returnStmt none
  | tryStmt .. => true
  | _ => false

/-- Whether control goes on behind a statement unless it raises. -/
def isPlain : NodeData → Bool
  | breakLoop | continueLoop | returnStmt _ | raiseStmt .. | ifStmt .. | whileLoop .. | forLoop ..
  | tryStmt .. | withStmt .. | classDef .. => false
  | _ => true

end NodeData

/-! ### Executions -/

mutual

/-- A block may be executed with an ending. -/
inductive Runs (a : Arena) : List NodeId → Ending → Prop
  | done : Runs a [] .completes
  | next {stmt : NodeId} {rest : List NodeId} {ending : Ending} :
    Executes a stmt .completes → Runs a rest ending → Runs a (stmt :: rest) ending
  | leave {stmt : NodeId} {rest : List NodeId} {ending : Ending} :
    Executes a stmt ending → ending ≠ .completes → Runs a (stmt :: rest) ending

/-- A statement may be executed with an ending. -/
inductive Executes (a : Arena) : NodeId → Ending → Prop
  | plain {stmt : NodeId} {data : NodeData} :
    a.data? stmt = some data → data.isPlain = true → Executes a stmt .completes
  /-- Any expression may raise. -/
  | fails {stmt : NodeId} {data : NodeData} :
    a.data? stmt = some data → data.isSafe = false → Executes a stmt .raises
  | breaks {stmt : NodeId} : a.data? stmt = some .breakLoop → Executes a stmt .breaks
  | continues {stmt : NodeId} : a.data? stmt = some .continueLoop → Executes a stmt .continues
  | returns {stmt : NodeId} {value : Option NodeId} :
    a.data? stmt = some (.returnStmt value) → Executes a stmt .returns
  | holds {stmt test : NodeId} {body orelse : List NodeId} {ending : Ending} :
    a.data? stmt = some (.ifStmt test body orelse) → Runs a body ending → Executes a stmt ending
  | holdsNot {stmt test : NodeId} {body orelse : List NodeId} {ending : Ending} :
    a.data? stmt = some (.ifStmt test body orelse) → Runs a orelse ending → Executes a stmt ending
  | whileLoop {stmt test : NodeId} {body orelse : List NodeId} {ending : Ending} :
    a.data? stmt = some (.whileLoop test body orelse) → Loops a body orelse ending →
    Executes a stmt ending
  | forLoop {stmt target iter : NodeId} {body orelse : List NodeId} {ending : Ending} :
    a.data? stmt = some (.forLoop target iter body orelse) → Loops a body orelse ending →
    Executes a stmt ending
  /-- A context manager does not suppress what its body raises. -/
  | within {stmt : NodeId} {items body : List NodeId} {ending : Ending} :
    a.data? stmt = some (.withStmt items body) → Runs a body ending → Executes a stmt ending
  | classBody {stmt name : NodeId} {decorators bases body : List NodeId} {ending : Ending} :
    a.data? stmt = some (.classDef decorators name bases body) → Runs a body ending →
    Executes a stmt ending
  /-- The `finally` clause runs in any case, and then control goes where it was about to go. -/
  | tried {stmt : NodeId} {body handlers orelse finalbody : List NodeId} {ending : Ending} :
    a.data? stmt = some (.tryStmt body handlers orelse finalbody) →
    Attempts a body handlers orelse ending → Runs a finalbody .completes → Executes a stmt ending
  /-- The `finally` clause runs in any case, and may send control elsewhere. -/
  | diverted {stmt : NodeId} {body handlers orelse finalbody : List NodeId}
    {pending ending : Ending} :
    a.data? stmt = some (.tryStmt body handlers orelse finalbody) →
    Attempts a body handlers orelse pending → Runs a finalbody ending → ending ≠ .completes →
    Executes a stmt ending

/-- A loop may be executed with an ending. -/
inductive Loops (a : Arena) : List NodeId → List NodeId → Ending → Prop
  /-- The loop is over without a `break`. -/
  | over {body orelse : List NodeId} {ending : Ending} :
    Runs a orelse ending → Loops a body orelse ending
  | again {body orelse : List NodeId} {turn ending : Ending} :
    Runs a body turn → turn = .completes ∨ turn = .continues → Loops a body orelse ending →
    Loops a body orelse ending
  | broken {body orelse : List NodeId} : Runs a body .breaks → Loops a body orelse .completes
  | left {body orelse : List NodeId} {ending : Ending} :
    Runs a body ending → ending = .returns ∨ ending = .raises → Loops a body orelse ending
  /-- The test or the iterator raises. -/
  | fails {body orelse : List NodeId} : Loops a body orelse .raises

/-- A `try` statement may be executed up to its `finally` clause with an ending. -/
inductive Attempts (a : Arena) : List NodeId → List NodeId → List NodeId → Ending → Prop
  | succeeds {body handlers orelse : List NodeId} {ending : Ending} :
    Runs a body .completes → Runs a orelse ending → Attempts a body handlers orelse ending
  | left {body handlers orelse : List NodeId} {ending : Ending} :
    Runs a body ending → ending ≠ .completes → Attempts a body handlers orelse ending
  | caught {body handlers orelse hbody : List NodeId} {handler : NodeId} {type name : Option NodeId}
    {ending : Ending} :
    Runs a body .raises → handler ∈ handlers → a.data? handler = some (.handler type name hbody) →
    Runs a hbody ending → Attempts a body handlers orelse ending

end

/-! ### Blocks that always exit -/

variable {a : Arena} {block : List NodeId} {stmt : NodeId}

private theorem Runs.last (h : Runs a block .completes) (hlast : block.getLast? = some stmt) :
    Executes a stmt .completes := by
  induction block with
  | nil => exact nomatch hlast
  | cons first rest ih =>
    cases h with
    | leave _ hne => exact absurd rfl hne
    | next hfirst hrest =>
      cases rest with
      | nil =>
        obtain rfl := Option.some.inj hlast
        exact hfirst
      | cons second rest => exact ih hrest (by rwa [List.getLast?_cons_cons] at hlast)

namespace Evaluation

private theorem not_attempts {body handlers orelse : List NodeId} (hbody : ¬ Runs a body .completes)
    (hhandlers : ∀ handler ∈ handlers, ∀ type name hbody,
      a.data? handler = some (.handler type name hbody) → ¬ Runs a hbody .completes) :
    ¬ Attempts a body handlers orelse .completes := by
  intro h
  cases h with
  | succeeds hruns => exact hbody hruns
  | left _ hne => exact hne rfl
  | caught _ hmem hd hruns => exact hhandlers _ hmem _ _ _ hd hruns

private theorem not_runs_of_alwaysExitsUpTo {fuel : Nat} (h : alwaysExitsUpTo a fuel block = true) :
    ¬ Runs a block .completes := by
  induction fuel generalizing block with
  | zero => exact nomatch h
  | succ fuel ih =>
    intro hruns
    rw [alwaysExitsUpTo] at h
    cases hlast : block.getLast? with
    | none =>
      rw [hlast] at h
      exact nomatch h
    | some stmt =>
      rw [hlast, Option.bind_some] at h
      cases hruns.last hlast with
      | @plain _ data hd hplain =>
        rw [hd] at h
        cases data <;> first | exact Bool.false_ne_true h | exact Bool.false_ne_true hplain
      | holds hd hbody =>
        rw [hd] at h
        exact ih (Bool.and_eq_true_iff.mp h).1 hbody
      | holdsNot hd horelse =>
        rw [hd] at h
        exact ih (Bool.and_eq_true_iff.mp h).2 horelse
      | within hd hbody =>
        rw [hd] at h
        exact ih h hbody
      | whileLoop hd | forLoop hd | classBody hd =>
        rw [hd] at h
        exact nomatch h
      | diverted _ _ _ hne => exact hne rfl
      | tried hd hattempt hfinal =>
        rw [hd] at h
        rcases Bool.or_eq_true_iff.mp h with h | h
        · obtain ⟨hbody, hhandlers⟩ := Bool.and_eq_true_iff.mp h
          refine not_attempts (ih hbody) (fun handler hmem type name hbody hhandler => ?_) hattempt
          have hexits := List.all_eq_true.mp hhandlers handler hmem
          rw [hhandler] at hexits
          exact ih hexits
        · exact ih h hfinal

private theorem not_runs_of_alwaysExits (h : alwaysExits a block = true) :
    ¬ Runs a block .completes :=
  not_runs_of_alwaysExitsUpTo h

end Evaluation
end LiveCheck

/-!
## Functions whose end is reached

A function that returns values in some places, and whose end control may reach, also gives `None`.
Its result is joined from all of these, also when it is found in two rounds because the function
calls itself, so `None` is a member of it unless the result is not known at all.
-/

namespace LiveCheck

open Session Evaluation Discipline TypeTable

namespace TypeTable

variable {t : TypeTable} {ids : List TypeId}

/-- A value of the type may be `None`: it is a member of the type, or nothing is known about the
value. -/
def MayBeNone (t : TypeTable) (id : TypeId) : Prop :=
  id = .unknown ∨ id = .any ∨ .none ∈ t.members id

private theorem members_none (ht : initial.Extends t) : t.members .none = [.none] := by
  have hd : t.get? .none = some (.inst (.builtin .none) []) := ht.get? rfl
  rw [members, hd]

private theorem mayBeNone_none (ht : initial.Extends t) : t.MayBeNone .none :=
  .inr (.inr (members_none ht ▸ .head _))

private theorem mayBeNone_union (ht : initial.Extends t) (hids : .none ∈ ids) :
    (union ids t).2.MayBeNone (union ids t).1 := by
  have hflat : TypeId.none ∈ t.flatten ids := by
    rw [flatten, List.mem_eraseDups, List.mem_flatMap]
    exact ⟨.none, List.mem_filter.mpr ⟨hids, rfl⟩, members_none ht ▸ .head _⟩
  cases union_cases ids t with
  | unknown _ heq | tooMany _ _ _ heq => exact heq ▸ .inl rfl
  | any _ _ heq => exact heq ▸ .inr (.inl rfl)
  | none _ _ hnone =>
    rw [hnone] at hflat
    cases hflat
  | one _ _ hone heq =>
    rw [hone, List.mem_singleton] at hflat
    exact heq ▸ hflat ▸ mayBeNone_none ht
  | many _ _ _ _ heq =>
    refine heq ▸ .inr (.inr ?_)
    rw [members, get?_intern]
    exact hflat

end TypeTable

namespace Evaluation

variable {slack limit room : Nat} {D : Discipline EvalState} {ask : Ask} {st : EvalState}
  {file : FileId} {node : NodeId} {a : Arena} {returns : List NodeId} {key : EvalKey}
  {keys : List EvalKey} {answers : List (EvalKey × TypeId)}

private theorem mem_returnTypes : (.none, true) ∈ (returnTypes ask file a returns key true st).1 :=
  List.mem_append_right _ (.head _)

/-- A computation ends with a table in which the result may be `None`. -/
def GivesNone (r : TypeId × EvalState) : Prop := r.2.session.types.MayBeNone r.1

private theorem givesNone_union {ids : List TypeId} (hbase : initial.Extends st.session.types)
    (hids : .none ∈ ids) : GivesNone (withTypes (union ids) st) := mayBeNone_union hbase hids

private theorem GivesNone.bind {α : Type} {m : EvalM α} {f : α → EvalM TypeId}
    (h : GivesNone (f (m st).1 (m st).2)) : GivesNone ((m >>= f) st) := h

private theorem givesNone_joinReturns (h : Admits slack D ask) (hkey : Provides slack D ask key)
    (hgrows : ∀ st st', D.Step st st' → st.session.types.Extends st'.session.types)
    (hst : D.Ok st) (hbase : initial.Extends st.session.types) :
    GivesNone (joinReturns ask file a returns key true st) := by
  have hfound := sound_returnTypes h file a returns key true st hst (Nat.le_refl _)
  have hnone : (.none, true) ∈ (returnTypes ask file a returns key true st).1 := mem_returnTypes
  refine .bind ?_
  generalize returnTypes ask file a returns key true st = r at hfound hnone ⊢
  obtain ⟨found, st₁⟩ := r
  have hbase₁ := hbase.trans (hgrows _ _ hfound.step)
  have hsettled : TypeId.none ∈ (found.filter (·.2)).map (·.1) :=
    List.mem_map.mpr ⟨_, List.mem_filter.mpr ⟨hnone, rfl⟩, rfl⟩
  dsimp only
  split
  · exact givesNone_union hbase₁ hsettled
  · split
    · next hempty =>
      rw [List.isEmpty_iff.mp hempty] at hsettled
      exact nomatch hsettled
    · -- the second round begins with the union of the returns that are settled
      have hknown : each TypeId.Known ((found.filter (·.2)).map (·.1)) (D.size st₁) := by
        intro id hid
        obtain ⟨r, hr, rfl⟩ := List.mem_map.mp hid
        exact hfound.result r (List.mem_filter.mp hr).1
      have hseed := h.makes (sound_union hknown) st₁ hfound.ok (Nat.le_refl _)
      refine .bind ?_
      generalize withTypes (union ((found.filter (·.2)).map (·.1))) st₁ = r at hseed ⊢
      obtain ⟨seed, st₂⟩ := r
      obtain ⟨D', h', hprovides⟩ := hkey _ seed hseed.result
      have hagain := hprovides (sound_returnTypes h' file a returns key true) st₂ hseed.ok
        (Nat.le_refl _)
      have hbase₂ := hbase₁.trans (hgrows _ _ hseed.step)
      have hbase₃ := hbase₂.trans (hgrows _ _ hagain.step)
      refine .bind ?_
      exact givesNone_union hbase₃ (List.mem_map.mpr ⟨(.none, true), mem_returnTypes, rfl⟩)

private theorem givesNone_computeResult (h : Admits slack D ask)
    (hkey : Provides slack D ask (.result file node))
    (hgrows : ∀ st st', D.Step st st' → st.session.types.Extends st'.session.types)
    (hst : D.Ok st) (hbase : initial.Extends st.session.types) {bound : BoundFile}
    (hbound : (bound? file st).1 = some bound) {decorators params body : List NodeId} {name : NodeId}
    {hint : Option NodeId}
    (hnode : bound.arena.data? node = some (.functionDef decorators name params hint body))
    (hruns : Runs bound.arena body .completes) :
    GivesNone (computeResult ask file node st) := by
  have hexits : alwaysExits bound.arena body = false := by
    rw [Bool.eq_false_iff]
    exact fun hexits => not_runs_of_alwaysExits hexits hruns
  have hbinds := h.binds (D.size st) file st hst (Nat.le_refl _)
  refine .bind ?_
  generalize bound? file st = r at hbound hbinds ⊢
  obtain ⟨found, st₁⟩ := r
  obtain rfl : found = some bound := hbound
  have hbase₁ := hbase.trans (hgrows _ _ hbinds.step)
  dsimp only
  rw [hnode]
  dsimp only
  split
  · exact mayBeNone_none hbase₁
  · rw [hexits]
    exact givesNone_joinReturns h hkey hgrows hbinds.ok hbase₁

/-- No execution of a block that always exits comes to its end. So whenever the result of a function
is computed, in a table that has grown from the initial one, and control may reach the end of the
body, then the result may be `None`. -/
theorem alwaysExits_sound :
    (∀ a block, alwaysExits a block = true → ¬ Runs a block .completes) ∧
      ∀ slack limit room keys answers file node st bound decorators name params hint body,
        Fits limit keys answers → EvalKey.result file node ∉ keys →
        room + (keys.length + 1) = limit →
        EvalState.InOrder slack limit (.result file node :: keys) answers st →
        initial.Extends st.session.types → (bound? file st).1 = some bound →
        bound.arena.data? node = some (.functionDef decorators name params hint body) →
        Runs bound.arena body .completes →
        GivesNone (computeResult (evaluateBy compute room) file node st) := by
  refine ⟨fun a block => not_runs_of_alwaysExits, ?_⟩
  intro slack limit room keys answers file node st bound decorators name params hint body hfits hkey
    hroom hst hbase hbound hnode hruns
  have hfits' : Fits limit (.result file node :: keys) answers := hfits.cons (by omega) hkey
  have hask (answers' : List (EvalKey × TypeId))
      (hfits'' : Fits limit (.result file node :: keys) answers') (n : Nat) (key : EvalKey) :
      (evaluation slack limit (.result file node :: keys) answers').Sound n
        (evaluateBy compute room key) TypeId.Known := sound_evaluateBy hfits'' hroom key
  exact givesNone_computeResult (admits_evaluation (hask answers hfits'))
    (provides_rules hfits hfits' hkey hask) (fun _ _ hstep => hstep.performs.steps.extends) hst hbase
    hbound hnode hruns

/-- A function whose only test may fail gives `int | None`; the body of the other one always
exits. -/
theorem alwaysExits_sound_example :
    let files := FileStore.ofList [("a.py", "def f(c):\n    if c:\n        return 1\n" ++
      "def g():\n    try:\n        return 1\n    finally:\n        pass\n")]
    let s := (Session.new {} files []).after [.setRoots ["a.py"], .flush]
    let st := (push (.result 0 7) { session := s }).2
    (∃ bound, (bound? 0 st).1 = some bound ∧ ¬ Runs bound.arena [12] .completes ∧
      Runs bound.arena [6] .completes) ∧
    GivesNone (computeResult (evaluateBy compute 199) 0 7 st) := by
  intro files s st
  have hrun : ((bound? 0 st).1.any fun bound =>
      bound.arena.data? 6 == some (.ifStmt 3 [5] []) &&
        (bound.arena.data? 7 == some (.functionDef [] 0 [2] none [6]) &&
          alwaysExits bound.arena [12])) = true ∧
      st.session.types = initial ∧ s.options.maxEvaluationDepth = 200 := by
    decide +kernel
  obtain ⟨hseen, htypes, hdepth⟩ := hrun
  obtain ⟨slack, hcoherent⟩ : ∃ slack, s.Coherent slack :=
    (orderly_after {} files [] [.setRoots ["a.py"], .flush]).1.exists_coherent
  have hst : st.InOrder slack 200 [.result 0 7] [] :=
    inOrder_push (fits_nil 200) (hdepth ▸ inOrder_start hcoherent) (by decide) List.not_mem_nil
  clear_value st
  obtain ⟨bound, hbound⟩ : ∃ bound, (bound? 0 st).1 = some bound :=
    Option.isSome_iff_exists.mp (Option.isSome_of_any hseen)
  rw [hbound] at hseen
  simp only [Option.any_some, Bool.and_eq_true, beq_iff_eq] at hseen
  obtain ⟨hif, hnode, hexits⟩ := hseen
  have hruns : Runs bound.arena [6] .completes := .next (.holdsNot hif .done) .done
  refine ⟨⟨bound, hbound, alwaysExits_sound.1 _ _ hexits, hruns⟩, ?_⟩
  exact alwaysExits_sound.2 slack 200 199 [] [] 0 7 st bound [] 0 [2] none [6] (fits_nil 200)
    List.not_mem_nil rfl hst (by rw [htypes]; exact .refl _) hbound hnode hruns

end Evaluation
end LiveCheck
