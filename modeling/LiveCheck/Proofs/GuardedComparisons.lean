import LiveCheck.Proofs.Types.PlainComparison

/-!
# Comparisons under a guard

All comparisons of the parts of two types share one guard: each enters it, and leaves it behind. Run
like this, with the guard as a state, a comparison of two types notices no cycle, ends with the
guard that it began with, and gives the answer of the plain comparison, unless the types are nested
so deeply that the guard has no room for them; then it may say no where the plain one says yes.
-/

namespace LiveCheck

/-- A comparison under way. -/
structure Walk where
  /-- What is being visited. -/
  guard : Guard (TypeId × TypeId)
  /-- What became of the attempts to visit, the last one first. -/
  attempts : List (Entry (TypeId × TypeId)) := []
deriving Repr, DecidableEq

private def Concludes (c : StateM Walk Bool) (guard : Guard (TypeId × TypeId)) (answer : Bool) :
    Prop :=
  ∀ attempts, .cycle ∉ attempts → ∃ attempts',
    c { guard, attempts } = (answer, { guard, attempts := attempts' }) ∧ .cycle ∉ attempts'

section Concludes

variable {guard : Guard (TypeId × TypeId)} {l : List α} {f : α → StateM Walk Bool} {p : α → Bool}
  {q : Reduct} {compare : TypeId → TypeId → StateM Walk Bool} {r : TypeId → TypeId → Bool}

private theorem concludes_pure (answer : Bool) : Concludes (pure answer) guard answer :=
  fun attempts hattempts => ⟨attempts, rfl, hattempts⟩

private theorem concludes_allM (hf : ∀ a ∈ l, Concludes (f a) guard (p a)) :
    Concludes (l.allM f) guard (l.all p) := by
  induction l with
  | nil => exact concludes_pure true
  | cons a l ih =>
    intro attempts hattempts
    obtain ⟨attempts', hrun, hattempts'⟩ := hf a (.head _) attempts hattempts
    rw [List.allM, List.all_cons]
    cases hp : p a with
    | false => exact ⟨attempts', by simp [bind, StateT.bind, hrun, hp]; rfl, hattempts'⟩
    | true =>
      obtain ⟨attempts'', hrest, hattempts''⟩ :=
        ih (fun a ha => hf a (.tail _ ha)) attempts' hattempts'
      exact ⟨attempts'', by simp [bind, StateT.bind, hrun, hp, hrest], hattempts''⟩

private theorem concludes_anyM (hf : ∀ a ∈ l, Concludes (f a) guard (p a)) :
    Concludes (l.anyM f) guard (l.any p) := by
  induction l with
  | nil => exact concludes_pure false
  | cons a l ih =>
    intro attempts hattempts
    obtain ⟨attempts', hrun, hattempts'⟩ := hf a (.head _) attempts hattempts
    rw [List.anyM, List.any_cons]
    cases hp : p a with
    | true => exact ⟨attempts', by simp [bind, StateT.bind, hrun, hp]; rfl, hattempts'⟩
    | false =>
      obtain ⟨attempts'', hrest, hattempts''⟩ :=
        ih (fun a ha => hf a (.tail _ ha)) attempts' hattempts'
      exact ⟨attempts'', by simp [bind, StateT.bind, hrun, hp, hrest], hattempts''⟩

/-- Makes the remaining comparisons one after the other, as far as they are needed. -/
def Reduct.ask (compare : TypeId → TypeId → StateM Walk Bool) : Reduct → StateM Walk Bool
  | settled answer => pure answer
  | all pairs => pairs.allM fun p => compare p.1 p.2
  | any pairs => pairs.anyM fun p => compare p.1 p.2

private theorem concludes_ask
    (hcompare : ∀ p ∈ q.pairs, Concludes (compare p.1 p.2) guard (r p.1 p.2)) :
    Concludes (q.ask compare) guard (q.answer r) := by
  cases q with
  | settled answer => exact concludes_pure answer
  | all pairs => exact concludes_allM hcompare
  | any pairs => exact concludes_anyM hcompare

end Concludes

namespace TypeTable

variable {t : TypeTable} {h : Hierarchy} {s g : TypeId} {fuel : Nat}
  {guard : Guard (TypeId × TypeId)}

/-- Visits two types: the guard is entered, and left once they have been looked at. Types that are
being visited count as compatible, and those that there is no room for as incompatible. -/
def visit (source target : TypeId) (look : StateM Walk Bool) : StateM Walk Bool := fun w =>
  let entry := w.guard.enter (source, target)
  let attempts := entry :: w.attempts
  match entry with
  | .entered inner =>
    let (answer, w) := look { guard := inner, attempts }
    (answer, { w with guard := w.guard.leave (source, target) })
  | .cycle => (true, { w with attempts })
  | .tooDeep => (false, { w with attempts })

/-- Compares two types under the guard, at most `fuel` levels deep. -/
def compareGuarded (t : TypeTable) (h : Hierarchy) : Nat → TypeId → TypeId → StateM Walk Bool
  | 0, source, target =>
    if triviallyAssignable source target then pure true else visit source target (pure false)
  | fuel + 1, source, target =>
    if triviallyAssignable source target then pure true
    else visit source target ((t.reduct h source target).ask (t.compareGuarded h fuel))

private theorem concludes_visit_entered {inner : Guard (TypeId × TypeId)} {look : StateM Walk Bool}
    {answer : Bool} (henter : guard.enter (s, g) = .entered inner)
    (hlook : Concludes look inner answer) : Concludes (visit s g look) guard answer := by
  intro attempts hattempts
  obtain ⟨attempts', hrun, hattempts'⟩ :=
    hlook (.entered inner :: attempts) (by simpa using hattempts)
  refine ⟨attempts', ?_, hattempts'⟩
  simp only [visit, henter, hrun, Guard.leave_enter henter]

private theorem concludes_visit_tooDeep {look : StateM Walk Bool}
    (henter : guard.enter (s, g) = .tooDeep) :
    Concludes (visit s g look) guard false := fun attempts hattempts =>
  ⟨.tooDeep :: attempts, by simp only [visit, henter], by simpa using hattempts⟩

private theorem Identifying.concludes_compareGuarded (ht : t.Identifying) (ha : Above guard s g) :
    Concludes (t.compareGuarded h fuel s g) guard (t.assignableUpTo h fuel guard s g) := by
  induction fuel generalizing guard s g with
  | zero =>
    rw [compareGuarded, assignableUpTo.eq_def]
    by_cases htriv : triviallyAssignable s g = true
    · simp only [htriv, if_true]
      exact concludes_pure true
    · simp only [htriv, Bool.false_eq_true, if_false]
      cases henter : guard.enter (s, g) with
      | entered inner => exact concludes_visit_entered henter (concludes_pure false)
      | cycle => exact absurd henter ha.enter_ne_cycle
      | tooDeep => exact concludes_visit_tooDeep henter
  | succ fuel ih =>
    rw [compareGuarded, assignableUpTo.eq_def]
    by_cases htriv : triviallyAssignable s g = true
    · simp only [htriv, if_true]
      exact concludes_pure true
    · simp only [htriv, Bool.false_eq_true, if_false]
      cases henter : guard.enter (s, g) with
      | entered inner =>
        have hlook : Concludes ((t.reduct h s g).ask (t.compareGuarded h fuel)) inner
            (t.structurallyAssignable h (t.assignableUpTo h fuel inner) s g) := by
          rw [structurallyAssignable_eq]
          exact concludes_ask fun p hp => ih (ha.descends ht henter (descends_of_mem_reduct hp))
        exact concludes_visit_entered henter hlook
      | cycle => exact absurd henter ha.enter_ne_cycle
      | tooDeep => exact concludes_visit_tooDeep henter

/-- The guard does not change what is assignable. The comparison that enters one guard and leaves it
notices no cycle, ends with an empty guard and answers as the comparison does that hands the guard
down. The plain comparison, which is nothing but a recursion over the parts, says yes wherever the
guarded one does, and gives the same answer for types whose levels add up to no more than two above
the bound of the guard. A type without parts has one level. -/
theorem assignable_agrees_with_unguarded (ht : t.Built) (h : Hierarchy) :
    (∀ s g, t.unguarded h s g =
      (triviallyAssignable s g || t.structurallyAssignable h (t.unguarded h) s g)) ∧
    ∀ s g,
      (∃ attempts, t.compareGuarded h Limits.assignability s g
          { guard := { limit := Limits.assignability } } =
            (t.assignable h s g, { guard := { limit := Limits.assignability }, attempts }) ∧
        .cycle ∉ attempts) ∧
      (t.Shallow (Limits.assignability + 2) s g → t.assignable h s g = t.unguarded h s g) ∧
      (t.assignable h s g = true → t.unguarded h s g = true) := by
  have htidy := ht.tidy
  refine ⟨fun s g => htidy.identifying.unguarded_eq, fun s g => ⟨?_, ?_, ?_⟩⟩
  · exact htidy.identifying.concludes_compareGuarded above_start [] (by simp)
  · exact htidy.assignable_eq_unguarded
  · exact htidy.identifying.unguarded_of_assignable

/-- A table in which `list[int]` has the number 12 and `list[float] | None` the number 14. -/
def listsAndUnion : TypeTable :=
  (union [13, .none] (listOf .float (listOf .int initial).2).2).2

/-- `list[int]` is assignable to `list[float] | None`, with or without a guard. -/
theorem assignable_agrees_with_unguarded_listsAndUnion :
    listsAndUnion.Built ∧ listsAndUnion.Shallow (Limits.assignability + 2) 12 14 ∧
      listsAndUnion.assignable (fun _ => []) 12 14 = true ∧
      listsAndUnion.unguarded (fun _ => []) 12 14 = true := by
  have hint : (listOf .int initial).2.Built :=
    @Built.run _ (.listOf .int) .initial nofun (by decide +kernel) nofun
  have hfloat : (listOf .float (listOf .int initial).2).2.Built :=
    @Built.run _ (.listOf .float) hint nofun (by decide +kernel) nofun
  have hbuilt : listsAndUnion.Built :=
    @Built.run _ (.union [13, .none]) hfloat nofun (by decide +kernel) nofun
  have hshallow : listsAndUnion.Shallow (Limits.assignability + 2) 12 14 :=
    ⟨2, 3, by decide +kernel, by decide +kernel, by decide⟩
  have hyes : listsAndUnion.assignable (fun _ => []) 12 14 = true := by decide +kernel
  obtain ⟨-, hplain⟩ := assignable_agrees_with_unguarded hbuilt fun _ => []
  exact ⟨hbuilt, hshallow, hyes, ((hplain 12 14).2.1 hshallow).symm.trans hyes⟩

end TypeTable
end LiveCheck
