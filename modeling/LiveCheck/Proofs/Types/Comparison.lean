import LiveCheck.Proofs.Types.Hierarchy
import LiveCheck.Proofs.Types.Growth
import LiveCheck.Types.Assignable

/-!
# What a comparison depends on

A comparison of types depends on the comparisons of their parts and on the bases of classes, and on
nothing else.
-/

/-!
## Comparing nested types

Two types are compared by comparing their parts. The comparison remembers the pairs it is busy with
and bounds how many there are. For types that are not nested too deeply neither plays a part: a pair
is never met inside itself, and being assignable is what the comparison of the parts says it is.
-/

namespace LiveCheck.TypeTable

variable {t : TypeTable} {h : Hierarchy} {r r' : TypeId → TypeId → Bool}
  {source target s g id : TypeId} {k n m fuel fuel' : Nat} {guard guard' : Guard (TypeId × TypeId)}
  {l : List α} {p q : α → Bool} {ss gs : List TypeId}

/-! ### What a comparison asks for -/

/-- The parts of a type that a comparison may go down to. -/
def comparedParts (t : TypeTable) (id : TypeId) : List TypeId := (t.get? id).elim [] TypeData.valueParts

/-- The comparison of two types may ask for the comparison of two others: it goes down to a part on
at least one side. -/
inductive AsksFor (t : TypeTable) (source target : TypeId) : TypeId → TypeId → Prop
  | left {s : TypeId} : s ∈ t.comparedParts source → AsksFor t source target s target
  | right {g : TypeId} : g ∈ t.comparedParts target → AsksFor t source target source g
  | both {s g : TypeId} : s ∈ t.comparedParts source → g ∈ t.comparedParts target → AsksFor t source target s g

/-- What a comparison looks at are the parts of an entry. -/
theorem comparedParts_eq {data : TypeData} (hd : t.get? id = some data) :
    t.comparedParts id = data.valueParts := by
  rw [comparedParts, hd, Option.elim_some]

private theorem all_eq_all (hl : ∀ a ∈ l, p a = q a) :
    l.all p = l.all q := by
  rw [Bool.eq_iff_iff, List.all_eq_true, List.all_eq_true]
  exact forall₂_congr fun a ha => by rw [hl a ha]

private theorem any_eq_any (hl : ∀ a ∈ l, p a = q a) :
    l.any p = l.any q := by
  rw [Bool.eq_iff_iff, List.any_eq_true, List.any_eq_true]
  exact exists_congr fun a => and_congr_right fun ha => by rw [hl a ha]

private theorem pairwise_congr (hr : ∀ s ∈ ss, ∀ g ∈ gs, r s g = r' s g) :
    pairwise r ss gs = pairwise r' ss gs :=
  all_eq_all fun p hp => hr p.1 (List.of_mem_zip hp).1 p.2 (List.of_mem_zip hp).2

/-- Tuples of any length have an element and `...`. -/
theorem exists_eq_of_isVariadic {ids : List TypeId} (hids : isVariadic ids = true) :
    ∃ element, ids = [element, .ellipsis] := by
  unfold isVariadic at hids
  split at hids
  · next element rest => exact ⟨element, by rw [eq_of_beq hids]⟩
  · exact nomatch hids

private theorem tupleAssignable_congr (hr : ∀ s ∈ ss, ∀ g ∈ gs, r s g = r' s g) :
    tupleAssignable r ss gs = tupleAssignable r' ss gs := by
  rw [tupleAssignable, tupleAssignable, pairwise_congr hr]
  split
  · next hvariadic =>
    obtain ⟨element, rfl⟩ := exists_eq_of_isVariadic hvariadic
    exact all_eq_all fun s hs => hr s (List.mem_filter.mp hs).1 element (.head _)
  · rfl

private theorem instanceAssignable_congr {cls cls' : ClassKey}
    (hr : ∀ s ∈ ss, ∀ g ∈ gs, r s g = r' s g) :
    instanceAssignable h r cls ss cls' gs = instanceAssignable h r' cls ss cls' gs := by
  rw [instanceAssignable, instanceAssignable, tupleAssignable_congr hr, pairwise_congr hr]

private theorem structurallyAssignable_congr
    (hr : ∀ s g, t.AsksFor source target s g → r s g = r' s g) :
    t.structurallyAssignable h r source target = t.structurallyAssignable h r' source target := by
  unfold structurallyAssignable
  split
  · rfl
  · rfl
  · next members _ _ hs _ =>
    exact all_eq_all fun m hm => hr m target (.left (comparedParts_eq hs ▸ hm))
  · next _ members _ _ _ hg =>
    exact any_eq_any fun m hm => hr source m (.right (comparedParts_eq hg ▸ hm))
  · next args _ args' hs hg =>
    exact instanceAssignable_congr fun s hs' g hg' =>
      hr s g (.both (comparedParts_eq hs ▸ hs') (comparedParts_eq hg ▸ hg'))
  · next inner inner' hs hg =>
    exact hr inner inner' (.both (comparedParts_eq hs ▸ .head _) (comparedParts_eq hg ▸ .head _))
  · next inner args hs hg =>
    cases args with
    | nil => rfl
    | cons expected args =>
      exact hr inner expected (.both (comparedParts_eq hs ▸ .head _) (comparedParts_eq hg ▸ .head _))
  all_goals rfl

/-! ### Nested types -/

/-- A type has at most some number of levels, one for each type on the way down to its parts. -/
def NestedWithin (t : TypeTable) : Nat → TypeId → Prop
  | 0, _ => False
  | n + 1, id => ∀ part ∈ t.comparedParts id, t.NestedWithin n part

instance decidableNestedWithin (t : TypeTable) : (n : Nat) → (id : TypeId) →
    Decidable (t.NestedWithin n id)
  | 0, _ => inferInstanceAs (Decidable False)
  | n + 1, id =>
    have := t.decidableNestedWithin n
    inferInstanceAs (Decidable (∀ part ∈ t.comparedParts id, t.NestedWithin n part))

/-- Two types together have at most some number of levels. -/
def Shallow (t : TypeTable) (k : Nat) (s g : TypeId) : Prop :=
  ∃ n m, t.NestedWithin n s ∧ t.NestedWithin m g ∧ n + m ≤ k

theorem NestedWithin.mono (hid : t.NestedWithin n id) (hle : n ≤ m) :
    t.NestedWithin m id := by
  induction n generalizing m id with
  | zero => exact hid.elim
  | succ n ih =>
    obtain ⟨m, rfl⟩ := Nat.exists_eq_add_of_le' (Nat.lt_of_lt_of_le (Nat.succ_pos n) hle)
    exact fun part hp => ih (hid part hp) (Nat.le_of_succ_le_succ hle)

private theorem Shallow.mono (hs : t.Shallow k s g) (hle : k ≤ m) : t.Shallow m s g := by
  obtain ⟨n, l, hn, hl, hk⟩ := hs
  exact ⟨n, l, hn, hl, Nat.le_trans hk hle⟩

private theorem not_shallow_zero : ¬ t.Shallow 0 s g := by
  rintro ⟨n, m, hn, -, hk⟩
  obtain rfl : n = 0 := by omega
  exact hn

private theorem Shallow.exists_least (hs : t.Shallow m s g) :
    ∃ k, t.Shallow (k + 1) s g ∧ ¬ t.Shallow k s g ∧ k + 1 ≤ m := by
  induction m with
  | zero => exact absurd hs not_shallow_zero
  | succ m ih =>
    by_cases hm : t.Shallow m s g
    · obtain ⟨k, hk, hdeep, hle⟩ := ih hm
      exact ⟨k, hk, hdeep, Nat.le_succ_of_le hle⟩
    · exact ⟨m, hs, hm, Nat.le_refl _⟩

private theorem Shallow.asksFor (hs : t.Shallow (k + 1) source target)
    (ha : t.AsksFor source target s g) :
    t.Shallow k s g := by
  obtain ⟨n, m, hn, hm, hk⟩ := hs
  cases n with
  | zero => exact hn.elim
  | succ n =>
    cases m with
    | zero => exact hm.elim
    | succ m =>
      cases ha with
      | left hp => exact ⟨n, m + 1, hn s hp, hm, by omega⟩
      | right hp => exact ⟨n + 1, m, hn, hm g hp, by omega⟩
      | both hp hp' => exact ⟨n, m, hn s hp, hm g hp', by omega⟩

/-! ### The bound and the memory play no part -/

/-- A guard has room for some number of pairs, and remembers only pairs with more levels. -/
private structure Free (t : TypeTable) (k : Nat) (guard : Guard (TypeId × TypeId)) : Prop where
  room : guard.visiting.length + k ≤ guard.limit
  deeper : ∀ p ∈ guard.visiting, ¬ t.Shallow k p.1 p.2

private theorem Free.mono (hfree : t.Free m guard) (hle : k ≤ m) : t.Free k guard where
  room := by
    have := hfree.room
    omega
  deeper p hp hs := hfree.deeper p hp (hs.mono hle)

private theorem Free.enter (hfree : t.Free (k + 1) guard) (hs : t.Shallow (k + 1) s g)
    (hdeep : ¬ t.Shallow k s g) :
    ∃ inner, guard.enter (s, g) = .entered inner ∧ t.Free k inner := by
  have hroom := hfree.room
  have hnew : guard.visiting.contains (s, g) = false := by
    rw [Bool.eq_false_iff, Ne, List.contains_iff_mem]
    exact fun hmem => hfree.deeper _ hmem hs
  refine ⟨{ guard with visiting := (s, g) :: guard.visiting }, ?_, ?_, fun p hp => ?_⟩
  · rw [Guard.enter, if_neg (by omega), hnew, if_neg Bool.false_ne_true]
  · show (guard.visiting.length + 1) + k ≤ guard.limit
    omega
  · rcases List.mem_cons.mp hp with rfl | hp
    · exact hdeep
    · exact (hfree.mono (Nat.le_succ k)).deeper p hp

theorem assignableUpTo_of_entered {inner : Guard (TypeId × TypeId)}
    (henter : guard.enter (s, g) = .entered inner) :
    t.assignableUpTo h (fuel + 1) guard s g =
      (triviallyAssignable s g ||
        t.structurallyAssignable h (t.assignableUpTo h fuel inner) s g) := by
  rw [assignableUpTo.eq_def]
  simp only [henter]
  cases triviallyAssignable s g <;> rfl

private theorem assignableUpTo_congr (hs : t.Shallow k s g) (hfuel : k ≤ fuel) (hfuel' : k ≤ fuel')
    (hfree : t.Free k guard) (hfree' : t.Free k guard') :
    t.assignableUpTo h fuel guard s g = t.assignableUpTo h fuel' guard' s g := by
  induction k generalizing s g fuel fuel' guard guard' with
  | zero => exact absurd hs not_shallow_zero
  | succ k ih =>
    by_cases hdeep : t.Shallow k s g
    · exact ih hdeep (by omega) (by omega) (hfree.mono (Nat.le_succ k))
        (hfree'.mono (Nat.le_succ k))
    · obtain ⟨fuel, rfl⟩ := Nat.exists_eq_add_of_le' (Nat.lt_of_lt_of_le (Nat.succ_pos k) hfuel)
      obtain ⟨fuel', rfl⟩ := Nat.exists_eq_add_of_le' (Nat.lt_of_lt_of_le (Nat.succ_pos k) hfuel')
      obtain ⟨inner, henter, hinner⟩ := hfree.enter hs hdeep
      obtain ⟨inner', henter', hinner'⟩ := hfree'.enter hs hdeep
      rw [assignableUpTo_of_entered henter, assignableUpTo_of_entered henter']
      refine congrArg _ (structurallyAssignable_congr fun s g ha => ?_)
      exact ih (hs.asksFor ha) (by omega) (by omega) hinner hinner'

/-- Types that are compatible whatever they are made of are assignable. -/
theorem assignable_of_trivially (hs : triviallyAssignable s g = true) :
    t.assignable h s g = true := by
  rw [assignable, assignableUpTo.eq_def]
  simp only [hs, if_true]

/-- Types that are not nested too deeply are assignable if they are compatible whatever they are
made of, or by what they are and whether their parts are assignable. -/
theorem assignable_eq (hs : t.Shallow Limits.assignability s g) :
    t.assignable h s g =
      (triviallyAssignable s g || t.structurallyAssignable h (t.assignable h) s g) := by
  -- The memory holds the pair itself, so the parts are compared with the fewest levels it can have.
  obtain ⟨k, hleast, hdeep, hle⟩ := hs.exists_least
  have hstart : t.Free (k + 1) { limit := Limits.assignability } := by
    refine ⟨?_, nofun⟩
    rw [List.length_nil, Nat.zero_add]
    exact hle
  obtain ⟨inner, henter, hinner⟩ := hstart.enter hleast hdeep
  obtain ⟨fuel, hfuel⟩ : ∃ fuel, Limits.assignability = fuel + 1 := ⟨_, rfl⟩
  have hfirst : t.assignable h s g =
      t.assignableUpTo h (fuel + 1) { limit := Limits.assignability } s g := by
    rw [assignable, ← hfuel]
  rw [hfirst, assignableUpTo_of_entered henter]
  refine congrArg _ (structurallyAssignable_congr fun s g ha => ?_)
  exact assignableUpTo_congr (hleast.asksFor ha) (by omega) (by omega) hinner
    (hstart.mono (Nat.le_succ k))

end LiveCheck.TypeTable

/-!
## What a comparison asks of the hierarchy

Comparing types asks for the bases of the declared classes whose instances are compared, and of the
declared classes above them. What the bases of other classes are plays no part.
-/

namespace LiveCheck

variable {h h' : Hierarchy} {cls sup : ClassKey} {met : List ClassKey} {fuel : Nat}

/-! ### The search order -/

private theorem collectBases_congr (hbases : ∀ c, Below h cls (.declared c) → h c = h' c) :
    collectBases h fuel met cls = collectBases h' fuel met cls := by
  induction fuel generalizing met cls with
  | zero => rfl
  | succ fuel ih =>
    have hdirect : directBases h cls = directBases h' cls := by
      cases cls with
      | builtin b => rfl
      | declared c => rw [directBases, directBases, hbases c .refl]
    rw [collectBases, collectBases, ← hdirect]
    split
    · rfl
    · refine List.foldl_ext _ _ _ fun met base hbase => ih fun c hc => hbases c ?_
      exact hc.head hbase

private theorem isSubclass_congr (hbases : ∀ c, Below h cls (.declared c) → h c = h' c) :
    isSubclass h cls sup = isSubclass h' cls sup := by
  rw [isSubclass, isSubclass, resolutionOrder, resolutionOrder, collectBases_congr hbases]

namespace TypeTable

variable {t : TypeTable} {r : TypeId → TypeId → Bool} {source target s g : TypeId}
  {guard : Guard (TypeId × TypeId)} {c : DeclaredClass}

/-! ### What is consulted -/

/-- The comparison of two types may come to the comparison of two others. -/
inductive ComesTo (t : TypeTable) (source target : TypeId) : TypeId → TypeId → Prop
  | refl : ComesTo t source target source target
  | step {s g s' g' : TypeId} :
      ComesTo t source target s g → t.AsksFor s g s' g' → ComesTo t source target s' g'

/-- The comparison of two types may ask for the bases of the class: it comes to the comparison of
instances, and the class stands above one of their classes. -/
def Consults (t : TypeTable) (h : Hierarchy) (source target : TypeId) (c : DeclaredClass) : Prop :=
  ∃ s g key args, t.ComesTo source target s g ∧
    (t.get? s = some (.inst key args) ∨ t.get? g = some (.inst key args)) ∧
    Below h key (.declared c)

private theorem ComesTo.head (ha : t.AsksFor source target s g) {s' g' : TypeId}
    (hc : t.ComesTo s g s' g') :
    t.ComesTo source target s' g' := by
  induction hc with
  | refl => exact .step .refl ha
  | step _ hlast ih => exact ih.step hlast

private theorem Consults.of_asksFor (ha : t.AsksFor source target s g) (hc : t.Consults h s g c) :
    t.Consults h source target c := by
  obtain ⟨s', g', key, args, hcomes, hinst, hbelow⟩ := hc
  exact ⟨s', g', key, args, hcomes.head ha, hinst, hbelow⟩

private theorem structurallyAssignable_hierarchy
    (hcls : ∀ key args, t.get? source = some (.inst key args) → ∀ c,
      Below h key (.declared c) → h c = h' c) :
    t.structurallyAssignable h r source target = t.structurallyAssignable h' r source target := by
  unfold structurallyAssignable
  split
  case h_5 key args key' args' hs _ =>
    rw [instanceAssignable, instanceAssignable, isSubclass_congr (hcls key args hs)]
  all_goals rfl

private theorem assignableUpTo_hierarchy (hbases : ∀ c, t.Consults h source target c → h c = h' c) :
    t.assignableUpTo h fuel guard source target = t.assignableUpTo h' fuel guard source target := by
  induction fuel generalizing guard source target with
  | zero =>
    rw [assignableUpTo.eq_def, assignableUpTo.eq_def]
    cases henter : guard.enter (source, target) <;> simp only [henter]
  | succ fuel ih =>
    have hstep (inner : Guard (TypeId × TypeId)) :
        t.structurallyAssignable h (t.assignableUpTo h fuel inner) source target =
          t.structurallyAssignable h' (t.assignableUpTo h' fuel inner) source target := by
      rw [structurallyAssignable_hierarchy fun key args hs c hc =>
        hbases c ⟨source, target, key, args, .refl, .inl hs, hc⟩]
      exact structurallyAssignable_congr fun s g ha => ih fun c hc => hbases c (hc.of_asksFor ha)
    rw [assignableUpTo.eq_def, assignableUpTo.eq_def]
    cases henter : guard.enter (source, target) with
    | entered inner => simp only [henter, hstep inner]
    | cycle => simp only [henter]
    | tooDeep => simp only [henter]

theorem assignable_hierarchy (hbases : ∀ c, t.Consults h source target c → h c = h' c) :
    t.assignable h source target = t.assignable h' source target :=
  assignableUpTo_hierarchy hbases

private theorem ComesTo.reaches (hc : t.ComesTo source target s g) :
    t.Reaches TypeData.valueParts source s ∧ t.Reaches TypeData.valueParts target g := by
  induction hc with
  | refl => exact ⟨.refl, .refl⟩
  | step _ ha ih =>
    cases ha with
    | left hs => exact ⟨ih.1.tail hs, ih.2⟩
    | right hg => exact ⟨ih.1, ih.2.tail hg⟩
    | both hs hg => exact ⟨ih.1.tail hs, ih.2.tail hg⟩

/-- A class that is consulted stands above the class of instances that one of the types refers to. -/
theorem Consults.exists_declared (hc : t.Consults h source target c) :
    ∃ type first args, (t.Reaches TypeData.valueParts source type ∨
        t.Reaches TypeData.valueParts target type) ∧
      t.get? type = some (.inst (.declared first) args) ∧ Below h (.declared first) (.declared c) := by
  obtain ⟨s, g, key, args, hcomes, hinst, hbelow⟩ := hc
  obtain ⟨hs, hg⟩ := hcomes.reaches
  cases key with
  | builtin b =>
    obtain ⟨above, -, heq⟩ := below_builtin hbelow
    exact ClassKey.noConfusion heq
  | declared first =>
    rcases hinst with hinst | hinst
    · exact ⟨s, first, args, .inl hs, hinst, hbelow⟩
    · exact ⟨g, first, args, .inr hg, hinst, hbelow⟩

end TypeTable
end LiveCheck
