import LiveCheck.Proofs.Types.Comparison
import LiveCheck.Proofs.Types.Unions

/-!
# Comparing without a guard

The parts of a type have smaller numbers than the type, so two types can be compared by recursion
alone: nothing has to be remembered and nothing has to be bounded. Where the types are not nested
too deeply the guarded comparison gives the same answer, and where they are, it errs on one side
only.
-/

namespace LiveCheck

/-! ## What a comparison comes down to -/

/-- What remains to be known once two types have been looked at. -/
inductive Reduct
  /-- Nothing. -/
  | settled (answer : Bool)
  /-- Whether all of these types are compatible. -/
  | all (pairs : List (TypeId × TypeId))
  /-- Whether two of these types are compatible. -/
  | any (pairs : List (TypeId × TypeId))
deriving Repr, DecidableEq

namespace Reduct

variable {r r' : TypeId → TypeId → Bool} {q : Reduct}

/-- The types that remain to be compared. -/
def pairs : Reduct → List (TypeId × TypeId)
  | settled _ => []
  | all pairs | any pairs => pairs

/-- The answer, where `r` compares types. -/
def answer (r : TypeId → TypeId → Bool) : Reduct → Bool
  | settled answer => answer
  | all pairs => pairs.all fun p => r p.1 p.2
  | any pairs => pairs.any fun p => r p.1 p.2

private theorem answer_mono (hr : ∀ p ∈ q.pairs, r p.1 p.2 = true → r' p.1 p.2 = true)
    (hq : q.answer r = true) : q.answer r' = true := by
  cases q with
  | settled => exact hq
  | all pairs =>
    refine List.all_eq_true.mpr fun p hp => ?_
    exact hr p hp (List.all_eq_true.mp hq p hp)
  | any pairs =>
    obtain ⟨p, hp, hyes⟩ := List.any_eq_true.mp hq
    exact List.any_eq_true.mpr ⟨p, hp, hr p hp hyes⟩

private theorem answer_congr (hr : ∀ p ∈ q.pairs, r p.1 p.2 = r' p.1 p.2) :
    q.answer r = q.answer r' := by
  rw [Bool.eq_iff_iff]
  exact ⟨answer_mono fun p hp hyes => hr p hp ▸ hyes,
    answer_mono fun p hp hyes => (hr p hp).symm ▸ hyes⟩

end Reduct

/-- What remains to be known of tuples with some elements. -/
def tupleReduct (source target : List TypeId) : Reduct :=
  if isVariadic target then
    .all ((source.filter (· != TypeId.ellipsis)).map fun s => (s, target.headD TypeId.unknown))
  else if isVariadic source then .settled false
  else if source.length == target.length then .all (source.zip target)
  else .settled false

/-- What remains to be known of instances. -/
def instanceReduct (h : Hierarchy) (source : ClassKey) (sourceArgs : List TypeId)
    (target : ClassKey) (targetArgs : List TypeId) : Reduct :=
  if source.promotesTo target then .settled true
  else if !isSubclass h source target then .settled false
  else if targetArgs.isEmpty || source != target then .settled true
  else if source.builtin? == some .tuple then tupleReduct sourceArgs targetArgs
  else .all (sourceArgs.zip targetArgs)

section Parts

variable {h : Hierarchy} {r : TypeId → TypeId → Bool} {cls cls' : ClassKey} {ss gs : List TypeId}
  {p : TypeId × TypeId}

private theorem tupleAssignable_eq : tupleAssignable r ss gs = (tupleReduct ss gs).answer r := by
  unfold tupleAssignable tupleReduct
  split
  · simp only [Reduct.answer, List.all_map, Function.comp_def]
  · split
    · rfl
    · split
      · next hlength => rw [hlength, Bool.true_and]; rfl
      · next hlength => rw [Bool.eq_false_of_not_eq_true hlength, Bool.false_and]; rfl

private theorem instanceAssignable_eq :
    instanceAssignable h r cls ss cls' gs = (instanceReduct h cls ss cls' gs).answer r := by
  unfold instanceAssignable instanceReduct
  rw [tupleAssignable_eq]
  repeat' split
  all_goals rfl

private theorem mem_pairs_tupleReduct (hp : p ∈ (tupleReduct ss gs).pairs) :
    p.1 ∈ ss ∧ p.2 ∈ gs := by
  unfold tupleReduct at hp
  split at hp
  · next hvariadic =>
    obtain ⟨element, rfl⟩ := TypeTable.exists_eq_of_isVariadic hvariadic
    obtain ⟨s, hs, rfl⟩ := List.mem_map.mp hp
    exact ⟨(List.mem_filter.mp hs).1, .head _⟩
  · split at hp
    · cases hp
    · split at hp
      · exact List.of_mem_zip hp
      · cases hp

private theorem mem_pairs_instanceReduct (hp : p ∈ (instanceReduct h cls ss cls' gs).pairs) :
    p.1 ∈ ss ∧ p.2 ∈ gs := by
  unfold instanceReduct at hp
  split at hp
  · cases hp
  · split at hp
    · cases hp
    · split at hp
      · cases hp
      · split at hp
        · exact mem_pairs_tupleReduct hp
        · exact List.of_mem_zip hp

end Parts

namespace TypeTable

variable {t : TypeTable} {h : Hierarchy} {r : TypeId → TypeId → Bool} {source target s g : TypeId}
  {k n m fuel : Nat} {guard : Guard (TypeId × TypeId)} {p : TypeId × TypeId}

/-- What remains to be known once two types have been looked up. -/
def reduct (t : TypeTable) (h : Hierarchy) (source target : TypeId) : Reduct :=
  match t.get? source, t.get? target with
  | some (.recursive _ _), some _ => .settled true
  | some _, some (.recursive _ _) => .settled true
  | some (.union members), some _ => .all (members.map fun m => (m, target))
  | some _, some (.union members) => .any (members.map fun m => (source, m))
  | some (.inst cls args), some (.inst cls' args') => instanceReduct h cls args cls' args'
  | some (.classObject inner), some (.classObject inner') => .all [(inner, inner')]
  | some (.classObject inner), some (.inst (.builtin .type) args) =>
    match args with
    | [] => .settled true
    | expected :: _ => .all [(inner, expected)]
  | some (.function _), some (.function _) => .settled true
  | some (.function _), some (.boundMethod _ _) => .settled true
  | some (.boundMethod _ _), some (.function _) => .settled true
  | some (.boundMethod _ _), some (.boundMethod _ _) => .settled true
  | some (.classObject _), some (.function _) => .settled true
  | some (.classObject _), some (.boundMethod _ _) => .settled true
  | some (.moduleObject file _), some (.moduleObject file' _) => .settled (file == file')
  | _, _ => .settled false

/-- How a comparison goes down: through the members of a union on the left, then through those of
a union on the right, then on both sides at once. -/
inductive Descends (t : TypeTable) (source target : TypeId) : TypeId → TypeId → Prop
  | left {s : TypeId} (hunion : t.isUnion source = true) :
      s ∈ t.comparedParts source → Descends t source target s target
  | right {g : TypeId} (hsource : t.isUnion source = false) (hunion : t.isUnion target = true) :
      g ∈ t.comparedParts target → Descends t source target source g
  | both {s g : TypeId} (hsource : t.isUnion source = false) (htarget : t.isUnion target = false) :
      s ∈ t.comparedParts source → g ∈ t.comparedParts target → Descends t source target s g

/-- A comparison of two types comes down to comparisons of their parts. -/
theorem structurallyAssignable_eq :
    t.structurallyAssignable h r source target = (t.reduct h source target).answer r := by
  unfold structurallyAssignable reduct
  generalize t.get? source = data, t.get? target = data'
  split
  case h_5 => exact instanceAssignable_eq
  case h_7 args => cases args <;> simp [Reduct.answer]
  all_goals simp [Reduct.answer, Function.comp_def, *]

/-- A comparison comes down to types further down. -/
theorem descends_of_mem_reduct (hp : p ∈ (t.reduct h source target).pairs) :
    t.Descends source target p.1 p.2 := by
  unfold reduct at hp
  split at hp
  case h_3 members _ _ hs _ =>
    obtain ⟨m, hm, rfl⟩ := List.mem_map.mp hp
    exact .left (by rw [isUnion, hs]) (comparedParts_eq hs ▸ hm)
  case h_4 data members hrec hunion hs hg =>
    obtain ⟨m, hm, rfl⟩ := List.mem_map.mp hp
    have hsource : t.isUnion source = false := by
      rw [isUnion, hs]
      cases data with
      | union => exact absurd rfl (hunion _)
      | _ => rfl
    exact .right hsource (by rw [isUnion, hg]) (comparedParts_eq hg ▸ hm)
  case h_5 hs hg =>
    obtain ⟨hleft, hright⟩ := mem_pairs_instanceReduct hp
    exact .both (by rw [isUnion, hs]) (by rw [isUnion, hg]) (comparedParts_eq hs ▸ hleft)
      (comparedParts_eq hg ▸ hright)
  case h_6 hs hg =>
    obtain rfl := List.mem_singleton.mp hp
    exact .both (by rw [isUnion, hs]) (by rw [isUnion, hg]) (comparedParts_eq hs ▸ .head _)
      (comparedParts_eq hg ▸ .head _)
  case h_7 inner args hs hg =>
    cases args with
    | nil => cases hp
    | cons expected args =>
      obtain rfl := List.mem_singleton.mp hp
      exact .both (by rw [isUnion, hs]) (by rw [isUnion, hg]) (comparedParts_eq hs ▸ .head _)
        (comparedParts_eq hg ▸ .head _)
  all_goals cases hp

/-! ## The plain comparison -/

/-- Compares two types by what they are and by their parts. Parts have smaller numbers than what
they are parts of. -/
def unguarded (t : TypeTable) (h : Hierarchy) (source target : TypeId) : Bool :=
  triviallyAssignable source target ||
    t.structurallyAssignable h
      (fun s g => if s + g < source + target then t.unguarded h s g else false) source target
termination_by source + target

private theorem Identifying.lt_of_mem_comparedParts (ht : t.Identifying) {part id : TypeId}
    (hp : part ∈ t.comparedParts id) : part < id := by
  rw [comparedParts] at hp
  cases hd : t.get? id with
  | none =>
    rw [hd] at hp
    cases hp
  | some data =>
    rw [hd] at hp
    exact ht.ordered id data hd part (t.parts_subset_partsOf data (valueParts_subset data hp))

private theorem Identifying.lt_of_descends (ht : t.Identifying)
    (hd : t.Descends source target s g) :
    s + g < source + target := by
  cases hd with
  | left _ hs => exact Nat.add_lt_add_right (ht.lt_of_mem_comparedParts hs) target
  | right _ _ hg => exact Nat.add_lt_add_left (ht.lt_of_mem_comparedParts hg) source
  | both _ _ hs hg =>
    exact Nat.add_lt_add (ht.lt_of_mem_comparedParts hs) (ht.lt_of_mem_comparedParts hg)

/-- The plain comparison is the recursion that it looks like: no part is left out. -/
theorem Identifying.unguarded_eq (ht : t.Identifying) :
    t.unguarded h source target =
      (triviallyAssignable source target ||
        t.structurallyAssignable h (t.unguarded h) source target) := by
  rw [unguarded]
  refine congrArg _ ?_
  rw [structurallyAssignable_eq, structurallyAssignable_eq]
  exact Reduct.answer_congr fun p hp =>
    if_pos (ht.lt_of_descends (descends_of_mem_reduct hp))

/-! ## The guard notices no cycle -/

/-- What is being visited has larger numbers than two types. -/
def Above (guard : Guard (TypeId × TypeId)) (s g : TypeId) : Prop :=
  ∀ p ∈ guard.visiting, s + g < p.1 + p.2

/-- At first nothing is being visited. -/
theorem above_start : Above { limit := k } s g := List.forall_mem_nil _

theorem Above.enter_ne_cycle (ha : Above guard s g) : guard.enter (s, g) ≠ .cycle := by
  have hnew : guard.visiting.contains (s, g) = false := by
    rw [Bool.eq_false_iff, Ne, List.contains_iff_mem]
    exact fun hmem => Nat.lt_irrefl _ (ha _ hmem)
  rw [Guard.enter, hnew]
  intro hcycle
  split at hcycle <;> cases hcycle

theorem Above.descends {inner : Guard (TypeId × TypeId)} (ht : t.Identifying)
    (ha : Above guard source target) (henter : guard.enter (source, target) = .entered inner)
    (hd : t.Descends source target s g) : Above inner s g := by
  have hlt := ht.lt_of_descends hd
  intro p hp
  rw [Guard.visiting_enter henter] at hp
  rcases List.mem_cons.mp hp with rfl | hp
  · exact hlt
  · exact Nat.lt_trans hlt (ha p hp)

private theorem assignableUpTo_cases (hyes : t.assignableUpTo h fuel guard s g = true) :
    triviallyAssignable s g = true ∨ guard.enter (s, g) = .cycle ∨
      ∃ k inner, fuel = k + 1 ∧ guard.enter (s, g) = .entered inner ∧
        t.structurallyAssignable h (t.assignableUpTo h k inner) s g = true := by
  cases htriv : triviallyAssignable s g with
  | true => exact .inl rfl
  | false =>
    cases henter : guard.enter (s, g) with
    | cycle => exact .inr (.inl rfl)
    | tooDeep =>
      rw [assignableUpTo.eq_def] at hyes
      simp [htriv, henter] at hyes
    | entered inner =>
      cases fuel with
      | zero =>
        rw [assignableUpTo.eq_def] at hyes
        simp [htriv, henter] at hyes
      | succ k =>
        rw [assignableUpTo_of_entered henter, htriv, Bool.false_or] at hyes
        exact .inr (.inr ⟨k, inner, rfl, rfl, hyes⟩)

private theorem Identifying.unguarded_of_assignableUpTo (ht : t.Identifying) (ha : Above guard s g)
    (hyes : t.assignableUpTo h fuel guard s g = true) : t.unguarded h s g = true := by
  induction fuel using Nat.strong_induction_on generalizing guard s g with
  | _ fuel ih =>
    rw [ht.unguarded_eq, Bool.or_eq_true]
    obtain htriv | hcycle | ⟨k, inner, rfl, henter, hyes⟩ := assignableUpTo_cases hyes
    · exact .inl htriv
    · exact absurd hcycle ha.enter_ne_cycle
    · rw [structurallyAssignable_eq] at hyes ⊢
      exact .inr (Reduct.answer_mono (fun p hp => ih k (Nat.lt_succ_self k)
        (ha.descends ht henter (descends_of_mem_reduct hp))) hyes)

/-! ## The guard has room -/

private def Fits (t : TypeTable) (room : Nat) (s g : TypeId) : Prop :=
  ∃ n m, t.NestedWithin n s ∧ t.NestedWithin m g ∧
    3 * (n + m) + (t.isUnion s).toNat + (t.isUnion g).toNat ≤ 4 * room + 2

private theorem Tidy.not_isUnion_of_mem (ht : t.Tidy) {part id : TypeId} (hid : t.isUnion id = true)
    (hp : part ∈ t.comparedParts id) : t.isUnion part = false := by
  obtain ⟨ms, hd⟩ := exists_of_isUnion hid
  rw [comparedParts_eq hd] at hp
  exact ((ht.normal id ms hd).plain part hp).isUnion

private theorem not_fits_zero : ¬ t.Fits 0 s g := by
  rintro ⟨n, m, hn, hm, hle⟩
  cases n with
  | zero => exact hn
  | succ n =>
    cases m with
    | zero => exact hm
    | succ m => omega

private theorem Fits.descends (ht : t.Tidy) (hfits : t.Fits (k + 1) source target)
    (hd : t.Descends source target s g) : t.Fits k s g := by
  obtain ⟨n, m, hn, hm, hle⟩ := hfits
  cases n with
  | zero => exact hn.elim
  | succ n =>
    cases m with
    | zero => exact hm.elim
    | succ m =>
      cases hd with
      | left hunion hs =>
        rw [hunion] at hle
        refine ⟨n, m + 1, hn s hs, hm, ?_⟩
        rw [ht.not_isUnion_of_mem hunion hs]
        simp only [Bool.toNat_true, Bool.toNat_false] at hle ⊢
        omega
      | right hsource hunion hg =>
        rw [hunion, hsource] at hle
        refine ⟨n + 1, m, hn, hm g hg, ?_⟩
        rw [hsource, ht.not_isUnion_of_mem hunion hg]
        simp only [Bool.toNat_true, Bool.toNat_false] at hle ⊢
        omega
      | both _ _ hs hg =>
        refine ⟨n, m, hn s hs, hm g hg, ?_⟩
        have := Bool.toNat_le (t.isUnion s)
        have := Bool.toNat_le (t.isUnion g)
        omega

private theorem Shallow.fits (hs : t.Shallow (Limits.assignability + 2) s g) :
    t.Fits Limits.assignability s g := by
  obtain ⟨n, m, hn, hm, hle⟩ := hs
  have := Bool.toNat_le (t.isUnion s)
  have := Bool.toNat_le (t.isUnion g)
  have : Limits.assignability = 64 := rfl
  exact ⟨n, m, hn, hm, by omega⟩

private theorem Above.exists_enter (ha : Above guard s g)
    (hroom : guard.visiting.length + (k + 1) ≤ guard.limit) :
    ∃ inner, guard.enter (s, g) = .entered inner ∧ inner.limit = guard.limit := by
  have hcycle := ha.enter_ne_cycle
  rw [Guard.enter, if_neg (by omega)] at hcycle ⊢
  split at hcycle
  · exact absurd rfl hcycle
  · next hnew => exact ⟨_, if_neg hnew, rfl⟩

private theorem Tidy.assignableUpTo_eq (ht : t.Tidy) (hfits : t.Fits k s g) (ha : Above guard s g)
    (hfuel : k ≤ fuel) (hroom : guard.visiting.length + k ≤ guard.limit) :
    t.assignableUpTo h fuel guard s g = t.unguarded h s g := by
  induction k generalizing s g fuel guard with
  | zero => exact absurd hfits not_fits_zero
  | succ k ih =>
    obtain ⟨fuel, rfl⟩ := Nat.exists_eq_add_of_le' (Nat.lt_of_lt_of_le (Nat.succ_pos k) hfuel)
    obtain ⟨inner, henter, hlimit⟩ := ha.exists_enter hroom
    rw [assignableUpTo_of_entered henter, ht.identifying.unguarded_eq, structurallyAssignable_eq,
      structurallyAssignable_eq]
    refine congrArg _ (Reduct.answer_congr fun p hp => ?_)
    have hd := descends_of_mem_reduct hp
    refine ih (hfits.descends ht hd) (ha.descends ht.identifying henter hd) (by omega) ?_
    rw [Guard.visiting_enter henter, hlimit, List.length_cons]
    omega

/-- Types with not too many levels are assignable as they are without a guard. -/
theorem Tidy.assignable_eq_unguarded (ht : t.Tidy) (hs : t.Shallow (Limits.assignability + 2) s g) :
    t.assignable h s g = t.unguarded h s g :=
  ht.assignableUpTo_eq hs.fits above_start (Nat.le_refl _) (Nat.le_of_eq (Nat.zero_add _))

/-- Whatever types are assignable are so without a guard. -/
theorem Identifying.unguarded_of_assignable (ht : t.Identifying)
    (hyes : t.assignable h s g = true) : t.unguarded h s g = true :=
  ht.unguarded_of_assignableUpTo above_start hyes

end TypeTable
end LiveCheck
