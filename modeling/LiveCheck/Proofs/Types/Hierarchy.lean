import LiveCheck.Types.Builtins
import Mathlib.Data.List.Chain
import Mathlib.Data.List.Nodup
import Mathlib.Logic.Relation

/-!
# What stands above a class

The search order of a class is found by going up from class to class. If no chain of bases is longer
than the search goes up, then the order has exactly the classes that can be reached from base to
base, and `object`. So being a subclass is transitive.
-/

namespace LiveCheck

variable {h : Hierarchy} {root cls sub mid sup base : ClassKey} {met path : List ClassKey}
  {fuel limit : Nat}

/-! ## The first class -/

private theorem isPrefix_foldl {α β : Type} {f : List α → β → List α} (hf : ∀ l b, l <+: f l b)
    (l : List α) (bs : List β) : l <+: bs.foldl f l := by
  induction bs generalizing l with
  | nil => exact List.prefix_refl l
  | cons b bs ih => exact (hf l b).trans (ih (f l b))

/-- Classes that were met come first. -/
theorem isPrefix_collectBases (h : Hierarchy) (fuel : Nat) (met : List ClassKey)
    (cls : ClassKey) : met <+: collectBases h fuel met cls := by
  induction fuel generalizing met cls with
  | zero => exact List.prefix_refl met
  | succ fuel ih =>
    rw [collectBases]
    split
    · exact List.prefix_refl met
    · exact (List.prefix_append met [cls]).trans (isPrefix_foldl ih _ _)

/-- A class is the first one that is searched for attributes of its instances. -/
theorem resolutionOrder_eq_cons (h : Hierarchy) (cls : ClassKey) :
    ∃ rest, resolutionOrder h cls = cls :: rest := by
  have hlimit : Limits.resolutionOrder = (Limits.resolutionOrder - 1) + 1 := rfl
  obtain ⟨more, hmore⟩ : [cls] <+: collectBases h Limits.resolutionOrder [] cls := by
    rw [hlimit, collectBases, List.contains_nil, if_neg Bool.false_ne_true, List.nil_append]
    exact isPrefix_foldl (isPrefix_collectBases h _) _ _
  by_cases hobject : cls = .object
  · subst hobject
    exact ⟨[], rfl⟩
  · refine ⟨more.filter (· != ClassKey.object) ++ [ClassKey.object], ?_⟩
    rw [resolutionOrder, ← hmore, List.singleton_append, List.filter_cons_of_pos (by simpa),
      List.cons_append]

/-! ## From base to base -/

/-- The second class is a direct base of the first. -/
def HasBase (h : Hierarchy) (cls base : ClassKey) : Prop := base ∈ directBases h cls

/-- The second class is the first, or is reached from it by going from base to base. -/
def Below (h : Hierarchy) : ClassKey → ClassKey → Prop := Relation.ReflTransGen (HasBase h)

/-- Going up from a class, from base to base without meeting a class twice, one meets no more than
`limit` classes, and perhaps `object`. -/
def ChainsWithin (h : Hierarchy) (root : ClassKey) (limit : Nat) : Prop :=
  ∀ chain : List ClassKey, chain.IsChain (HasBase h) → chain.Nodup → ClassKey.object ∉ chain →
    (∀ c ∈ chain, Below h root c) → chain.length ≤ limit

/-- Going from base to base without meeting a class twice, one meets no more classes than the search
goes up, and perhaps `object`. -/
def ShortChains (h : Hierarchy) : Prop :=
  ∀ chain : List ClassKey, chain.IsChain (HasBase h) → chain.Nodup → ClassKey.object ∉ chain →
    chain.length ≤ Limits.resolutionOrder

private theorem ShortChains.within (hshort : ShortChains h) (root : ClassKey) :
    ChainsWithin h root Limits.resolutionOrder :=
  fun chain hchain hnodup hproper _ => hshort chain hchain hnodup hproper

/-- Above a class no chain is longer than the list of all that stands there. -/
theorem chainsWithin_length {classes : List ClassKey}
    (hclasses : ∀ c, Below h cls c → c ≠ .object → c ∈ classes) :
    ChainsWithin h cls classes.length := by
  intro chain _ hnodup hproper habove
  exact hnodup.length_le_of_subset fun c hc =>
    hclasses c (habove c hc) (ne_of_mem_of_not_mem hc hproper)

theorem not_hasBase_object : ¬ HasBase h .object base := List.not_mem_nil

private theorem Below.eq_object (hb : Below h .object sup) : sup = .object := by
  rcases hb.cases_head with rfl | ⟨base, hbase, -⟩
  · rfl
  · exact absurd hbase not_hasBase_object

private theorem below_of_mem_collectBases (hmem : sup ∈ collectBases h fuel met cls) :
    sup ∈ met ∨ Below h cls sup := by
  induction fuel generalizing met cls with
  | zero => exact .inl hmem
  | succ fuel ih =>
    rw [collectBases] at hmem
    split at hmem
    · exact .inl hmem
    · -- The bases are searched one after the other, each with the classes met before.
      have hfold : ∀ bases : List ClassKey, (∀ b ∈ bases, HasBase h cls b) → ∀ met,
          sup ∈ bases.foldl (collectBases h fuel) met → sup ∈ met ∨ Below h cls sup := by
        intro bases
        induction bases with
        | nil => exact fun _ _ hmem => .inl hmem
        | cons b bases ihb =>
          intro hbases met hmem
          rcases ihb (fun b' hb' => hbases b' (.tail _ hb')) _ hmem with hmem | habove
          · rcases ih hmem with hmem | habove
            · exact .inl hmem
            · exact .inr (habove.head (hbases b (.head _)))
          · exact .inr habove
      rcases hfold _ (fun _ hb => hb) _ hmem with hmem | habove
      · rcases List.mem_append.mp hmem with hmem | hmem
        · exact .inl hmem
        · exact .inr (List.mem_singleton.mp hmem ▸ .refl)
      · exact .inr habove

/-! ## Nothing is left out -/

/-- The bases of all classes that were met are met too, unless the search is still going up from a
class, or has come to `object`. -/
def Exhausted (h : Hierarchy) (path met : List ClassKey) : Prop :=
  ∀ cls ∈ met, cls ∉ path → ∀ base, HasBase h cls base → base ∈ met ∨ base = .object

/-- The classes from which a search above `root` is going up, the last one first. -/
structure Climbing (h : Hierarchy) (root : ClassKey) (path met : List ClassKey) : Prop where
  chain : path.IsChain (Function.swap (HasBase h))
  above : ∀ c ∈ path, Below h root c
  nodup : path.Nodup
  proper : ClassKey.object ∉ path
  met : path ⊆ met

theorem climbing_nil (h : Hierarchy) (root : ClassKey) (met : List ClassKey) :
    Climbing h root [] met :=
  ⟨.nil, nofun, .nil, List.not_mem_nil, List.nil_subset met⟩

private theorem Climbing.length_le (hchains : ChainsWithin h root limit)
    (hp : Climbing h root path met) :
    path.length ≤ limit := by
  rw [← List.length_reverse]
  refine hchains path.reverse (List.isChain_reverse.mpr hp.chain)
    (List.nodup_reverse.mpr hp.nodup) ?_ fun c hc => hp.above c (List.mem_reverse.mp hc)
  exact fun hmem => hp.proper (List.mem_reverse.mp hmem)

theorem Climbing.step (hp : Climbing h root path met) (hnew : cls ∉ met) (hne : cls ≠ .object)
    (habove : Below h root cls) (hlink : ∀ below ∈ path.head?, HasBase h below cls) :
    Climbing h root (cls :: path) (met ++ [cls]) where
  chain := List.isChain_cons.mpr ⟨hlink, hp.chain⟩
  above := List.forall_mem_cons.mpr ⟨habove, hp.above⟩
  nodup := List.nodup_cons.mpr ⟨fun hmem => hnew (hp.met hmem), hp.nodup⟩
  proper hmem := (List.mem_cons.mp hmem).elim (fun heq => hne heq.symm) hp.proper
  met := by
    intro c hc
    rcases List.mem_cons.mp hc with rfl | hc
    · exact List.mem_append_right _ (.head _)
    · exact List.mem_append_left _ (hp.met hc)

/-- More classes may have been met. -/
theorem Climbing.congr {met' : List ClassKey} (hp : Climbing h root path met)
    (hsub : path ⊆ met') : Climbing h root path met' :=
  { hp with met := hsub }

/-- A class from which the search goes up may have bases that were not met. -/
theorem Exhausted.step (hmet : Exhausted h path met) (cls : ClassKey) :
    Exhausted h (cls :: path) (met ++ [cls]) := by
  intro c hc hpath b hb
  rcases List.mem_append.mp hc with hc | hc
  · exact (hmet c hc (fun hmem => hpath (.tail _ hmem)) b hb).imp_left (List.mem_append_left _)
  · exact absurd (List.mem_singleton.mp hc ▸ .head _) hpath

private theorem Exhausted.foldl {search : List ClassKey → ClassKey → List ClassKey}
    (hkept : ∀ met b, met <+: search met b)
    (hsearch : ∀ met b, HasBase h cls b → path ⊆ met → Exhausted h path met →
      Exhausted h path (search met b) ∧ (b ∈ search met b ∨ b = .object))
    (hmet : Exhausted h path met) (hsub : path ⊆ met) (bases : List ClassKey)
    (hbases : ∀ b ∈ bases, HasBase h cls b) :
    Exhausted h path (bases.foldl search met) ∧
      ∀ b ∈ bases, b ∈ bases.foldl search met ∨ b = .object := by
  induction bases generalizing met with
  | nil => exact ⟨hmet, nofun⟩
  | cons b bases ih =>
    obtain ⟨hfirst, hb⟩ := hsearch met b (hbases b (.head _)) hsub hmet
    obtain ⟨hrest, hbs⟩ := ih hfirst (fun _ hc => (hkept met b).subset (hsub hc))
      fun b' hb' => hbases b' (.tail _ hb')
    refine ⟨hrest, fun b' hb' => ?_⟩
    rcases List.mem_cons.mp hb' with rfl | hb'
    · exact hb.imp_left ((isPrefix_foldl hkept _ bases).subset ·)
    · exact hbs b' hb'

/-- A search that goes up from a class leaves nothing out: the classes on the path to it are no
obstacle, since all of their bases are still to come. -/
theorem exhausted_collectBases (hchains : ChainsWithin h root limit)
    (hp : Climbing h root path met) (habove : Below h root cls)
    (hlink : ∀ below ∈ path.head?, HasBase h below cls) (hroom : limit ≤ fuel + path.length)
    (hmet : Exhausted h path met) :
    Exhausted h path (collectBases h fuel met cls) ∧
      (cls ∈ collectBases h fuel met cls ∨ cls = .object) := by
  induction fuel generalizing path met cls with
  | zero =>
    refine ⟨hmet, ?_⟩
    by_contra hnew
    obtain ⟨hnew, hne⟩ := not_or.mp hnew
    have hlength := (hp.step hnew hne habove hlink).length_le hchains
    rw [List.length_cons] at hlength
    omega
  | succ fuel ih =>
    rw [collectBases]
    split
    · next hcontains => exact ⟨hmet, .inl (List.contains_iff_mem.mp hcontains)⟩
    · next hcontains =>
      have hnew : cls ∉ met := fun hmem => hcontains (List.contains_iff_mem.mpr hmem)
      by_cases hne : cls = .object
      · subst hne
        refine ⟨fun c hc hpath b hb => ?_, .inr rfl⟩
        rcases List.mem_append.mp hc with hc | hc
        · exact (hmet c hc hpath b hb).imp_left (List.mem_append_left _)
        · obtain rfl := List.mem_singleton.mp hc
          exact absurd hb not_hasBase_object
      · have hstep := hp.step hnew hne habove hlink
        obtain ⟨hall, hbases⟩ := (hmet.step cls).foldl (isPrefix_collectBases h fuel)
          (fun met b hb hsub hmet => ih (hstep.congr hsub) (habove.tail hb)
            (fun below hbelow => Option.some.inj hbelow ▸ hb)
            (by rw [List.length_cons]; omega) hmet) hstep.met (directBases h cls) fun _ hb => hb
        have hsub := (isPrefix_foldl (isPrefix_collectBases h fuel) (met ++ [cls])
          (directBases h cls)).subset
        refine ⟨fun c hc hpath b hb => ?_, .inl (hsub (hstep.met (.head _)))⟩
        by_cases hcls : c = cls
        · exact hbases b (hcls ▸ hb)
        · exact hall c hc (fun hmem => (List.mem_cons.mp hmem).elim hcls hpath) b hb

/-- Chains are short if classes have ranks below the bound that get smaller from base to base. -/
theorem shortChains_of_rank (rank : ClassKey → Nat)
    (hdescends : ∀ cls base, HasBase h cls base → rank base < rank cls)
    (hbound : ∀ cls, rank cls < Limits.resolutionOrder) : ShortChains h := by
  have hlength : ∀ (chain : List ClassKey) (cls : ClassKey), (cls :: chain).IsChain (HasBase h) →
      chain.length ≤ rank cls := by
    intro chain
    induction chain with
    | nil => exact fun cls _ => Nat.zero_le _
    | cons base chain ih =>
      intro cls hchain
      have hlt := hdescends cls base hchain.rel
      have hle := ih base hchain.tail
      rw [List.length_cons]
      omega
  intro chain hchain _ _
  cases chain with
  | nil => exact Nat.zero_le _
  | cons cls chain => exact Nat.lt_of_le_of_lt (hlength chain cls hchain) (hbound cls)

/-! ## Subclasses -/

/-- The search order of a class has the classes above it, and `object`. -/
theorem mem_resolutionOrder (hchains : ChainsWithin h cls Limits.resolutionOrder) :
    sup ∈ resolutionOrder h cls ↔ Below h cls sup ∨ sup = .object := by
  obtain ⟨hall, hfirst⟩ : Exhausted h [] (collectBases h Limits.resolutionOrder [] cls) ∧
      (cls ∈ collectBases h Limits.resolutionOrder [] cls ∨ cls = .object) :=
    exhausted_collectBases hchains (climbing_nil h cls []) .refl nofun (Nat.le_refl _) nofun
  have habove : ∀ c, Below h cls c →
      c ∈ collectBases h Limits.resolutionOrder [] cls ∨ c = .object := by
    intro c hc
    induction hc with
    | refl => exact hfirst
    | tail _ hbase ih =>
      rcases ih with hmem | rfl
      · exact hall _ hmem List.not_mem_nil _ hbase
      · exact absurd hbase not_hasBase_object
  simp only [resolutionOrder, List.mem_append, List.mem_filter, List.mem_singleton, bne_iff_ne]
  constructor
  · rintro (⟨hmem, -⟩ | rfl)
    · exact .inl ((below_of_mem_collectBases hmem).resolve_left List.not_mem_nil)
    · exact .inr rfl
  · rintro (hbelow | rfl)
    · by_cases hne : sup = .object
      · exact .inr hne
      · exact .inl ⟨(habove sup hbelow).resolve_right hne, hne⟩
    · exact .inr rfl

theorem ChainsWithin.isSubclass_iff (hchains : ChainsWithin h sub Limits.resolutionOrder) :
    isSubclass h sub sup = true ↔ Below h sub sup ∨ sup = .object := by
  rw [isSubclass, Bool.or_eq_true, beq_iff_eq, List.contains_iff_mem, mem_resolutionOrder hchains]
  constructor
  · rintro (rfl | habove)
    · exact .inl .refl
    · exact habove
  · exact .inr

theorem isSubclass_iff (hshort : ShortChains h) :
    isSubclass h sub sup = true ↔ Below h sub sup ∨ sup = .object :=
  (hshort.within sub).isSubclass_iff

/-- A subclass of a subclass is a subclass. -/
theorem isSubclass_trans (hshort : ShortChains h) (h₁ : isSubclass h sub mid = true)
    (h₂ : isSubclass h mid sup = true) : isSubclass h sub sup = true := by
  rw [isSubclass_iff hshort] at h₁ h₂ ⊢
  rcases h₂ with h₂ | rfl
  · rcases h₁ with h₁ | rfl
    · exact .inl (h₁.trans h₂)
    · exact .inr h₂.eq_object
  · exact .inr rfl

/-! ## Built-in classes -/

namespace BuiltinClass

/-- The built-in classes that stand above one, itself first. -/
def above (cls : BuiltinClass) : List BuiltinClass := chainUpTo all.length cls

private theorem mem_above_self (cls : BuiltinClass) : cls ∈ cls.above := .head _

private theorem base_mem_above (cls : BuiltinClass) :
    ∀ c ∈ cls.above, ∀ base ∈ c.base?, base ∈ cls.above := by
  cases cls <;> decide

/-- Above a base there are fewer classes. -/
theorem length_above_base_lt (cls : BuiltinClass) :
    ∀ base ∈ cls.base?, base.above.length < cls.above.length := by
  cases cls <;> decide

end BuiltinClass

theorem exists_of_hasBase_builtin {cls : BuiltinClass} (hbase : HasBase h (.builtin cls) base) :
    ∃ b ∈ cls.base?, base = .builtin b := by
  simp only [HasBase, directBases, Option.mem_toList, Option.map_eq_some_iff] at hbase
  obtain ⟨b, hb, rfl⟩ := hbase
  exact ⟨b, hb, rfl⟩

/-- What stands above a built-in class does not depend on the classes that are declared. -/
theorem below_builtin {cls : BuiltinClass} :
    Below h (.builtin cls) sup → ∃ above ∈ cls.above, sup = .builtin above := by
  intro hb
  induction hb with
  | refl => exact ⟨cls, cls.mem_above_self, rfl⟩
  | tail _ hbase ih =>
    obtain ⟨c, hc, rfl⟩ := ih
    obtain ⟨b, hb, rfl⟩ := exists_of_hasBase_builtin hbase
    exact ⟨b, cls.base_mem_above c hc b hb, rfl⟩

end LiveCheck
