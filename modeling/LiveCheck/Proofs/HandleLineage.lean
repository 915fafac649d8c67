import LiveCheck.Session.Handle
import Mathlib.Data.List.Nodup

/-!
# Handles over successive registries

Each generation has its own registry, and each registry but the first is the successor of another
one. Whatever is registered in whichever of them, no text is given out for two things or by two
registries, and a text leads back to what it was given out for in the registry that gave it out, as
long as that one is not over. A text can be read back into its parts.
-/

namespace LiveCheck

/-! ## Texts of handles -/

namespace Text

private theorem digitsFrom?_of_digits {cs : List Char} (h : ∀ c ∈ cs, c.isDigit = true)
    (acc : Nat) :
    digitsFrom? acc cs = some (Nat.ofDigitChars 10 cs acc) := by
  induction cs generalizing acc with
  | nil => rfl
  | cons c cs ih =>
    have hc : digit? c = some (c.toNat - 48) := by simp [digit?, h c]
    have hcs := ih (fun d hd => h d (List.mem_cons_of_mem c hd)) (10 * acc + (c.toNat - 48))
    simp only [digitsFrom?, hc, Option.bind_some, hcs, Nat.ofDigitChars, List.foldl_cons]
    rfl

private theorem natUpTo?_repr (limit n : Nat) :
    natUpTo? limit (Nat.repr n) = if n ≤ limit then some n else none := by
  have hdigits : ∀ c ∈ Nat.toDigits 10 n, c.isDigit = true :=
    fun c hc => Nat.isDigit_of_mem_toDigits (by decide) (by decide) hc
  have hvalue : digits? (Nat.toDigits 10 n) = some n := by
    cases hd : Nat.toDigits 10 n with
    | nil => exact absurd hd Nat.toDigits_ne_nil
    | cons c cs =>
      rw [← hd, digits?, digitsFrom?_of_digits hdigits 0,
        Nat.ofDigitChars_toDigits (by decide) (by decide)]
      simp [hd]
  simp only [natUpTo?, Nat.toList_repr]
  split
  · next cs hd =>
    have hplus : '+'.isDigit = true := hdigits '+' (by simp [hd])
    exact absurd hplus (by decide)
  · simp [hvalue, Option.filter_some]

end Text

namespace Handle

private def letterOf : HandleKind → Char
  | .declaration => 'd'
  | .type => 't'

private theorem kind?_letterOf (kind : HandleKind) : kind? (letterOf kind) = some kind := by
  cases kind <;> rfl

private theorem toList_text (h : Handle) :
    h.text.toList =
      'g' :: (Nat.toDigits 10 h.generation ++
        ':' :: letterOf h.kind :: Nat.toDigits 10 h.number) := by
  cases hk : h.kind <;> simp [text, HandleKind.letter, letterOf, hk]

variable {n : Nat}

private theorem ne_colon_of_mem_toDigits {c : Char} (hc : c ∈ Nat.toDigits 10 n) :
    (c != ':') = true := by
  have hdigit : c.isDigit = true := Nat.isDigit_of_mem_toDigits (by decide) (by decide) hc
  rw [bne_iff_ne]
  rintro rfl
  exact absurd hdigit (by decide)

private theorem takeWhile_generation (n : Nat) (rest : List Char) :
    (Nat.toDigits 10 n ++ ':' :: rest).takeWhile (· != ':') = Nat.toDigits 10 n := by
  rw [List.takeWhile_append_of_pos fun c hc => ne_colon_of_mem_toDigits hc]
  simp

private theorem dropWhile_generation (n : Nat) (rest : List Char) :
    (Nat.toDigits 10 n ++ ':' :: rest).dropWhile (· != ':') = ':' :: rest := by
  rw [List.dropWhile_append_of_pos fun c hc => ne_colon_of_mem_toDigits hc]
  simp

private theorem parse?_text (h : Handle) :
    parse? h.text = if h.generation ≤ limit ∧ h.number ≤ limit then some h else none := by
  have hgeneration := Text.natUpTo?_repr limit h.generation
  have hnumber := Text.natUpTo?_repr limit h.number
  rw [Nat.repr_eq_ofList_toDigits] at hgeneration hnumber
  simp only [parse?, toList_text, takeWhile_generation, dropWhile_generation, List.tail?_cons,
    hgeneration]
  by_cases hg : h.generation ≤ limit <;> by_cases hn : h.number ≤ limit <;>
    simp [parseBody?, kind?_letterOf, hnumber, hg, hn]

private theorem toDigits_injective {m : Nat} (h : Nat.toDigits 10 m = Nat.toDigits 10 n) :
    m = n := by
  have := congrArg (Nat.ofDigitChars 10 · 0) h
  simpa using this

/-- No two handles have the same text. -/
theorem text_injective : Function.Injective text := by
  intro h h' he
  have hlists : Nat.toDigits 10 h.generation ++ ':' :: letterOf h.kind :: Nat.toDigits 10 h.number =
      Nat.toDigits 10 h'.generation ++ ':' :: letterOf h'.kind :: Nat.toDigits 10 h'.number := by
    have := congrArg String.toList he
    simpa [toList_text] using this
  have hgeneration : Nat.toDigits 10 h.generation = Nat.toDigits 10 h'.generation := by
    have := congrArg (List.takeWhile (· != ':')) hlists
    simpa only [takeWhile_generation] using this
  rw [hgeneration, List.append_cancel_left_eq, List.cons.injEq, List.cons.injEq] at hlists
  obtain ⟨-, hletter, hnumber⟩ := hlists
  have hkind : h.kind = h'.kind := by
    have := congrArg kind? hletter
    simpa [kind?_letterOf] using this
  cases h
  cases h'
  rw [Handle.mk.injEq]
  exact ⟨toDigits_injective hgeneration, hkind, toDigits_injective hnumber⟩

end Handle

/-! ## One registry -/

variable {handle : Handle} {i : Issue}

namespace HandleRegistry

variable {r : HandleRegistry} {target : HandleTarget} {text : String}

private theorem find?_key {α κ : Type} [BEq κ] [LawfulBEq κ] {f : α → κ} {l : List α}
    (hl : (l.map f).Nodup) {a : α} (ha : a ∈ l) : l.find? (f · == f a) = some a := by
  cases hfound : l.find? (f · == f a) with
  | none =>
    have := List.find?_eq_none.mp hfound a ha
    simp at this
  | some b =>
    have hkey : f b = f a := by simpa using List.find?_some hfound
    rw [List.inj_on_of_nodup_map hl (List.mem_of_find?_eq_some hfound) ha hkey]

/-- The handles of a registry are good for its generation, and no two entries have the same text or
the same target. A registry that is over has none. -/
structure WF (r : HandleRegistry) : Prop where
  empty : r.retired = true → r.entries = []
  handle : ∀ entry ∈ r.entries, entry.1.generation = r.generation ∧ entry.1.kind = entry.2.kind ∧
    entry.1.number < r.next
  texts : (r.entries.map (·.1.text)).Nodup
  targets : (r.entries.map (·.2)).Nodup

theorem wf_new (generation next : Nat) : WF { generation := generation, next := next } :=
  ⟨fun _ => rfl, by simp, by simp, by simp⟩

private theorem wf_retire (r : HandleRegistry) : r.retire.WF :=
  ⟨fun _ => rfl, by simp [retire], by simp [retire], by simp [retire]⟩

theorem register_of_retired (h : r.retired = true) (target : HandleTarget) :
    r.register target = (none, r) := by
  simp [register, h]

/-- A target that has a handle is given that handle again. -/
theorem register_of_mem (hr : r.WF) (h : (handle, target) ∈ r.entries) :
    r.register target = (some handle.text, r) := by
  have hlive : r.retired ≠ true := by
    intro hretired
    rw [hr.empty hretired] at h
    exact absurd h List.not_mem_nil
  have hfound : r.entries.find? (·.2 == target) = some (handle, target) :=
    find?_key (f := fun entry => entry.2) hr.targets h
  simp [register, hlive, hfound]

/-- Any other target is given the next number. -/
theorem register_of_not_mem (hlive : r.retired = false)
    (h : ∀ handle, (handle, target) ∉ r.entries) :
    r.register target =
      (some (Handle.text ⟨r.generation, target.kind, r.next⟩),
        { r with
          next := r.next + 1
          entries := r.entries ++ [(⟨r.generation, target.kind, r.next⟩, target)] }) := by
  have hfound : r.entries.find? (·.2 == target) = none := by
    rw [List.find?_eq_none]
    rintro ⟨handle, other⟩ hmem hother
    obtain rfl : other = target := by simpa using hother
    exact h handle hmem
  simp [register, hlive, hfound]

theorem wf_register (hr : r.WF) (target : HandleTarget) : (r.register target).2.WF := by
  cases hlive : r.retired with
  | true => rwa [register_of_retired hlive]
  | false =>
    by_cases hmem : ∃ handle, (handle, target) ∈ r.entries
    · obtain ⟨handle, hmem⟩ := hmem
      rwa [register_of_mem hr hmem]
    · have hnot : ∀ handle, (handle, target) ∉ r.entries := fun handle h => hmem ⟨handle, h⟩
      rw [register_of_not_mem hlive hnot]
      constructor
      · intro hretired
        simp [hlive] at hretired
      · intro entry hentry
        rcases List.mem_append.mp hentry with hentry | hentry
        · obtain ⟨hg, hk, hn⟩ := hr.handle entry hentry
          exact ⟨hg, hk, Nat.lt_succ_of_lt hn⟩
        · simp only [List.mem_singleton] at hentry
          simp [hentry]
      · rw [List.map_append, List.nodup_append]
        refine ⟨hr.texts, by simp, ?_⟩
        intro text htext new hnew heq
        obtain ⟨entry, hentry, rfl⟩ := List.mem_map.mp htext
        simp only [List.map_cons, List.map_nil, List.mem_singleton] at hnew
        have hsame := Handle.text_injective (heq.trans hnew)
        have hlt := (hr.handle entry hentry).2.2
        simp [hsame] at hlt
      · rw [List.map_append, List.nodup_append]
        refine ⟨hr.targets, by simp, ?_⟩
        intro other hother same hsame
        obtain ⟨⟨handle, _⟩, hentry, rfl⟩ := List.mem_map.mp hother
        simp only [List.map_cons, List.map_nil, List.mem_singleton] at hsame
        rintro rfl
        exact hnot handle (hsame ▸ hentry)

/-- A text leads to a target exactly if it is that of an entry. -/
theorem target?_eq_some_iff (hr : r.WF) :
    r.target? text = some target ↔ ∃ handle, handle.text = text ∧ (handle, target) ∈ r.entries := by
  cases hlive : r.retired with
  | true => simp [target?, hlive, hr.empty hlive]
  | false =>
    simp only [target?, hlive, Bool.false_eq_true, if_false, Option.map_eq_some_iff]
    constructor
    · rintro ⟨entry, hfound, rfl⟩
      exact ⟨entry.1, by simpa using List.find?_some hfound, List.mem_of_find?_eq_some hfound⟩
    · rintro ⟨handle, rfl, hmem⟩
      exact ⟨(handle, target), find?_key (f := fun entry => entry.1.text) hr.texts hmem, rfl⟩

theorem declaration?_eq_some_iff {decl : DeclId} :
    r.declaration? text = some decl ↔ r.target? text = some (.declaration decl) := by
  unfold declaration?
  split <;> simp_all

theorem type?_eq_some_iff {type : TypeId} :
    r.type? text = some type ↔ r.target? text = some (.type type) := by
  unfold type?
  split <;> simp_all

end HandleRegistry

/-! ## Successive registries -/

/-- What can be done with successive registries, which are counted from the oldest one on. -/
inductive RegistryOperation
  /-- Something is registered. -/
  | register (place : Nat) (target : HandleTarget)
  /-- A registry is ended. -/
  | retire (place : Nat)
  /-- The latest registry is ended, and its successor takes its place. -/
  | succeed (generation : Nat)
deriving DecidableEq

/-- A handle that was given out. -/
structure Issue where
  /-- The registry that gave it out. -/
  place : Nat
  /-- The generation of that registry. -/
  generation : Nat
  /-- The next number of that registry at that time. -/
  counter : Nat
  /-- What it was given out for. -/
  target : HandleTarget
  /-- Its text. -/
  text : String
deriving DecidableEq

private def Issue.Matches (i j : Issue) : Prop := i.place = j.place ∧ i.target = j.target

private theorem Issue.matches_comm {j : Issue} : i.Matches j ↔ j.Matches i := by
  simp only [Issue.Matches, eq_comm]

/-- Only handles of one registry for one target have the same text, and the first one of them has
the number that was next. -/
private structure Separate (issues : List Issue) : Prop where
  text : ∀ i ∈ issues, ∀ j ∈ issues, i.text = j.text ↔ i.Matches j
  first : ∀ before i later, issues = before ++ i :: later → (∀ j ∈ before, ¬ j.Matches i) →
    i.text = Handle.text ⟨i.generation, i.target.kind, i.counter⟩

private theorem Separate.concat {issues : List Issue} (h : Separate issues)
    (htext : ∀ j ∈ issues, j.text = i.text ↔ j.Matches i)
    (hfirst : (∀ j ∈ issues, ¬ j.Matches i) →
      i.text = Handle.text ⟨i.generation, i.target.kind, i.counter⟩) :
    Separate (issues ++ [i]) := by
  constructor
  · intro j hj k hk
    simp only [List.mem_append, List.mem_singleton] at hj hk
    rcases hj with hj | rfl <;> rcases hk with hk | rfl
    · exact h.text j hj k hk
    · exact htext j hj
    · rw [eq_comm, htext k hk, Issue.matches_comm]
    · simp [Issue.Matches]
  · intro before j later he hnone
    rcases List.eq_nil_or_concat later with rfl | ⟨rest, last, rfl⟩
    · obtain ⟨rfl, hj⟩ := List.append_inj' he rfl
      obtain rfl := List.singleton_inj.mp hj
      exact hfirst hnone
    · rw [List.concat_eq_append, ← List.cons_append, ← List.append_assoc] at he
      exact h.first before j rest (List.append_inj' he rfl).1 hnone

/-- Successive registries, and the handles that they gave out, the earliest first. -/
structure Lineage where
  registries : List HandleRegistry
  issues : List Issue := []

namespace Lineage

variable {l : Lineage} {place : Nat} {r : HandleRegistry} {target : HandleTarget}

/-- The first registry. -/
def start (generation : Nat) : Lineage := ⟨[{ generation := generation }], []⟩

/-- The registries behind an operation. -/
def apply (l : Lineage) : RegistryOperation → Lineage
  | .register place target =>
    match l.registries[place]? with
    | none => l
    | some r =>
      let answer := r.register target
      { registries := l.registries.set place answer.2
        issues := l.issues ++
          (answer.1.map (Issue.mk place r.generation r.next target)).toList }
  | .retire place => { l with registries := l.registries.modify place .retire }
  | .succeed generation =>
    match l.registries.getLast? with
    | none => l
    | some r =>
      { l with registries :=
          l.registries.modify (l.registries.length - 1) .retire ++ [r.successor generation] }

/-- The registries behind some operations. -/
def after (l : Lineage) (ops : List RegistryOperation) : Lineage := ops.foldl apply l

/-- What holds of successive registries and of the handles that they gave out. -/
private structure Valid (l : Lineage) : Prop where
  wf : ∀ (place : Nat) (r : HandleRegistry), l.registries[place]? = some r → r.WF
  /-- All registries but the latest one are over. -/
  superseded : ∀ (place : Nat) (r : HandleRegistry), l.registries[place]? = some r →
    place + 1 < l.registries.length → r.retired = true
  /-- Handles were given out by registries. -/
  origin : ∀ i ∈ l.issues, ∃ r, l.registries[i.place]? = some r ∧ r.generation = i.generation
  /-- Their numbers are below the next one of the latest registry. -/
  number : ∀ i ∈ l.issues, ∃ handle : Handle, handle.text = i.text ∧
    ∀ r ∈ l.registries.getLast?, handle.number < r.next
  /-- A registry that is not over has an entry for each handle that it gave out, and no others. -/
  entry : ∀ (place : Nat) (r : HandleRegistry), l.registries[place]? = some r → r.retired = false →
    ∀ handle target, (handle, target) ∈ r.entries ↔
      ∃ i ∈ l.issues, i.place = place ∧ i.target = target ∧ i.text = handle.text
  separate : Separate l.issues

private theorem valid_start (generation : Nat) : (start generation).Valid where
  wf place r hr := by
    obtain ⟨-, rfl⟩ : place = 0 ∧ { generation := generation } = r := by
      cases place <;> simp_all [start]
    exact HandleRegistry.wf_new generation 1
  superseded place r _ hlt := by simp [start] at hlt
  origin i hi := by simp [start] at hi
  number i hi := by simp [start] at hi
  entry place r hr _ handle target := by
    obtain ⟨-, rfl⟩ : place = 0 ∧ { generation := generation } = r := by
      cases place <;> simp_all [start]
    simp [start]
  separate := ⟨by simp [start], by simp [start]⟩

section

variable (hl : l.Valid)
include hl

private theorem Valid.getLast?_of_live (hr : l.registries[place]? = some r)
    (hlive : r.retired = false) :
    place + 1 = l.registries.length ∧ l.registries.getLast? = some r := by
  obtain ⟨hlt, -⟩ := List.getElem?_eq_some_iff.mp hr
  have hlast : place + 1 = l.registries.length := by
    by_contra hne
    have := hl.superseded place r hr (by omega)
    simp [hlive] at this
  refine ⟨hlast, ?_⟩
  rw [List.getLast?_eq_getElem?, ← hr]
  congr 1
  omega

private theorem Valid.again (hr : l.registries[place]? = some r) (hlive : r.retired = false)
    (hmem : (handle, target) ∈ r.entries) :
    Valid { l with
      issues := l.issues ++ [⟨place, r.generation, r.next, target, handle.text⟩] } := by
  obtain ⟨j, hj, hplace, htarget, htext⟩ := (hl.entry place r hr hlive handle target).mp hmem
  refine ⟨hl.wf, hl.superseded, ?_, ?_, ?_, ?_⟩
  · intro i hi
    rcases List.mem_append.mp hi with hi | hi
    · exact hl.origin i hi
    · rw [List.mem_singleton.mp hi]
      exact ⟨r, hr, rfl⟩
  · intro i hi
    rcases List.mem_append.mp hi with hi | hi
    · exact hl.number i hi
    · rw [List.mem_singleton.mp hi]
      obtain ⟨other, hother, hlt⟩ := hl.number j hj
      exact ⟨other, hother.trans htext, hlt⟩
  · intro place' r' hr' hlive' handle' target'
    rw [hl.entry place' r' hr' hlive' handle' target']
    simp only [List.mem_append, List.mem_singleton, or_and_right, exists_or, exists_eq_left]
    refine ⟨.inl, fun h => h.elim id fun h => ?_⟩
    exact ⟨j, hj, hplace.trans h.1, htarget.trans h.2.1, htext.trans h.2.2⟩
  · refine hl.separate.concat (fun i hi => ?_) fun hnone => ?_
    · have := hl.separate.text i hi j hj
      simpa only [Issue.Matches, hplace, htarget, htext] using this
    · exact absurd ⟨hplace, htarget⟩ (hnone j hj)

private theorem Valid.anew (hr : l.registries[place]? = some r) (hlive : r.retired = false)
    (hnot : ∀ handle, (handle, target) ∉ r.entries) :
    Valid
      { registries := l.registries.set place
          { r with
            next := r.next + 1
            entries := r.entries ++ [(⟨r.generation, target.kind, r.next⟩, target)] }
        issues := l.issues ++ [⟨place, r.generation, r.next, target,
          Handle.text ⟨r.generation, target.kind, r.next⟩⟩] } := by
  obtain ⟨hlength, hlast⟩ := hl.getLast?_of_live hr hlive
  let handle : Handle := ⟨r.generation, target.kind, r.next⟩
  let r' : HandleRegistry :=
    { r with next := r.next + 1, entries := r.entries ++ [(handle, target)] }
  have hr' : r' = (r.register target).2 := by
    rw [HandleRegistry.register_of_not_mem hlive hnot]
  have hset (place' : Nat) : (l.registries.set place r')[place']? =
      if place = place' then some r' else l.registries[place']? := by
    rw [List.getElem?_set]
    by_cases h : place = place'
    · simp [h]
      omega
    · simp [h]
  -- All numbers so far are below the next one.
  have hfresh (i : Issue) (hi : i ∈ l.issues) : i.text ≠ handle.text := by
    intro htext
    obtain ⟨other, hother, hlt⟩ := hl.number i hi
    have heq := Handle.text_injective (hother.trans htext)
    have := hlt r (by rw [hlast]; rfl)
    simp [heq, handle] at this
  have hnone (i : Issue) (hi : i ∈ l.issues) : ¬ (i.place = place ∧ i.target = target) := by
    rintro ⟨hplace, htarget⟩
    obtain ⟨other, hother, -⟩ := hl.number i hi
    exact hnot other
      ((hl.entry place r hr hlive other target).mpr ⟨i, hi, hplace, htarget, hother.symm⟩)
  constructor
  · intro place' s hs
    change (l.registries.set place r')[place']? = some s at hs
    rw [hset] at hs
    split at hs
    · obtain rfl := Option.some.inj hs
      rw [hr']
      exact HandleRegistry.wf_register (hl.wf place r hr) target
    · exact hl.wf place' s hs
  · intro place' s hs hlt
    change (l.registries.set place r')[place']? = some s at hs
    rw [List.length_set] at hlt
    rw [hset, if_neg (by omega)] at hs
    exact hl.superseded place' s hs hlt
  · intro i hi
    rcases List.mem_append.mp hi with hi | hi
    · obtain ⟨s, hs, hgeneration⟩ := hl.origin i hi
      by_cases hplace : place = i.place
      · refine ⟨r', by rw [hset, if_pos hplace], ?_⟩
        rw [← hplace, hr] at hs
        rw [← hgeneration, ← Option.some.inj hs]
      · exact ⟨s, by rw [hset, if_neg hplace, hs], hgeneration⟩
    · rw [List.mem_singleton.mp hi]
      exact ⟨r', by rw [hset, if_pos rfl], rfl⟩
  · have hlast' : (l.registries.set place r').getLast? = some r' := by
      rw [List.getLast?_eq_getElem?, List.length_set, hset, if_pos (by omega)]
    intro i hi
    rcases List.mem_append.mp hi with hi | hi
    · obtain ⟨other, hother, hlt⟩ := hl.number i hi
      refine ⟨other, hother, fun s hs => ?_⟩
      rw [hlast', Option.mem_some] at hs
      rw [← hs]
      exact Nat.lt_succ_of_lt (hlt r (by rw [hlast]; rfl))
    · rw [List.mem_singleton.mp hi]
      refine ⟨handle, rfl, fun s hs => ?_⟩
      rw [hlast', Option.mem_some] at hs
      rw [← hs]
      exact Nat.lt_succ_self r.next
  · intro place' s hs hlive' other target'
    change (l.registries.set place r')[place']? = some s at hs
    simp only [List.mem_append, List.mem_singleton, or_and_right, exists_or, exists_eq_left]
    rw [hset] at hs
    split at hs
    · next hplace =>
      obtain rfl := Option.some.inj hs
      have hentry := hl.entry place r hr hlive other target'
      rw [← hplace, List.mem_append, List.mem_singleton, hentry, Prod.mk.injEq]
      refine or_congr_right ⟨fun h => ⟨rfl, h.2.symm, by rw [h.1]⟩, fun h => ?_⟩
      exact ⟨(Handle.text_injective h.2.2).symm, h.2.1.symm⟩
    · next hplace =>
      rw [hl.entry place' s hs hlive' other target']
      simp [hplace]
  · refine hl.separate.concat (fun i hi => ?_) fun _ => rfl
    exact ⟨fun h => absurd h (hfresh i hi), fun h => absurd h (hnone i hi)⟩

private theorem Valid.register (place : Nat) (target : HandleTarget) :
    (l.apply (.register place target)).Valid := by
  simp only [apply]
  split
  · exact hl
  · next r hr =>
    have hsame : l.registries.set place r = l.registries := by
      obtain ⟨hlt, rfl⟩ := List.getElem?_eq_some_iff.mp hr
      exact List.set_getElem_self hlt
    cases hlive : r.retired with
    | true =>
      rw [HandleRegistry.register_of_retired hlive]
      simpa [hsame] using hl
    | false =>
      by_cases hmem : ∃ handle, (handle, target) ∈ r.entries
      · obtain ⟨handle, hmem⟩ := hmem
        rw [HandleRegistry.register_of_mem (hl.wf place r hr) hmem]
        simpa [hsame] using hl.again hr hlive hmem
      · have hnot : ∀ handle, (handle, target) ∉ r.entries := fun handle h => hmem ⟨handle, h⟩
        rw [HandleRegistry.register_of_not_mem hlive hnot]
        exact hl.anew hr hlive hnot

private theorem Valid.retire (place : Nat) : (l.apply (.retire place)).Valid := by
  have hget (place' : Nat) (s : HandleRegistry)
      (hs : (l.registries.modify place .retire)[place']? = some s) :
      ∃ r, l.registries[place']? = some r ∧ (s = r ∨ s = r.retire) := by
    rw [List.getElem?_modify, Option.map_eq_map, Option.map_eq_some_iff] at hs
    obtain ⟨r, hr, rfl⟩ := hs
    exact ⟨r, hr, by split <;> simp⟩
  have hnext (i : Nat) (r : HandleRegistry) (hr : l.registries[i]? = some r) :
      ∃ s, (l.registries.modify place .retire)[i]? = some s ∧ s.generation = r.generation := by
    rw [List.getElem?_modify, hr]
    refine ⟨_, rfl, ?_⟩
    split <;> rfl
  constructor
  · intro place' s hs
    obtain ⟨r, hr, rfl | rfl⟩ := hget place' s hs
    · exact hl.wf place' s hr
    · exact HandleRegistry.wf_retire r
  · intro place' s hs hlt
    simp only [apply, List.length_modify] at hlt
    obtain ⟨r, hr, rfl | rfl⟩ := hget place' s hs
    · exact hl.superseded place' s hr hlt
    · rfl
  · intro i hi
    obtain ⟨r, hr, hgeneration⟩ := hl.origin i hi
    obtain ⟨s, hs, hsame⟩ := hnext i.place r hr
    exact ⟨s, hs, hsame.trans hgeneration⟩
  · intro i hi
    obtain ⟨handle, htext, hlt⟩ := hl.number i hi
    refine ⟨handle, htext, fun s hs => ?_⟩
    simp only [apply, List.getLast?_eq_getElem?, List.length_modify, Option.mem_def] at hs hlt
    obtain ⟨r, hr, rfl | rfl⟩ := hget _ s hs
    · exact hlt s hr
    · exact hlt r hr
  · intro place' s hs hlive
    obtain ⟨r, hr, rfl | rfl⟩ := hget place' s hs
    · exact hl.entry place' s hr hlive
    · exact absurd hlive (by simp [HandleRegistry.retire])
  · exact hl.separate

private theorem Valid.append
    (hover : ∀ (place : Nat) (r : HandleRegistry), l.registries[place]? = some r → r.retired = true)
    (hlast : l.registries.getLast? = some r) (generation : Nat) :
    Valid { l with registries := l.registries ++ [r.successor generation] } := by
  have hget (place : Nat) (s : HandleRegistry)
      (hs : (l.registries ++ [r.successor generation])[place]? = some s) :
      l.registries[place]? = some s ∨ place = l.registries.length ∧ s = r.successor generation := by
    rw [List.getElem?_append] at hs
    split at hs
    · exact .inl hs
    · next hge =>
      obtain ⟨hlt, rfl⟩ := List.getElem?_eq_some_iff.mp hs
      simp only [List.length_singleton] at hlt
      exact .inr ⟨by omega, by simp⟩
  constructor
  · intro place s hs
    obtain hs | ⟨-, rfl⟩ := hget place s hs
    · exact hl.wf place s hs
    · exact HandleRegistry.wf_new generation r.next
  · intro place s hs hlt
    simp only [List.length_append, List.length_singleton] at hlt
    obtain hs | ⟨rfl, -⟩ := hget place s hs
    · exact hover place s hs
    · omega
  · intro i hi
    obtain ⟨s, hs, hgeneration⟩ := hl.origin i hi
    obtain ⟨hlt, -⟩ := List.getElem?_eq_some_iff.mp hs
    exact ⟨s, by rw [List.getElem?_append_left hlt, hs], hgeneration⟩
  · intro i hi
    obtain ⟨handle, htext, hlt⟩ := hl.number i hi
    refine ⟨handle, htext, fun s hs => ?_⟩
    rw [List.getLast?_concat, Option.mem_some] at hs
    rw [← hs]
    exact hlt r (by rw [hlast]; rfl)
  · intro place s hs hlive handle target
    obtain hs | ⟨rfl, rfl⟩ := hget place s hs
    · exact absurd (hover place s hs) (by simp [hlive])
    · simp only [HandleRegistry.successor, List.not_mem_nil, false_iff]
      rintro ⟨i, hi, hplace, -⟩
      obtain ⟨s, hs, -⟩ := hl.origin i hi
      obtain ⟨hlt, -⟩ := List.getElem?_eq_some_iff.mp hs
      omega
  · exact hl.separate

private theorem Valid.succeed (generation : Nat) : (l.apply (.succeed generation)).Valid := by
  simp only [apply]
  split
  · exact hl
  · next r hlast =>
    have hretired := hl.retire (l.registries.length - 1)
    refine hretired.append (r := r.retire) (fun place s hs => ?_) ?_ generation
    · simp only [apply, List.getElem?_modify, Option.map_eq_map, Option.map_eq_some_iff] at hs
      obtain ⟨s, hs, rfl⟩ := hs
      split
      · rfl
      · obtain ⟨hlt, -⟩ := List.getElem?_eq_some_iff.mp hs
        exact hl.superseded place s hs (by omega)
    · simp only [apply, List.getLast?_eq_getElem?, List.length_modify] at hlast ⊢
      simp [hlast]

private theorem Valid.apply (op : RegistryOperation) : (l.apply op).Valid := by
  cases op with
  | register place target => exact hl.register place target
  | retire place => exact hl.retire place
  | succeed generation => exact hl.succeed generation

private theorem Valid.after (ops : List RegistryOperation) : (l.after ops).Valid := by
  induction ops generalizing l with
  | nil => exact hl
  | cons op ops ih => exact ih (hl.apply op)

private theorem Valid.target?_eq_some_iff (hi : i ∈ l.issues) (hr : l.registries[place]? = some r) :
    r.target? i.text = some target ↔ place = i.place ∧ r.retired = false ∧ i.target = target := by
  have hwf := hl.wf place r hr
  rw [HandleRegistry.target?_eq_some_iff hwf]
  cases hlive : r.retired with
  | true => simp [hwf.empty hlive]
  | false =>
    constructor
    · rintro ⟨handle, htext, hmem⟩
      obtain ⟨j, hj, hplace, htarget, hjtext⟩ :=
        (hl.entry place r hr hlive handle target).mp hmem
      obtain ⟨hplace', htarget'⟩ := (hl.separate.text j hj i hi).mp (hjtext.trans htext)
      exact ⟨hplace.symm.trans hplace', rfl, htarget'.symm.trans htarget⟩
    · rintro ⟨hplace, -, htarget⟩
      obtain ⟨handle, htext, -⟩ := hl.number i hi
      exact ⟨handle, htext, (hl.entry place r hr hlive handle target).mpr
        ⟨i, hi, hplace.symm, htarget, htext.symm⟩⟩

end

private theorem retired_register (r : HandleRegistry) (target : HandleTarget) :
    (r.register target).2.retired = r.retired := by
  unfold HandleRegistry.register
  split
  · rfl
  · split <;> rfl

private theorem register_eq_none_iff (r : HandleRegistry) (target : HandleTarget) :
    (r.register target).1 = none ↔ r.retired = true := by
  unfold HandleRegistry.register
  split
  · next h => simp [h]
  · next h => split <;> simp [h]

private theorem live_after {ops : List RegistryOperation} (hops : ∀ place, .retire place ∉ ops)
    (hlive : ∀ r ∈ l.registries.getLast?, r.retired = false) :
    ∀ r ∈ (l.after ops).registries.getLast?, r.retired = false := by
  induction ops generalizing l with
  | nil => exact hlive
  | cons op ops ih =>
    refine ih (fun place h => hops place (List.mem_cons_of_mem op h)) ?_
    cases op with
    | retire place => exact absurd List.mem_cons_self (hops place)
    | succeed generation =>
      simp only [apply]
      split
      · exact hlive
      · simp [HandleRegistry.successor]
    | register place target =>
      simp only [apply]
      split
      · exact hlive
      · next r hr =>
        intro s hs
        simp only [List.getLast?_eq_getElem?, List.length_set, List.getElem?_set,
          Option.mem_def] at hs hlive
        split at hs
        · next hplace =>
          obtain ⟨-, rfl⟩ : place < l.registries.length ∧ (r.register target).2 = s := by
            simpa using hs
          rw [retired_register]
          exact hlive r (hplace ▸ hr)
        · exact hlive s hs

/-- Whatever is registered in whichever of successive registries: two handles have the same text
exactly if they were given out by one registry for one thing. A text leads to what it was given out
for in the registry that gave it out, until that one is over, and to nothing in all others. A
registry is over at the latest when it has a successor, and gives out handles until then. The first
text for something is read back into the generation, the kind and the number that was next, if these
numbers are within the limit. -/
theorem handles_lead_back (generation : Nat) (ops : List RegistryOperation) :
    let l := (start generation).after ops
    (∀ i ∈ l.issues, ∀ j ∈ l.issues,
      i.text = j.text ↔ i.place = j.place ∧ i.target = j.target) ∧
    (∀ i ∈ l.issues, (∃ r, l.registries[i.place]? = some r ∧ r.generation = i.generation) ∧
      ∀ (place : Nat) (r : HandleRegistry), l.registries[place]? = some r →
        (∀ decl, r.declaration? i.text = some decl ↔
          place = i.place ∧ r.retired = false ∧ i.target = .declaration decl) ∧
        ∀ type, r.type? i.text = some type ↔
          place = i.place ∧ r.retired = false ∧ i.target = .type type) ∧
    (∀ (place : Nat) (r : HandleRegistry), l.registries[place]? = some r →
      (place + 1 < l.registries.length → r.retired = true) ∧
        ∀ target, (r.register target).1 = none ↔ r.retired = true) ∧
    ((∀ place, .retire place ∉ ops) → ∀ r ∈ l.registries.getLast?, r.retired = false) ∧
    ∀ before i later, l.issues = before ++ i :: later →
      (∀ j ∈ before, ¬ (j.place = i.place ∧ j.target = i.target)) →
      Handle.parse? i.text =
        if i.generation ≤ Handle.limit ∧ i.counter ≤ Handle.limit then
          some ⟨i.generation, i.target.kind, i.counter⟩
        else none := by
  intro l
  have hl : l.Valid := (valid_start generation).after ops
  refine ⟨hl.separate.text, fun i hi => ⟨hl.origin i hi, fun place r hr => ⟨fun decl => ?_, ?_⟩⟩,
    fun place r hr => ⟨hl.superseded place r hr, register_eq_none_iff r⟩, fun hops => ?_, ?_⟩
  · rw [HandleRegistry.declaration?_eq_some_iff, hl.target?_eq_some_iff hi hr]
  · intro type
    rw [HandleRegistry.type?_eq_some_iff, hl.target?_eq_some_iff hi hr]
  · exact live_after hops (by simp [start])
  · intro before i later he hnone
    rw [hl.separate.first before i later he hnone, Handle.parse?_text]

example :
    ((start 1).after [.register 0 (.declaration ⟨0, 7⟩), .register 0 (.type .int),
        .register 0 (.declaration ⟨0, 7⟩), .succeed 2, .register 0 (.type .int),
        .register 1 (.declaration ⟨0, 7⟩)]).issues.map (·.text) =
      ["g1:d1", "g1:t2", "g1:d1", "g2:d3"] := by
  decide +kernel

end Lineage
end LiveCheck
