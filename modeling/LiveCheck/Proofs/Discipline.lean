/-!
# Computations that keep to a discipline

A table of types grows while a computation runs, and the computation passes the numbers of types
around. A discipline says which states are good, which transitions are allowed, and how many types a
state has; a computation is sound if it takes good states to good states by allowed transitions and
its result mentions only types that exist by then. Soundness is kept by all the ways in which
computations are put together.
-/

namespace LiveCheck

/-- What is demanded of the states of a computation and of the transitions between them. -/
structure Discipline (σ : Type) where
  /-- The good states. -/
  Ok : σ → Prop
  /-- The number of types that exist in a state. -/
  size : σ → Nat
  /-- The allowed transitions. -/
  Step : σ → σ → Prop
  refl (s : σ) : Step s s
  trans {s t u : σ} : Step s t → Step t u → Step s u

namespace Discipline

variable {σ α β γ : Type} {D : Discipline σ} {n k : Nat} {a : α} {m : StateM σ α}

/-- A computation in state `s` came to a good end. -/
structure Outcome (D : Discipline σ) (s : σ) (R : α → Nat → Prop) (r : α × σ) : Prop where
  ok : D.Ok r.2
  step : D.Step s r.2
  grows : D.size s ≤ D.size r.2
  result : R r.1 (D.size r.2)

/-- Two outcomes one after the other are one. -/
theorem Outcome.trans {s : σ} {t : σ} {R : α → Nat → Prop} {Q : β → Nat → Prop} {r : β × σ}
    (h : D.Outcome s R (a, t)) (h' : D.Outcome t Q r) : D.Outcome s Q r :=
  ⟨h'.ok, D.trans h.step h'.step, Nat.le_trans h.grows h'.grows, h'.result⟩

/-- Wherever `n` types exist, the computation keeps to the discipline and its result is in relation
`R` to the number of types that exist in the end. -/
def Sound (D : Discipline σ) (n : Nat) (m : StateM σ α) (R : α → Nat → Prop) : Prop :=
  ∀ s, D.Ok s → n ≤ D.size s → D.Outcome s R (m s)

/-- A relation that is not lost when more types are made. -/
def Lasting (R : α → Nat → Prop) : Prop := ∀ a n k, n ≤ k → R a n → R a k

/-- Nothing is said about a result. -/
def anything : α → Nat → Prop := fun _ _ => True

/-- A result that may be missing is in relation `R` if it is there. -/
def ifSome (R : α → Nat → Prop) : Option α → Nat → Prop := fun o k => ∀ a ∈ o, R a k

/-- All members of a list are in relation `R`. -/
def each (R : α → Nat → Prop) : List α → Nat → Prop := fun l k => ∀ a ∈ l, R a k

theorem lasting_anything : Lasting (anything : α → Nat → Prop) := fun _ _ _ _ _ => trivial

theorem Lasting.ifSome {R : α → Nat → Prop} (hR : Lasting R) : Lasting (ifSome R) :=
  fun _ n k h ho a ha => hR a n k h (ho a ha)

theorem Lasting.each {R : α → Nat → Prop} (hR : Lasting R) : Lasting (each R) :=
  fun _ n k h hl a ha => hR a n k h (hl a ha)

/-! ## Single computations in a row -/

/-- To do nothing is sound for every lasting result. -/
theorem Sound.pure {R : α → Nat → Prop} (h : ∀ k, n ≤ k → R a k) :
    D.Sound n (Pure.pure a) R :=
  fun s hs hn => ⟨hs, D.refl s, Nat.le_refl _, h _ hn⟩

theorem Sound.unit : D.Sound n (Pure.pure PUnit.unit : StateM σ PUnit) anything :=
  .pure fun _ _ => trivial

/-- One sound computation behind another one is sound. -/
theorem Sound.bind {f : α → StateM σ β} {R : α → Nat → Prop} {Q : β → Nat → Prop}
    (hm : D.Sound n m R) (hf : ∀ a k, n ≤ k → R a k → D.Sound k (f a) Q) :
    D.Sound n (m >>= f) Q := by
  intro s hs hn
  have h := hm s hs hn
  exact h.trans (hf (m s).1 _ (Nat.le_trans hn h.grows) h.result (m s).2 h.ok (Nat.le_refl _))

theorem Sound.imp {R Q : α → Nat → Prop} (hm : D.Sound n m R) (h : ∀ a k, n ≤ k → R a k → Q a k) :
    D.Sound n m Q := by
  intro s hs hn
  have hr := hm s hs hn
  exact ⟨hr.ok, hr.step, hr.grows, h _ _ (Nat.le_trans hn hr.grows) hr.result⟩

theorem Sound.forget {R : α → Nat → Prop} (hm : D.Sound n m R) :
    D.Sound n m anything := hm.imp fun _ _ _ _ => trivial

private theorem Sound.map {f : α → β} {R : α → Nat → Prop} {Q : β → Nat → Prop} (hm : D.Sound n m R)
    (h : ∀ a k, n ≤ k → R a k → Q (f a) k) : D.Sound n (f <$> m) Q := by
  intro s hs hn
  have hr := hm s hs hn
  exact ⟨hr.ok, hr.step, hr.grows, h _ _ (Nat.le_trans hn hr.grows) hr.result⟩

theorem Sound.discard {R : α → Nat → Prop} (hm : D.Sound n m R) :
    D.Sound n (discard m) anything := hm.map fun _ _ _ _ => trivial

/-- A choice between sound computations is sound. -/
theorem Sound.ite {c : Prop} [Decidable c] {m' : StateM σ α} {R : α → Nat → Prop}
    (ht : c → D.Sound n m R) (hf : ¬ c → D.Sound n m' R) :
    D.Sound n (if c then m else m') R := by
  split
  · next h => exact ht h
  · next h => exact hf h

/-! ## Loops -/

variable {R : β → Nat → Prop} {Q : γ → Nat → Prop} {l : List α} {f : α → StateM σ PUnit}

/-- To go through a list by sound computations is sound. -/
theorem Sound.mapM {f : α → StateM σ β} (hR : Lasting R)
    (hf : ∀ a ∈ l, ∀ k, n ≤ k → D.Sound k (f a) R) :
    D.Sound n (l.mapM f) (each R) := by
  induction l generalizing n with
  | nil => exact .pure fun k _ b hb => nomatch hb
  | cons a l ih =>
    rw [List.mapM_cons]
    refine (hf a (by simp) n (Nat.le_refl _)).bind fun b k hk hb => ?_
    have hl : ∀ x ∈ l, ∀ j, k ≤ j → D.Sound j (f x) R :=
      fun x hx j hj => hf x (by simp [hx]) j (Nat.le_trans hk hj)
    refine (ih hl).bind fun bs j hj hbs => .pure fun i hi c hc => ?_
    rcases List.mem_cons.mp hc with rfl | hc
    · exact hR c k i (Nat.le_trans hj hi) hb
    · exact hR c j i hi (hbs c hc)

theorem Sound.forM (hf : ∀ a ∈ l, ∀ k, n ≤ k → D.Sound k (f a) anything) :
    D.Sound n (l.forM f) anything := by
  induction l generalizing n with
  | nil => exact .unit
  | cons a l ih =>
    rw [List.forM_eq_forM, List.forM_cons]
    refine (hf a (by simp) n (Nat.le_refl _)).bind fun _ k hk _ => ?_
    exact ih fun x hx j hj => hf x (by simp [hx]) j (Nat.le_trans hk hj)

/-- A loop with a sound body is sound. -/
theorem Sound.forIn {f : α → PUnit → StateM σ (ForInStep PUnit)}
    (hf : ∀ a ∈ l, ∀ k, n ≤ k → D.Sound k (f a ⟨⟩) anything) :
    D.Sound n (forIn l PUnit.unit f) anything := by
  induction l generalizing n with
  | nil => exact .unit
  | cons a l ih =>
    rw [List.forIn_cons]
    refine (hf a (by simp) n (Nat.le_refl _)).bind fun r k hk _ => ?_
    cases r with
    | done _ => exact .unit
    | yield _ => exact ih fun x hx j hj => hf x (by simp [hx]) j (Nat.le_trans hk hj)

theorem Sound.optionForM {o : Option α} (hf : ∀ a ∈ o, D.Sound n (f a) anything) :
    D.Sound n (o.forM f) anything := by
  cases o with
  | none => exact .unit
  | some a => exact hf a rfl

theorem Sound.arrayForM {l : Array α} (hf : ∀ a ∈ l, ∀ k, n ≤ k → D.Sound k (f a) anything) :
    D.Sound n (l.forM f) anything := by
  have h : l.forM f = l.toList.forM f := by
    rcases l with ⟨l⟩
    simp
  rw [h]
  exact Sound.forM fun a ha => hf a (by simpa using ha)

/-! ## Computations that may fail -/

theorem Sound.mapSome {m : StateM σ β} (hm : D.Sound n m R) : D.Sound n (some <$> m) (ifSome R) :=
  hm.map fun _ _ _ hb _ h => Option.mem_some.mp h ▸ hb

theorem Sound.pureNone : D.Sound n (Pure.pure none : StateM σ (Option β)) (ifSome R) :=
  .pure fun _ _ _ h => nomatch h

theorem Sound.pureSome {b : β} (h : ∀ k, n ≤ k → R b k) :
    D.Sound n (Pure.pure (some b) : StateM σ (Option β)) (ifSome R) :=
  .pure fun k hk _ h' => Option.mem_some.mp h' ▸ h k hk

/-- A search by sound computations is sound. -/
theorem Sound.findSomeM? (hR : Lasting R) {f : α → StateM σ (Option β)}
    (hf : ∀ a ∈ l, ∀ k, n ≤ k → D.Sound k (f a) (ifSome R)) :
    D.Sound n (l.findSomeM? f) (ifSome R) := by
  induction l generalizing n with
  | nil => exact .pureNone
  | cons a l ih =>
    rw [List.findSomeM?]
    refine (hf a (by simp) n (Nat.le_refl _)).bind fun o k hk ho => ?_
    cases o with
    | some b => exact .pureSome fun j hj => hR b k j hj (ho b rfl)
    | none => exact ih fun x hx j hj => hf x (by simp [hx]) j (Nat.le_trans hk hj)

theorem Sound.optionLift {m : StateM σ β} (hm : D.Sound n m R) :
    D.Sound n (liftM m : OptionT (StateM σ) β).run (ifSome R) := hm.mapSome

theorem Sound.optionBind {m : OptionT (StateM σ) β} {f : β → OptionT (StateM σ) γ}
    (hm : D.Sound n m.run (ifSome R))
    (hf : ∀ b k, n ≤ k → R b k → D.Sound k (f b).run (ifSome Q)) :
    D.Sound n (m >>= f).run (ifSome Q) := by
  rw [OptionT.run_bind]
  refine hm.bind fun o k hk ho => ?_
  cases o with
  | none => exact .pureNone
  | some b => exact hf b k hk (ho b rfl)

theorem Sound.optionMapM {f : α → OptionT (StateM σ) β} (hR : Lasting R)
    (hf : ∀ a ∈ l, ∀ k, n ≤ k → D.Sound k (f a).run (ifSome R)) :
    D.Sound n (l.mapM f).run (ifSome (each R)) := by
  induction l generalizing n with
  | nil => exact .pureSome fun k _ b hb => nomatch hb
  | cons a l ih =>
    rw [List.mapM_cons]
    refine Sound.optionBind (hf a (by simp) n (Nat.le_refl _)) fun b k hk hb => ?_
    have hl : ∀ x ∈ l, ∀ j, k ≤ j → D.Sound j (f x).run (ifSome R) :=
      fun x hx j hj => hf x (by simp [hx]) j (Nat.le_trans hk hj)
    refine Sound.optionBind (ih hl) fun bs j hj hbs => .pureSome fun i hi c hc => ?_
    rcases List.mem_cons.mp hc with rfl | hc
    · exact hR c k i (Nat.le_trans hj hi) hb
    · exact hR c j i hi (hbs c hc)

end Discipline
end LiveCheck
