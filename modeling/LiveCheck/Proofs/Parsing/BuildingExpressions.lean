import LiveCheck.Proofs.Parsing.Building

/-!
# How expressions are built

Every rule for expressions reads one node, or several, in the places that they are for, on the
assumption that the parsers for what is nested do. How often a rule is repeated does not matter
here: a rule that stops too early leaves tokens to others.
-/

namespace LiveCheck.Source

open LiveCheck.Parser

variable {T : Source} {α β : Type} {s : ParseState} {g : Gap} {m : Option Nat} {a : Nat}
  {used : List (ChildSlot × NodeId)} {slot : ChildSlot} {x : Parser NodeId} {n : Nested}
  {r : β → Stage} {p : Stage}

/-- The parser reads a node for a place of the given kind. -/
def Reads (T : Source) (slot : ChildSlot) (x : Parser NodeId) : Prop :=
  ∀ s, T.Builds s ⟨.ready, none, []⟩ x fun i => ⟨.closed, some s.token.span.start, [(slot, i)]⟩

/-- The parser may read a node for a place of the given kind. -/
def ReadsMaybe (T : Source) (slot : ChildSlot) (x : Parser (Option NodeId)) : Prop :=
  ∀ s m used, T.Builds s ⟨.ready, m, used⟩ x fun i => ⟨.closed, m, used ++ slot.all i.toList⟩

/-- The parser reads nodes for places of the given kind. -/
def ReadsMany (T : Source) (slot : ChildSlot) (x : Parser (List NodeId)) : Prop :=
  ∀ s m used, T.Builds s ⟨.ready, m, used⟩ x fun is => ⟨.closed, m, used ++ slot.all is⟩

/-- The parsers for what is nested in an expression read expressions. -/
structure ReadsNested (T : Source) (n : Nested) : Prop where
  expression : T.Reads .expression n.expression
  bitOr : T.Reads .expression n.bitOr

theorem Reads.beside (h : T.Reads slot x) :
    T.Builds s ⟨.ready, m, used⟩ x fun i => ⟨.closed, m, used ++ [(slot, i)]⟩ :=
  Builds.beside (h s)

theorem Reads.maybe (h : T.Reads slot x) : T.ReadsMaybe slot (some <$> x) :=
  fun _ _ _ => h.beside.map fun _ => rfl

/-! ## Names -/

private theorem At.named {ps : List NodeId} (h : T.At s ps ⟨.ready, none, []⟩)
    (hk : s.token.kind = .name)
    (hslot : slot = .name ∨ slot = .expression) :
    T.At (name.run s).2 ps ⟨.closed, some s.token.span.start, [(slot, (name.run s).1)]⟩ := by
  have hline : s.token.kind.endsLine = false := by rw [hk]; rfl
  obtain ⟨sound, suits, bound, tidy, gap, marked⟩ := h.opened hline
  let t : ParseState :=
    { s.taken with arena := { s.arena with names := (s.arena.names.insert s.token.text).2 } }
  have ht : T.At t ps ⟨.ready, some s.token.span.start, []⟩ := by
    refine ⟨{ sound with }, suits, bound,
      fun hclean => ?_, gap, fun hclean b hb => ?_⟩
    · obtain ⟨apart, placed, passed, block, encloses⟩ := tidy hclean
      exact ⟨apart, placed, passed, block, fun i d hi =>
        ⟨(encloses i d hi).size, (encloses i d hi).inside, (encloses i d hi).apart⟩⟩
    · obtain ⟨taken, before, behind⟩ := marked hclean b hb
      exact ⟨taken, before, behind⟩
  have hsuits : (NodeData.name (s.arena.names.insert s.token.text).1).suits slot = true := by
    rcases hslot with rfl | rfl <;> rfl
  have hadded := ht.add slot rfl hsuits
  have hspan : (⟨s.token.span.start, max t.lastStop s.token.span.start⟩ : Span) = s.token.span :=
    congrArg (Span.mk s.token.span.start) (Nat.max_eq_left h.sound.token_le.1)
  rw [hspan] at hadded
  rw [run_name hk]
  exact hadded

private theorem Builds.takeName {k : NodeId → Parser β} (hk : s.token.kind = .name)
    (hslot : slot = .name ∨ slot = .expression)
    (h : ∀ i s', s.Next s' →
      T.Builds s' ⟨.closed, some s.token.span.start, [(slot, i)]⟩ (k i) r) :
    T.Builds s ⟨.ready, none, []⟩ (name >>= k) r := by
  intro ps hp
  have hat := hp.named hk hslot
  have hrun := run_name hk
  have hon : s.Onward (name.run s).2 := by
    rw [hrun]
    obtain ⟨_, size, data, span⟩ := onward_add
      { s.taken with arena := { s.arena with names := (s.arena.names.insert s.token.text).2 } }
      (.name (s.arena.names.insert s.token.text).1) s.token.span
    exact ⟨Nat.le_refl _, size, data, span⟩
  have hnext : s.Next (name.run s).2 := by
    rw [hrun]
    exact .of_eq rfl rfl
  obtain ⟨hat', hon'⟩ := h _ _ hnext ps hat
  rw [run_bind (x := name) rfl]
  exact ⟨hat', hon.trans hon'⟩

theorem reads_name (hslot : slot = .name ∨ slot = .expression) : T.Reads slot name := by
  intro s
  by_cases hk : s.token.kind = .name
  · rw [← bind_pure name]
    exact .takeName hk hslot fun _ _ _ => .pure rfl
  · -- A malformed node stands in for the name.
    intro ps hp
    have hbound := hp.sound.boundary.1
    obtain ⟨findings, heq, hle, hsize⟩ := s.exists_reported Code.expectedName s.token.span none
    have hmax : (⟨s.lastStop, s.lastStop⟩ : Span) = ⟨s.lastStop, max s.lastStop s.lastStop⟩ := by
      rw [Nat.max_self]
    have hrun : name.run s = (finish .malformed s.lastStop).run { s with findings := findings } := by
      rw [run_name_of_ne hk, heq, run_finish, ← hmax]
    obtain ⟨hat, hon⟩ := builds_malformed slot (s := { s with findings := findings }) hsize
      hp.sound.stop .closed ps (hp.findings hle)
    rw [hrun]
    refine ⟨hat.of_findings ?_ (fun _ => id) fun b hb => ?_, (onward_findings s hle).trans hon⟩
    · exact Nat.ne_of_gt (Nat.lt_of_lt_of_le (Nat.pos_of_ne_zero hsize) hon.findings)
    · exact Option.mem_some.mp hb ▸ hbound

/-! ## Lists -/

section

variable {stop cond : Parser Bool} {f : TokenKind → Bool} {mark : TokenKind}
  {k : Option NodeId → Parser β}

private theorem builds_afterCommas (hstop : Lockstep.Peeks stop f) (h : T.Reads slot x) :
    T.Builds s ⟨.closed, m, used⟩ (afterCommas stop x) fun is => ⟨.closed, m, used ++ slot.all is⟩ := by
  have hloop (fuel : Nat) (s : ParseState) (used : List (ChildSlot × NodeId)) :
      T.Builds s ⟨.closed, m, used⟩ (afterCommasUpTo stop x fuel) fun is =>
        ⟨.closed, m, used ++ slot.all is⟩ := by
    induction fuel generalizing s used with
    | zero => exact .pure (by simp)
    | succ fuel ih =>
      refine .eat rfl (fun s₁ => ?_) fun _ => .pure (by simp)
      refine .peek hstop (fun _ => .done (by simp)) fun _ => ?_
      exact .bind h.beside fun i s₂ => .bind (ih s₂ _) fun is _ => .pure (by simp)
  exact .remaining fun _ => hloop _ s used

theorem readsMany_list (hstop : Lockstep.Peeks stop f) {x : Parser (Option NodeId)}
    (h : T.ReadsMaybe slot x) : T.ReadsMany slot (list stop x) := by
  intro s m used
  have hloop (fuel : Nat) (s : ParseState) (used : List (ChildSlot × NodeId)) :
      T.Builds s ⟨.ready, m, used⟩ (listUpTo stop x fuel) fun is =>
        ⟨.closed, m, used ++ slot.all is⟩ := by
    induction fuel generalizing s used with
    | zero => exact .done (by simp)
    | succ fuel ih =>
      refine .peek hstop (fun _ => .done (by simp)) fun _ => .bind (h s m used) fun i s₁ => ?_
      cases i with
      | none => exact .pure rfl
      | some i =>
        exact .eat rfl (fun s₂ => .bind (ih s₂ _) fun is _ => .pure (by simp)) fun _ => .pure rfl
  exact .remaining fun _ => hloop _ s used

theorem builds_afterEachUpTo (hline : mark.endsLine = false) (h : T.Reads slot x) (fuel : Nat) :
    T.Builds s ⟨g, m, used⟩ (afterEachUpTo mark x fuel) fun is =>
      ⟨.closed, m, used ++ slot.all is⟩ := by
  induction fuel generalizing s g used with
  | zero => exact .done (by simp)
  | succ fuel ih =>
    refine .eat hline (fun s₁ => ?_) fun _ => .done (by simp)
    exact .bind h.beside fun i s₂ => .bind ih fun is _ => .pure (by simp)

theorem builds_afterEach (hline : mark.endsLine = false) (h : T.Reads slot x) :
    T.Builds s ⟨g, m, used⟩ (afterEach mark x) fun is => ⟨.closed, m, used ++ slot.all is⟩ :=
  .remaining fun _ => builds_afterEachUpTo hline h _

/-- An optional item whose condition takes no token. -/
theorem readsMaybe_optional (hcond : Lockstep.Peeks cond f) (h : T.Reads slot x) :
    T.ReadsMaybe slot (optional cond x) := fun _ _ _ =>
  .peek hcond (fun _ => .bind h.beside fun _ _ => .pure rfl) fun _ => .done (by simp)

private theorem Builds.optionalThere (hcond : Lockstep.Peeks cond f) (hf : f s.token.kind = true)
    (h : T.Builds s p (x >>= fun i => k (some i)) r) : T.Builds s p (optional cond x >>= k) r := by
  intro ps hp
  have hrun : (optional cond x).run s = (some (x.run s).1, (x.run s).2) := by
    refine (run_bind (hcond s)).trans ?_
    rw [hf, if_pos rfl, run_bind (x := x) rfl]
    rfl
  have hdone := h ps hp
  rw [run_bind (x := x) rfl] at hdone
  rwa [run_bind hrun]

/-- An optional item behind a mark. -/
theorem builds_optional_eat (hline : mark.endsLine = false) (h : T.Reads slot x) :
    T.Builds s ⟨g, m, used⟩ (optional (eat mark) x) fun i =>
      ⟨.closed, m, used ++ slot.all i.toList⟩ :=
  .eat hline (fun _ => .bind h.beside fun _ _ => .pure rfl) fun _ => .done (by simp)

/-- An optional item behind a mark, where the place admits one. -/
theorem Builds.optionalIf {b : Bool} (hline : mark.endsLine = false) (h : T.Reads slot x)
    (hk : ∀ i s', T.Builds s' ⟨.closed, m, used ++ slot.all i.toList⟩ (k i) r) :
    T.Builds s ⟨g, m, used⟩
      (if b then optional (Parser.eat mark) x >>= k else Pure.pure none >>= k) r := by
  cases b with
  | false => exact .bind (.done (by simp)) hk
  | true => exact .bind (builds_optional_eat hline h) hk

private theorem reads_tupleOf (hstop : Lockstep.Peeks stop f) (h : T.Reads .expression x) :
    T.Reads .expression (tupleOf stop x) := by
  intro s
  refine .start (.bind (h s) fun i s₁ => .isAt (fun _ => ?_) fun _ => .pure rfl)
  refine .bind (builds_afterCommas hstop h) fun is s₂ => ?_
  exact builds_finish .expression (.tuple (i :: is)) rfl rfl

end

private theorem reads_starOr (h : T.ReadsNested n) (hitem : T.Reads .expression x) :
    T.Reads .expression (starOr n x) := by
  intro s
  refine .isAt (fun hk => .start (.open (by rw [hk]; rfl) fun s₁ => ?_)) fun _ => hitem s
  exact .bind h.bitOr.beside fun i s₂ => builds_finish .expression (.starred i) rfl rfl

private theorem reads_starOrExpression (h : T.ReadsNested n) :
    T.Reads .expression (starOrExpression n) :=
  reads_starOr h h.expression

theorem reads_starExpressions (h : T.ReadsNested n) : T.Reads .expression (starExpressions n) :=
  reads_tupleOf Lockstep.peeks_notAtExpression (reads_starOrExpression h)

theorem reads_targetList (h : T.ReadsNested n) : T.Reads .expression (targetList n) :=
  reads_tupleOf Lockstep.peeks_notAtExpression (reads_starOr h h.bitOr)

/-! ## Arguments and parameters -/

private theorem Builds.argumentForm {k : ArgumentForm × Option NodeId → Parser β}
    (hplain : T.Builds s ⟨.ready, none, []⟩ (k (.positional, none)) r)
    (htaken : ∀ form key s',
      T.Builds s' ⟨.ready, some s.token.span.start, ChildSlot.name.all key.toList⟩ (k (form, key)) r) :
    T.Builds s ⟨.ready, none, []⟩ (argumentForm >>= k) r := by
  rw [LiveCheck.Parser.argumentForm, bind_assoc]
  refine .kind ?_
  split
  case h_1 hk | h_2 hk =>
    simp only [bind_assoc, pure_bind]
    exact .open (by rw [hk]; rfl) fun s₁ => htaken _ none s₁
  case h_3 hk =>
    simp only [bind_assoc]
    refine .following ?_
    split
    · rename_i hnext
      simp only [bind_assoc, pure_bind]
      refine .takeName hk (.inl rfl) fun key s₁ hs₁ => .take ?_ fun s₂ => htaken .keyword (some key) s₂
      have heq := beq_iff_eq.mp hnext
      rw [hs₁ (by rw [heq]; nofun), heq]
      rfl
    · rw [pure_bind]
      exact hplain
  case h_4 =>
    rw [pure_bind]
    exact hplain

private theorem readsMaybe_argument (h : T.ReadsNested n) :
    T.ReadsMaybe .argument (argument n) := by
  intro s m used
  refine Builds.beside (.start ?_)
  refine .argumentForm ?_ fun form key s₁ => ?_
  · refine .peek Lockstep.peeks_atExpression (fun _ => ?_) fun _ => ?_
    · refine .bind (h.expression s) fun i s₂ => ?_
      exact .bind (builds_finish .argument (.argument .positional none i) rfl rfl) fun _ _ => .pure rfl
    · refine .of_at fun ps hp => .reportHere fun s₂ hsize _ => ?_
      exact .of_findings ⟨.closed, some s.token.span.start, []⟩ hsize (.pure rfl) nofun
        fun b hb => .inr (Option.mem_some.mp hb ▸ hp.sound.boundary.1)
  · refine .peek Lockstep.peeks_atExpression (fun _ => ?_) fun _ => ?_
    · refine .bind h.expression.beside fun i s₂ => ?_
      exact .bind (builds_finish .argument (.argument form key i) rfl rfl) fun _ _ => .pure rfl
    · refine .reportHere fun s₂ hsize _ => ?_
      exact .of_findings ⟨.closed, some s.token.span.start, []⟩ hsize (.pure rfl) nofun
        fun _ => .inl

theorem readsMany_arguments (h : T.ReadsNested n) : T.ReadsMany .argument (arguments n) :=
  readsMany_list (Lockstep.peeks_isAt_or _ _) (readsMaybe_argument h)

private theorem Builds.parameterForm {k : Option ParameterForm → Parser β}
    (hnone : ∀ s', s'.findings.size ≠ 0 → T.Builds s' ⟨.ready, none, []⟩ (k none) r)
    (htaken : ∀ form s', T.Builds s' ⟨.ready, some s.token.span.start, []⟩ (k (some form)) r)
    (hnormal : T.Builds s ⟨.ready, none, []⟩ (k (some .normal)) r) :
    T.Builds s ⟨.ready, none, []⟩ (parameterForm >>= k) r := by
  rw [LiveCheck.Parser.parameterForm, bind_assoc]
  refine .kind ?_
  split
  case h_1 hk =>
    simp only [bind_assoc, pure_bind]
    exact .open (by rw [hk]; rfl) fun s₁ => .look rfl (htaken _ s₁)
  case h_2 hk | h_3 hk =>
    simp only [bind_assoc, pure_bind]
    exact .open (by rw [hk]; rfl) fun s₁ => htaken _ s₁
  case h_4 => exact hnormal
  case h_5 =>
    simp only [bind_assoc, pure_bind]
    exact .reportHere fun s₁ hsize _ => hnone s₁ hsize

private theorem readsMaybe_parameter (h : T.ReadsNested n) (annotated : Bool) :
    T.ReadsMaybe .parameter (parameter n annotated) := by
  intro s m used
  refine Builds.beside (.start ?_)
  -- What follows the name is the same for all forms.
  have hrest (form : ParameterForm) (declared : Option NodeId) (g : Gap) (s' : ParseState) :
      T.Builds s' ⟨g, some s.token.span.start, ChildSlot.name.all declared.toList⟩
      (do
        let hint ←
          if annotated && declared.isSome then optional (eat Symbol.colon) n.expression
          else pure none
        let default ←
          if form == .normal then optional (eat Symbol.equals) n.expression else pure none
        return some (← finish (.parameter form declared hint default) s.token.span.start))
      fun i => ⟨.closed, some s.token.span.start, ChildSlot.parameter.all i.toList⟩ := by
    refine .optionalIf rfl h.expression fun hint s₁ => ?_
    refine .optionalIf rfl h.expression fun default s₂ => ?_
    exact .bind (builds_finish .parameter (.parameter form declared hint default) rfl
      (by simp [NodeData.slots])) fun _ _ => .pure rfl
  have hname : T.Reads .name name := reads_name (.inl rfl)
  refine .of_at fun ps hp => .parameterForm (fun s₁ hsize => ?_) (fun form s₁ => ?_) ?_
  · exact .of_findings ⟨.closed, some s.token.span.start, []⟩ hsize (.pure rfl) (List.forall_mem_nil _)
      fun b hb => .inr (Option.mem_some.mp hb ▸ hp.sound.boundary.1)
  · cases form with
    | keywordMarker | positionalMarker => exact hrest _ none .ready s₁
    | normal | varArgs | kwArgs =>
      exact .bind (hname.maybe s₁ _ []) fun declared s₂ => hrest _ declared .closed s₂
  · exact .bind ((hname s).map fun i => rfl) fun declared s₂ => hrest .normal declared .closed s₂

theorem readsMany_parameters (h : T.ReadsNested n) (close : TokenKind) (annotated : Bool) :
    T.ReadsMany .parameter (parameters n close annotated) :=
  readsMany_list (Lockstep.peeks_isAt_or_atLineEnd close) (readsMaybe_parameter h annotated)

/-! ## Atoms -/

private theorem builds_constant (hline : s.token.kind.endsLine = false) (kind : ConstantKind) :
    T.Builds s ⟨.ready, none, []⟩ (constant kind) fun i =>
      ⟨.closed, some s.token.span.start, [(.expression, i)]⟩ :=
  .start (.open hline fun _ => builds_finish .expression (.constant kind none) rfl rfl)

private theorem builds_stringValuesUpTo (fuel : Nat) :
    T.Builds s ⟨g, m, used⟩ (stringValuesUpTo fuel) fun _ => ⟨.closed, m, used⟩ := by
  induction fuel generalizing s g with
  | zero => exact .done rfl
  | succ fuel ih =>
    refine .kind ?_
    split
    case h_1 hk | h_2 hk =>
      exact .take (by rw [hk]; rfl) fun s₁ => .bind ih fun _ _ => .pure rfl
    case h_3 => exact .done rfl

private theorem builds_stringValues (hk : s.token.kind = .string ∨ s.token.kind = .bytes)
    (fuel : Nat) :
    T.Builds s ⟨.ready, none, []⟩ (stringValuesUpTo (fuel + 1)) fun _ =>
      ⟨.closed, some s.token.span.start, []⟩ := by
  refine .kind ?_
  split
  case h_1 hk | h_2 hk =>
    exact .open (by rw [hk]; rfl) fun s₁ =>
      .bind (builds_stringValuesUpTo fuel) fun _ _ => .pure rfl
  case h_3 hstring hbytes => exact absurd hk (not_or.mpr ⟨hstring, hbytes⟩)

private theorem builds_strings (hk : s.token.kind = .string ∨ s.token.kind = .bytes) :
    T.Builds s ⟨.ready, none, []⟩ strings fun i =>
      ⟨.closed, some s.token.span.start, [(.expression, i)]⟩ := by
  refine .start (.look rfl (.remaining fun fuel => .bind (builds_stringValues hk fuel) fun value s₁ => ?_))
  exact builds_finish .expression (.constant _ (some value)) rfl rfl

private theorem builds_parenthesized (h : T.ReadsNested n) (hline : s.token.kind.endsLine = false) :
    T.Builds s ⟨.ready, none, []⟩ (parenthesized n) fun i =>
      ⟨.closed, some s.token.span.start, [(.expression, i)]⟩ := by
  refine .start (.open hline fun s₁ => ?_)
  refine .eat rfl (fun s₂ => builds_finish .expression (.tuple []) rfl rfl) fun _ => ?_
  refine .bind (reads_starOrExpression h).beside fun i s₂ => ?_
  refine .eat rfl (fun s₃ => .done rfl) fun _ => ?_
  refine .isAt (fun _ => ?_) fun _ => .expect rfl fun _ _ _ => .done rfl
  refine .bind (builds_afterCommas (Lockstep.peeks_isAt _) (reads_starOrExpression h))
    fun is s₃ => .expect rfl fun _ s₄ _ => ?_
  exact builds_finish .expression (.tuple (i :: is)) rfl rfl

private theorem builds_listDisplay (h : T.ReadsNested n) (hline : s.token.kind.endsLine = false) :
    T.Builds s ⟨.ready, none, []⟩ (listDisplay n) fun i =>
      ⟨.closed, some s.token.span.start, [(.expression, i)]⟩ := by
  refine .start (.open hline fun s₁ => ?_)
  refine .bind (readsMany_list Lockstep.peeks_notAtExpression (reads_starOrExpression h).maybe _ _ _)
    fun is s₂ => .expect rfl fun _ s₃ _ => ?_
  exact builds_finish .expression (.list is) rfl rfl

private theorem builds_dictEntry (used : List (ChildSlot × NodeId)) (h : T.ReadsNested n)
    (key : Option NodeId) :
    T.Builds s ⟨g, m, used ++ ChildSlot.expression.all key.toList⟩ (dictEntry n key) fun e =>
      ⟨.closed, m, used ++ ChildSlot.expression.all (e.1.toList ++ [e.2])⟩ := by
  cases key with
  | none =>
    exact .expect rfl fun _ _ _ => .bind h.bitOr.beside fun _ _ => .pure (by simp)
  | some key =>
    exact .expect rfl fun _ _ _ => .bind h.expression.beside fun _ _ => .pure (by simp)

private theorem builds_dictEntriesUpTo (h : T.ReadsNested n) (fuel : Nat) :
    T.Builds s ⟨.closed, m, used⟩ (dictEntriesUpTo n fuel) fun es =>
      ⟨.closed, m, used ++ ChildSlot.expression.all (es.flatMap fun e => e.1.toList ++ [e.2])⟩ := by
  induction fuel generalizing s used with
  | zero => exact .pure (by simp)
  | succ fuel ih =>
    refine .eat rfl (fun s₁ => .isAt (fun _ => ?_) fun _ => ?_) fun _ => .pure (by simp)
    · have hentry : T.Builds s₁ ⟨.ready, m, used⟩ (dictEntry n none) fun e =>
          ⟨.closed, m, used ++ ChildSlot.expression.all (e.1.toList ++ [e.2])⟩ := by
        simpa using builds_dictEntry used h none
      exact .bind hentry fun e s₂ => .bind ih fun es _ => .pure (by simp)
    · refine .peek Lockstep.peeks_atExpression (fun _ => ?_) fun _ => .done (by simp)
      refine .bind h.expression.beside fun key s₂ => ?_
      exact .bind (builds_dictEntry _ h (some key)) fun e s₃ => .bind ih fun es _ => .pure (by simp)

private theorem builds_dictDisplay (h : T.ReadsNested n) (key : Option NodeId) :
    T.Builds s ⟨g, some a, ChildSlot.expression.all key.toList⟩ (dictDisplay n a key) fun i =>
      ⟨.closed, some a, [(.expression, i)]⟩ := by
  refine .bind (builds_dictEntry [] h key) fun e s₁ => .remaining fun fuel => ?_
  refine .bind (builds_dictEntriesUpTo h (fuel + 1)) fun es s₂ => .expect rfl fun _ s₃ _ => ?_
  exact builds_finish .expression (.dict (e :: es)) rfl (by simp [NodeData.slots, NodeData.children])

private theorem builds_braced (h : T.ReadsNested n) (hline : s.token.kind.endsLine = false) :
    T.Builds s ⟨.ready, none, []⟩ (braced n) fun i =>
      ⟨.closed, some s.token.span.start, [(.expression, i)]⟩ := by
  refine .start (.open hline fun s₁ => ?_)
  refine .eat rfl (fun s₂ => builds_finish .expression (.dict []) rfl rfl) fun _ => ?_
  refine .isAt (fun _ => builds_dictDisplay h none) fun _ => ?_
  refine .bind (reads_starOrExpression h).beside fun i s₂ => ?_
  refine .isAt (fun _ => builds_dictDisplay h (some i)) fun _ => ?_
  refine .bind (builds_afterCommas Lockstep.peeks_notAtExpression (reads_starOrExpression h))
    fun is s₃ => .expect rfl fun _ s₄ _ => ?_
  exact builds_finish .expression (.set (i :: is)) rfl rfl

/-- What stands in for a node may stand anywhere. -/
theorem builds_missing (slot : ChildSlot) (g' : Gap) :
    T.Builds s ⟨g, m, used⟩ missing fun i => ⟨g', some s.token.span.start, [(slot, i)]⟩ := by
  refine .of_at fun ps hp => .current (.report fun s₁ hsize htoken => ?_)
  have ha := hp.sound.boundary.1
  -- Whether the token closes a bracket does not matter.
  have hrest (closes : Bool) : T.Builds s₁ ⟨g, m, used⟩
      (do
        if !s.token.kind.endsLine && !closes then
          let _ ← bump
        finish .malformed s.token.span.start)
      fun i => ⟨g', some s.token.span.start, [(slot, i)]⟩ := by
    split
    · rename_i hcond
      have hline : s₁.token.kind.endsLine = false := by
        rw [htoken]
        exact (Bool.not_eq_true' _).mp (Bool.and_eq_true_iff.mp hcond).1
      exact .takeWith hline fun s₂ hfindings _ => builds_malformed slot (hfindings ▸ hsize) ha g'
    · exact builds_malformed slot hsize ha g'
  exact hrest _

section

variable (h : T.ReadsNested n)
include h

private theorem reads_atom : T.Reads .expression (atom n) := by
  intro s
  refine .kind ?_
  split
  case h_1 => exact reads_name (.inr rfl) s
  case h_2 hk | h_3 hk | h_4 hk | h_7 hk | h_8 hk | h_9 hk | h_10 hk =>
    exact builds_constant (by rw [hk]; rfl) _
  case h_5 hk => exact builds_strings (.inl hk)
  case h_6 hk => exact builds_strings (.inr hk)
  case h_11 hk => exact builds_parenthesized h (by rw [hk]; rfl)
  case h_12 hk => exact builds_listDisplay h (by rw [hk]; rfl)
  case h_13 hk => exact builds_braced h (by rw [hk]; rfl)
  case h_14 => exact builds_missing .expression .closed

/-! ## Calls, subscripts and attributes -/

private theorem readsMaybe_sliceBound : T.ReadsMaybe .expression (sliceBound n) :=
  readsMaybe_optional Lockstep.peeks_atExpression h.expression

private theorem reads_sliceItem : T.Reads .expression (sliceItem n) := by
  intro s
  refine .start ?_
  -- What follows the first colon.
  have hrest (lower : Option NodeId) (s' : ParseState) : T.Builds s'
      ⟨.ready, some s.token.span.start, ChildSlot.expression.all lower.toList⟩
      (do
        let upper ← sliceBound n
        let step ← if ← eat Symbol.colon then sliceBound n else pure none
        finish (.slice lower upper step) s.token.span.start)
      fun i => ⟨.closed, some s.token.span.start, [(.expression, i)]⟩ := by
    refine .bind (readsMaybe_sliceBound h _ _ _) fun upper s₁ => .eat rfl (fun s₂ => ?_) fun _ => ?_
    · refine .bind (readsMaybe_sliceBound h _ _ _) fun step s₃ => ?_
      exact builds_finish .expression (.slice lower upper step) rfl
        (by simp [NodeData.slots, NodeData.children])
    · exact builds_finish .expression (.slice lower upper none) rfl
        (by simp [NodeData.slots, NodeData.children])
  by_cases hk : s.token.kind = .symbol .colon
  · have hcolon : (optional (return !(← isAt Symbol.colon)) (starOrExpression n)).run s =
        (none, s) := by
      refine run_bind (t := s) (a := false) ?_
      exact congrArg (fun b => (!b, s)) (beq_iff_eq.mpr hk)
    refine .look hcolon (.eatThere hk rfl (.open (by rw [hk]; rfl) fun s₁ => ?_))
    exact hrest none s₁
  · refine .optionalThere (Lockstep.peeks_not_isAt _) ?_ ?_
    · exact (Bool.not_eq_true' _).mpr (beq_eq_false_iff_ne.mpr hk)
    · refine .bind (reads_starOrExpression h s) fun index s₁ => ?_
      exact .eat rfl (fun s₂ => hrest (some index) s₂) fun _ => .pure rfl

private theorem reads_subscriptIndex : T.Reads .expression (subscriptIndex n) :=
  reads_tupleOf (Lockstep.peeks_isAt _) (reads_sliceItem h)

private theorem builds_trailersUpTo (fuel : Nat) (expr : NodeId) :
    T.Builds s ⟨.closed, some a, [(.expression, expr)]⟩ (trailersUpTo n a fuel expr) fun i =>
      ⟨.closed, some a, [(.expression, i)]⟩ := by
  induction fuel generalizing s expr with
  | zero => exact .pure rfl
  | succ fuel ih =>
    refine .kind ?_
    split
    case h_1 hk =>
      refine .take (by rw [hk]; rfl) fun s₁ => .bind (readsMany_arguments h _ _ _) fun args s₂ => ?_
      refine .expect rfl fun _ s₃ _ => ?_
      exact .bind (builds_finish .expression (.call expr args) rfl rfl) fun i s₄ => ih i
    case h_2 hk =>
      refine .take (by rw [hk]; rfl) fun s₁ => .bind (reads_subscriptIndex h).beside fun index s₂ => ?_
      refine .expect rfl fun _ s₃ _ => ?_
      exact .bind (builds_finish .expression (.subscript expr index) rfl rfl) fun i s₄ => ih i
    case h_3 hk =>
      refine .take (by rw [hk]; rfl) fun s₁ => .bind (reads_name (.inl rfl)).beside fun attr s₂ => ?_
      exact .bind (builds_finish .expression (.member expr attr) rfl rfl) fun i s₃ => ih i
    case h_4 => exact .pure rfl

private theorem reads_primary : T.Reads .expression (primary n) := fun s =>
  .start (.bind (reads_atom h s) fun expr _ => .remaining fun _ => builds_trailersUpTo h _ expr)

/-! ## Operators -/

private theorem reads_factorUpTo (fuel : Nat) :
    T.Reads .expression (factorUpTo n fuel) := by
  induction fuel with
  | zero => exact reads_primary h
  | succ fuel ih =>
    intro s
    refine .start (.kind ?_)
    split
    case h_1 op hop =>
      have hline : s.token.kind.endsLine = false := by
        cases hkind : s.token.kind <;> rw [hkind] at hop <;> first | rfl | cases hop
      refine .open hline fun s₁ => .bind ih.beside fun operand s₂ => ?_
      exact builds_finish .expression (.unary op operand) rfl rfl
    case h_2 =>
      refine .bind (reads_primary h s) fun left s₁ => .eat rfl (fun s₂ => ?_) fun _ => .pure rfl
      refine .bind ih.beside fun right s₃ => ?_
      exact builds_finish .expression (.binary left .pow right) rfl rfl

private theorem reads_factor : T.Reads .expression (factor n) := fun s =>
  .remaining fun fuel => reads_factorUpTo h (fuel + 1) s

end

private theorem builds_operationsUpTo (level : Level) (h : T.Reads .expression x) (fuel : Nat)
    (left : NodeId) :
    T.Builds s ⟨.closed, some a, [(.expression, left)]⟩ (operationsUpTo level x a fuel left) fun i =>
      ⟨.closed, some a, [(.expression, i)]⟩ := by
  induction fuel generalizing s left with
  | zero => exact .pure rfl
  | succ fuel ih =>
    refine .kind ?_
    split
    case h_1 op hop =>
      have hline : s.token.kind.endsLine = false := by
        cases hkind : s.token.kind <;> rw [hkind] at hop <;> first | rfl | cases hop
      refine .take hline fun s₁ => .bind h.beside fun right s₂ => ?_
      exact .bind (builds_finish .expression (.binary left op right) rfl rfl) fun i s₃ => ih i
    case h_2 => exact .pure rfl

private theorem reads_operations (level : Level) (h : T.Reads .expression x) :
    T.Reads .expression (operations level x) := fun s =>
  .start (.bind (h s) fun left _ => .remaining fun _ => builds_operationsUpTo level h _ left)

theorem reads_bitOr (h : T.ReadsNested n) : T.Reads .expression (bitOr n) := by
  have hlevels (ls : List Level) : T.Reads .expression (ls.foldr operations (factor n)) := by
    induction ls with
    | nil => exact reads_factor h
    | cons level ls ih => exact reads_operations level ih
  exact hlevels levels

private theorem Builds.comparisonOp {k : Option (CompareOp × Nat) → Parser β}
    (hnone : T.Builds s p (k none) r)
    (hsome : ∀ op width, s.token.kind.isPlain = true → (width = 2 → s.nextKind.isPlain = true) →
      T.Builds s p (k (some (op, width))) r) :
    T.Builds s p (comparisonOp >>= k) r := by
  rw [LiveCheck.Parser.comparisonOp, bind_assoc]
  refine .kind ?_
  split
  case h_8 hk =>
    simp only [bind_assoc, pure_bind]
    refine .following ?_
    split
    · rename_i hnext
      exact hsome _ _ (by rw [hk]; rfl) fun _ => by rw [beq_iff_eq.mp hnext]; rfl
    · exact hnone
  case h_9 hk =>
    simp only [bind_assoc, pure_bind]
    refine .following ?_
    split
    · rename_i hnext
      exact hsome _ _ (by rw [hk]; rfl) fun _ => by rw [beq_iff_eq.mp hnext]; rfl
    · exact hsome _ _ (by rw [hk]; rfl) fun hw => by cases hw
  case h_10 => exact hnone
  all_goals
    rename_i hk
    exact hsome _ _ (by rw [hk]; rfl) fun hw => by cases hw

private theorem builds_comparisonsUpTo (h : T.ReadsNested n) (fuel : Nat) :
    T.Builds s ⟨.closed, m, used⟩ (comparisonsUpTo n fuel) fun es =>
      ⟨.closed, m, used ++ ChildSlot.expression.all (es.map Prod.snd)⟩ := by
  induction fuel generalizing s used with
  | zero => exact .pure (by simp)
  | succ fuel ih =>
    refine .comparisonOp (.pure (by simp)) fun op width hplain hplain' => ?_
    -- What follows the operator.
    have hrest (s' : ParseState) : T.Builds s' ⟨.ready, m, used⟩
        (do
          let right ← bitOr n
          let others ← comparisonsUpTo n fuel
          return (op, right) :: others)
        fun es => ⟨.closed, m, used ++ ChildSlot.expression.all (es.map Prod.snd)⟩ :=
      .bind (reads_bitOr h).beside fun right s₁ => .bind ih fun es s₂ => .pure (by simp)
    refine .takeWith (TokenKind.endsLine_of_isPlain hplain) fun s₁ _ hnext => ?_
    split
    · rename_i hwidth
      have hplain₁ := hplain' (beq_iff_eq.mp hwidth)
      have hk₁ : s₁.token.kind = s.nextKind := hnext fun heof => by rw [heof] at hplain₁; cases hplain₁
      exact .take (by rw [hk₁]; exact TokenKind.endsLine_of_isPlain hplain₁) hrest
    · exact hrest s₁

private theorem reads_comparison (h : T.ReadsNested n) : T.Reads .expression (comparison n) := by
  intro s
  refine .start (.bind (reads_bitOr h s) fun left s₁ => .remaining fun fuel => ?_)
  refine .bind (builds_comparisonsUpTo h (fuel + 1)) fun es s₂ => ?_
  cases es with
  | nil => exact .pure rfl
  | cons e es => exact builds_finish .expression (.compare left _ _) rfl rfl

private theorem reads_negationUpTo (h : T.ReadsNested n) (fuel : Nat) :
    T.Reads .expression (negationUpTo n fuel) := by
  induction fuel with
  | zero => exact reads_comparison h
  | succ fuel ih =>
    intro s
    refine .isAt (fun hk => .start (.open (by rw [hk]; rfl) fun s₁ => ?_)) fun _ => reads_comparison h s
    exact .bind ih.beside fun operand s₂ => builds_finish .expression (.unary .not operand) rfl rfl

private theorem reads_negation (h : T.ReadsNested n) : T.Reads .expression (negation n) := fun s =>
  .remaining fun fuel => reads_negationUpTo h (fuel + 1) s

private theorem reads_connective (word : Keyword) (op : BoolOp) (h : T.Reads .expression x) :
    T.Reads .expression (connective word op x) := by
  intro s
  refine .start (.bind (h s) fun first s₁ => .isAt (fun _ => ?_) fun _ => .pure rfl)
  refine .bind (builds_afterEach rfl h) fun others s₂ => ?_
  exact builds_finish .expression (.boolean op (first :: others)) rfl rfl

private theorem reads_orTest (h : T.ReadsNested n) : T.Reads .expression (orTest n) :=
  reads_connective _ _ (reads_connective _ _ (reads_negation h))

private theorem builds_lambdaExpression (h : T.ReadsNested n)
    (hline : s.token.kind.endsLine = false) :
    T.Builds s ⟨.ready, none, []⟩ (lambdaExpression n) fun i =>
      ⟨.closed, some s.token.span.start, [(.expression, i)]⟩ := by
  refine .start (.open hline fun s₁ => .bind (readsMany_parameters h _ _ _ _ _) fun params s₂ => ?_)
  refine .expect rfl fun _ s₃ _ => .bind h.expression.beside fun body s₄ => ?_
  exact builds_finish .expression (.lambda params body) rfl rfl

private theorem reads_conditional (h : T.ReadsNested n) : T.Reads .expression (conditional n) := by
  intro s
  refine .isAt (fun hk => builds_lambdaExpression h (by rw [hk]; rfl)) fun _ => ?_
  refine .start (.bind (reads_orTest h s) fun body s₁ => .eat rfl (fun s₂ => ?_) fun _ => .pure rfl)
  refine .bind (reads_orTest h).beside fun test s₃ => .expect rfl fun _ s₄ _ => ?_
  refine .bind h.expression.beside fun orelse s₅ => ?_
  exact builds_finish .expression (.conditional test body orelse) rfl rfl

/-! ## Nesting -/

private theorem reads_tooDeep : T.Reads .expression tooDeep := fun _ =>
  .of_at fun _ hp => .start (.reportHere fun _ hsize _ => .bindOnward (builds_skipLine hsize .closed)
    fun _ _ hon => builds_malformed .expression
      (Nat.ne_of_gt (Nat.lt_of_lt_of_le (Nat.pos_of_ne_zero hsize) hon.findings))
      hp.sound.boundary.1 .closed)

private theorem readsNested_at (fuel depth : Nat) :
    T.ReadsNested ⟨expressionAt fuel depth, bitOrAt fuel depth⟩ := by
  induction fuel generalizing depth with
  | zero => exact ⟨fun _ => builds_missing .expression .closed, fun _ => builds_missing .expression .closed⟩
  | succ fuel ih =>
    refine ⟨?_, reads_bitOr (ih depth)⟩
    by_cases hdepth : Limits.parseDepth ≤ depth
    · have hdeep : expressionAt (fuel + 1) depth = tooDeep := by
        funext s
        rw [expressionAt, if_pos hdepth]
      show T.Reads .expression (expressionAt (fuel + 1) depth)
      rw [hdeep]
      exact reads_tooDeep
    · have hnested : expressionAt (fuel + 1) depth =
          conditional ⟨expressionAt fuel (depth + 1), bitOrAt fuel (depth + 1)⟩ := by
        funext s
        rw [expressionAt, if_neg hdepth]
      show T.Reads .expression (expressionAt (fuel + 1) depth)
      rw [hnested]
      exact reads_conditional (ih (depth + 1))

/-- A rule for expressions in a statement. -/
theorem Builds.inStatement {rule : Nested → Parser α} {q : α → Stage}
    (h : ∀ n, T.ReadsNested n → T.Builds s p (rule n) q) :
    T.Builds s p (inStatement rule) q :=
  .remaining fun _ => h _ (readsNested_at _ 0)

theorem reads_inStatement {rule : Nested → Parser NodeId}
    (h : ∀ n, T.ReadsNested n → T.Reads slot (rule n)) : T.Reads slot (inStatement rule) :=
  fun s => .inStatement fun n hn => h n hn s

theorem reads_expression : T.Reads .expression expression := reads_inStatement fun _ h => h.expression

end LiveCheck.Source
