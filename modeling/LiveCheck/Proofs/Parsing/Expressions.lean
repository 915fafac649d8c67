import LiveCheck.Proofs.Parsing.Lockstep

/-!
# Expressions in lockstep

Every rule for expressions keeps two runs abreast, on the assumption that the parsers for what is
nested do so behind the next token. The knot is then tied by induction on the fuel, which outlasts
the tokens.
-/

namespace LiveCheck.Parser

open Lockstep (Same From Nests Peeks)

variable {L : Lockstep} {c m m' a : Nat} {n n' : Nested} {x y : Parser NodeId} {s t : ParseState}
  {used : List NodeId} {α : Type} {V : α → α → List NodeId → Prop} {stop : Parser Bool}
  {p : TokenKind → Bool} {mark : TokenKind}

/-! ## Lists -/

/-- Fuel for the tokens from the cursor on does not run out. -/
theorem abreast_of_fuel {d : Nat} {x y : Parser α} (m : Nat) (hm : L.tokens.size ≤ m + s.cursor)
    (h : ∀ m', m = m' + 1 → L.Abreast d s t used x y V) : L.Abreast d s t used x y V :=
  .of_rel fun _ hrel => by
    have hlt := L.cursor_lt hrel
    cases m with
    | zero => omega
    | succ m' => exact h m' rfl

private theorem abreast_afterCommas (hstop : Peeks stop p) (h : L.From c x y) (hc : c ≤ s.cursor) :
    L.Abreast 0 s t [] (afterCommas stop x) (afterCommas stop y) L.Nodes := by
  refine .remaining fun m m' hm hm' => ?_
  induction m generalizing s t m' with
  | zero => exact abreast_of_fuel 0 hm nofun
  | succ m ih =>
    refine abreast_of_fuel m' hm' fun k hk => ?_
    subst hk
    refine .eat rfl (fun s' t' _ hbefore _ => ?_) fun _ => .pure ⟨rfl, rfl⟩
    refine .peek hstop (fun _ => .pure ⟨rfl, rfl⟩) fun _ => ?_
    have hcursor := hbefore.cursor
    refine .bindNode (h s' t' (by omega)) fun i s'' t'' ⟨hcursor', _, _⟩ => ?_
    exact .bindNodes (ih (by omega) _ (by omega) (by omega)) fun is _ _ _ => .pure ⟨rfl, rfl⟩

theorem abreast_list (hstop : Peeks stop p) {x y : Parser (Option NodeId)}
    (h : ∀ s t, c ≤ s.cursor → p s.token.kind = false → L.Abreast 0 s t [] x y L.Maybe)
    (hc : c ≤ s.cursor) : L.Abreast 0 s t [] (list stop x) (list stop y) L.Nodes := by
  refine .remaining fun m m' hm hm' => ?_
  induction m generalizing s t m' with
  | zero => exact abreast_of_fuel 0 hm nofun
  | succ m ih =>
    refine abreast_of_fuel m' hm' fun k hk => ?_
    subst hk
    refine .peek hstop (fun _ => .pure ⟨rfl, rfl⟩) fun hp => ?_
    refine .bindMaybe (h s t hc hp) fun i s' t' hbefore => ?_
    cases i with
    | none => exact .pure ⟨rfl, rfl⟩
    | some i =>
      have hcursor := hbefore.cursor
      refine .eat rfl (fun s'' t'' _ ⟨hcursor', _, _⟩ _ => ?_) fun _ => .pure ⟨rfl, rfl⟩
      exact .bindNodes (ih (by omega) _ (by omega) (by omega)) fun is _ _ _ => .pure ⟨rfl, rfl⟩

private theorem abreast_afterEachUpTo (hplain : mark.isPlain = true)
    (h : ∀ s t, c < s.cursor → s.lastStop ≠ 0 → L.Abreast 0 s t [] x y L.Node) (hc : c ≤ s.cursor)
    (hm : L.tokens.size ≤ m + s.cursor) (hm' : L.tokens.size ≤ m' + s.cursor) :
    L.Abreast 0 s t [] (afterEachUpTo mark x m) (afterEachUpTo mark y m') L.Nodes := by
  induction m generalizing s t m' with
  | zero => exact abreast_of_fuel 0 hm nofun
  | succ m ih =>
    refine abreast_of_fuel m' hm' fun k hk => ?_
    subst hk
    refine .eat hplain (fun s' t' _ ⟨hcursor, _, _⟩ hstop => ?_) fun _ => .pure ⟨rfl, rfl⟩
    refine .bindNode (h s' t' (by omega) hstop) fun i s'' t'' ⟨hcursor', _, _⟩ => ?_
    exact .bindNodes (ih (by omega) (by omega) (by omega)) fun is _ _ _ => .pure ⟨rfl, rfl⟩

/-- The items begin behind a mark, so that a name may be missing there. -/
theorem abreast_afterEach (hplain : mark.isPlain = true)
    (h : ∀ s t, c < s.cursor → s.lastStop ≠ 0 → L.Abreast 0 s t [] x y L.Node) (hc : c ≤ s.cursor) :
    L.Abreast 0 s t [] (afterEach mark x) (afterEach mark y) L.Nodes :=
  .remaining fun _ _ => abreast_afterEachUpTo hplain h hc

/-- Where there is a mark, it is taken. -/
theorem abreast_afterEach_there (hplain : mark.isPlain = true) (hk : s.token.kind = mark)
    (h : ∀ s t, c < s.cursor → s.lastStop ≠ 0 → L.Abreast 0 s t [] x y L.Node) (hc : c ≤ s.cursor) :
    L.Abreast 1 s t [] (afterEach mark x) (afterEach mark y) L.Nodes := by
  refine .remaining fun m m' hm hm' => ?_
  refine abreast_of_fuel m hm fun k hk' => abreast_of_fuel m' hm' fun k' hk'' => ?_
  subst hk' hk''
  refine .eatThere hk hplain fun s' t' ⟨hcursor, _, _⟩ hstop => ?_
  refine .bindNode (h s' t' (by omega) hstop) fun i s'' t'' ⟨hcursor', _, _⟩ => ?_
  exact .bindNodes (abreast_afterEachUpTo hplain h (by omega) (by omega) (by omega))
    fun is _ _ _ => .pure ⟨rfl, rfl⟩

/-- An optional item whose condition takes no token. -/
theorem abreast_optional {cond : Parser Bool} (hcond : Peeks cond p)
    (h : p s.token.kind = true → L.Abreast 0 s t [] x y L.Node) :
    L.Abreast 0 s t [] (optional cond x) (optional cond y) L.Maybe :=
  .peek hcond (fun hp => .bindNode (h hp) fun _ _ _ _ => .pure ⟨rfl, rfl⟩) fun _ => .pure ⟨rfl, rfl⟩

/-- An optional item behind a mark. -/
theorem abreast_optional_eat (hplain : mark.isPlain = true)
    (h : ∀ s' t', s.Before 1 s' → s'.lastStop ≠ 0 → L.Abreast 0 s' t' [] x y L.Node) :
    L.Abreast 0 s t [] (optional (eat mark) x) (optional (eat mark) y) L.Maybe :=
  .eat hplain (fun s' t' _ hbefore hstop =>
    .bindNode (h s' t' hbefore hstop) fun _ _ _ _ => .pure ⟨rfl, rfl⟩) fun _ => .pure ⟨rfl, rfl⟩

private theorem from_tupleOf (hstop : Peeks stop p) (h : L.From c x y) :
    L.From c (tupleOf stop x) (tupleOf stop y) := by
  intro s t hc
  refine .start fun a ha => .bindNode (h s t hc) fun i s' t' hbefore => ?_
  refine .isAt (fun _ => ?_) fun _ => .pure ⟨rfl, rfl⟩
  have hcursor := hbefore.cursor
  refine .bindNodes (abreast_afterCommas hstop h (by omega)) fun is _ _ _ => ?_
  exact Lockstep.abreast_finish (.tuple (i :: is)) rfl ha rfl

private theorem from_starOr (h : L.Nests c n n') (hitem : L.From c x y) :
    L.From c (starOr n x) (starOr n' y) := by
  intro s t hc
  refine .isAt (fun hk => ?_) fun _ => hitem s t hc
  refine .start fun a ha => .take hk rfl fun s' t' ⟨hcursor, _, _⟩ _ _ => ?_
  refine .bindNode (h.bitOr s' t' (by omega)) fun i _ _ _ => ?_
  exact Lockstep.abreast_finish (.starred i) rfl ha rfl

private theorem from_starOrExpression (h : L.Nests c n n') :
    L.From c (starOrExpression n) (starOrExpression n') := from_starOr h h.expression

theorem from_starExpressions (h : L.Nests c n n') :
    L.From c (starExpressions n) (starExpressions n') :=
  from_tupleOf Lockstep.peeks_notAtExpression (from_starOrExpression h)

theorem from_targetList (h : L.Nests c n n') : L.From c (targetList n) (targetList n') :=
  from_tupleOf Lockstep.peeks_notAtExpression (from_starOr h h.bitOr)

/-! ## Arguments and parameters -/

private theorem abreast_argumentForm : L.Abreast 0 s t [] argumentForm argumentForm
    fun p q qs => q = (p.1, p.2.map L.node) ∧ qs = p.2.toList := by
  refine .kind ?_
  split
  case h_1 hk => exact .take hk rfl fun _ _ _ _ _ => .pure ⟨rfl, rfl⟩
  case h_2 hk => exact .take hk rfl fun _ _ _ _ _ => .pure ⟨rfl, rfl⟩
  case h_3 hk =>
    refine .following (by rw [hk]; rfl) ?_
    split
    · rename_i hnext
      refine .takeName hk fun key s' t' _ _ hs' => ?_
      have hk' : s'.token.kind = .symbol .equals := by
        have heq := beq_iff_eq.mp hnext
        rw [← heq]
        exact hs' (by rw [heq]; nofun)
      exact .take hk' rfl fun _ _ _ _ _ => .pure ⟨rfl, rfl⟩
    · exact .pure ⟨rfl, rfl⟩
  case h_4 => exact .pure ⟨rfl, rfl⟩

private theorem abreast_argument (h : L.Nests c n n') (hc : c ≤ s.cursor) :
    L.Abreast 0 s t [] (argument n) (argument n') L.Maybe := by
  refine .start fun a ha => .bind abreast_argumentForm fun (form, key) _ qs s' t' ⟨hq, hqs⟩ hb => ?_
  subst hq hqs
  have hcursor := hb.cursor
  refine .peek Lockstep.peeks_atExpression (fun _ => ?_) fun _ => ?_
  · refine .bindNode (h.expression s' t' (by omega)) fun i _ _ _ => ?_
    exact .thenNode (Lockstep.abreast_finish (.argument form key i) rfl ha rfl)
      fun _ _ _ _ => .pure ⟨rfl, rfl⟩
  · refine .reportHere (by decide) fun _ _ hsize _ _ _ _ => ?_
    exact .forget hsize (.pure ⟨rfl, rfl⟩)

theorem abreast_arguments (h : L.Nests c n n') (hc : c ≤ s.cursor) :
    L.Abreast 0 s t [] (arguments n) (arguments n') L.Nodes :=
  abreast_list (Lockstep.peeks_isAt_or _ _) (fun _ _ hs _ => abreast_argument h hs) hc

private theorem abreast_parameterForm {f g : Option ParameterForm → Parser α}
    (hnone : ∀ s' t', L.Abreast 0 s' t' [] (f none) (g none) V)
    (hunnamed : ∀ form, form = .keywordMarker ∨ form = .positionalMarker → ∀ s' t', s.Before 0 s' →
      L.Abreast 0 s' t' [] (f (some form)) (g (some form)) V)
    (hnamed : ∀ form, form ≠ .keywordMarker → form ≠ .positionalMarker → ∀ s' t', s.Before 0 s' →
      s'.token.kind = .name ∨ s'.lastStop ≠ 0 →
      L.Abreast 0 s' t' [] (f (some form)) (g (some form)) V) :
    L.Abreast 0 s t [] (parameterForm >>= f) (parameterForm >>= g) V := by
  rw [parameterForm, bind_assoc, bind_assoc]
  refine .kind ?_
  split
  case h_1 hk =>
    simp only [bind_assoc, pure_bind]
    refine .take hk rfl fun s' t' hb hstop _ => .isAt (fun _ => ?_) fun _ => ?_
    · exact hnamed .varArgs nofun nofun _ _ (hb.mono (Nat.zero_le 1)) (.inr hstop)
    · exact hunnamed .keywordMarker (.inl rfl) _ _ (hb.mono (Nat.zero_le 1))
  case h_2 hk =>
    simp only [bind_assoc, pure_bind]
    exact .take hk rfl fun s' t' hb hstop _ =>
      hnamed .kwArgs nofun nofun _ _ (hb.mono (Nat.zero_le 1)) (.inr hstop)
  case h_3 hk =>
    simp only [bind_assoc, pure_bind]
    exact .take hk rfl fun s' t' hb _ _ =>
      hunnamed .positionalMarker (.inr rfl) _ _ (hb.mono (Nat.zero_le 1))
  case h_4 hk => exact hnamed .normal nofun nofun s t (.refl s) (.inl hk)
  case h_5 =>
    simp only [bind_assoc, pure_bind]
    exact .reportHere (by decide) fun s' t' _ _ _ _ _ => hnone s' t'

/-- An optional item behind a mark, where the place admits one. -/
theorem abreast_optionalIf (hplain : mark.isPlain = true) {b : Bool}
    {f g : Option NodeId → Parser α} (h : L.From c x y) (hc : c ≤ s.cursor)
    (hf : ∀ i s' t', s.Before 0 s' →
      L.Abreast 0 s' t' (used ++ i.toList) (f i) (g (i.map L.node)) V) :
    L.Abreast 0 s t used
      (if b then optional (eat mark) x >>= f else pure none >>= f)
      (if b then optional (eat mark) y >>= g else pure none >>= g) V := by
  cases b with
  | false => exact .bindMaybe (.pure ⟨rfl, rfl⟩) hf
  | true =>
    refine .bindMaybe (abreast_optional_eat hplain fun s' t' hb _ => h s' t' ?_) hf
    have hcursor := hb.cursor
    omega

private theorem abreast_parameter (h : L.Nests c n n') (annotated : Bool) (hc : c ≤ s.cursor) :
    L.Abreast 0 s t [] (parameter n annotated) (parameter n' annotated) L.Maybe := by
  refine .start fun a ha => ?_
  -- What follows the name is the same for all forms.
  have hrest (form : ParameterForm) (declared : Option NodeId) (s t : ParseState)
      (hc : c ≤ s.cursor) : L.Abreast 0 s t declared.toList
      (do
        let hint ←
          if annotated && declared.isSome then optional (eat Symbol.colon) n.expression
          else pure none
        let default ←
          if form == .normal then optional (eat Symbol.equals) n.expression else pure none
        return some (← finish (.parameter form declared hint default) a))
      (do
        let hint ←
          if annotated && (declared.map L.node).isSome then
            optional (eat Symbol.colon) n'.expression
          else pure none
        let default ←
          if form == .normal then optional (eat Symbol.equals) n'.expression else pure none
        return some (← finish (.parameter form (declared.map L.node) hint default) (a + L.shift)))
      L.Maybe := by
    rw [Option.isSome_map]
    refine abreast_optionalIf rfl h.expression hc fun hint s' t' hb => ?_
    have hcursor := hb.cursor
    refine abreast_optionalIf rfl h.expression (by omega) fun default s'' t'' _ => ?_
    exact .thenNode (Lockstep.abreast_finish (.parameter form declared hint default) rfl ha rfl)
      fun _ _ _ _ => .pure ⟨rfl, rfl⟩
  refine abreast_parameterForm (fun _ _ => .pure ⟨rfl, rfl⟩) ?_ ?_
  · intro form hform s' t' hb
    have hcursor := hb.cursor
    rcases hform with rfl | rfl
    · exact hrest .keywordMarker none s' t' (by omega)
    · exact hrest .positionalMarker none s' t' (by omega)
  · intro form hkeyword hpositional s' t' hb hname
    have hcursor := hb.cursor
    have hnamed : L.Abreast 0 s' t' [] (some <$> name) (some <$> name) L.Maybe :=
      .map (Lockstep.abreast_name hname) fun i j qs ⟨hj, hqs⟩ => ⟨congrArg some hj, hqs⟩
    cases form with
    | keywordMarker => exact absurd rfl hkeyword
    | positionalMarker => exact absurd rfl hpositional
    | normal | varArgs | kwArgs =>
      refine .bindMaybe hnamed fun declared s'' t'' ⟨hcursor', _, _⟩ => ?_
      exact hrest _ declared s'' t'' (by omega)

theorem abreast_parameters (h : L.Nests c n n') (close : TokenKind) (annotated : Bool)
    (hc : c ≤ s.cursor) :
    L.Abreast 0 s t [] (parameters n close annotated) (parameters n' close annotated) L.Nodes :=
  abreast_list (Lockstep.peeks_isAt_or_atLineEnd close)
    (fun _ _ hs _ => abreast_parameter h annotated hs) hc

/-! ## Atoms -/

private theorem abreast_starOrExpression (h : L.Nests c n n') (hc : c ≤ s.cursor) :
    L.Abreast 0 s t [] (some <$> starOrExpression n) (some <$> starOrExpression n') L.Maybe :=
  .map (from_starOrExpression h s t hc) fun _ _ _ ⟨hj, hqs⟩ => ⟨congrArg some hj, hqs⟩

private theorem abreast_parenthesized (h : L.Nests (c + 1) n n') (hc : c ≤ s.cursor)
    (hk : s.token.kind = .symbol .openParen) :
    L.Abreast 0 s t [] (parenthesized n) (parenthesized n') L.Node := by
  refine .start fun a ha => .take hk rfl fun s₁ t₁ ⟨hc₁, _, _⟩ _ _ => ?_
  refine .eat rfl (fun _ _ _ _ _ => Lockstep.abreast_finish (.tuple []) rfl ha rfl) fun _ => ?_
  refine .bindNode (from_starOrExpression h s₁ t₁ (by omega)) fun i s₂ t₂ ⟨hc₂, _, _⟩ => ?_
  refine .eat rfl (fun _ _ _ _ _ => .pure ⟨rfl, rfl⟩) fun _ => ?_
  refine .isAt (fun _ => ?_) fun _ => .expect rfl fun _ _ _ _ _ => .pure ⟨rfl, rfl⟩
  refine .bindNodes (abreast_afterCommas (Lockstep.peeks_isAt _) (from_starOrExpression h)
    (by omega)) fun is _ _ _ => ?_
  exact .expect rfl fun _ _ _ _ _ => Lockstep.abreast_finish (.tuple (i :: is)) rfl ha rfl

private theorem abreast_listDisplay (h : L.Nests (c + 1) n n') (hc : c ≤ s.cursor)
    (hk : s.token.kind = .symbol .openBracket) :
    L.Abreast 0 s t [] (listDisplay n) (listDisplay n') L.Node := by
  refine .start fun a ha => .take hk rfl fun s₁ t₁ ⟨hc₁, _, _⟩ _ _ => ?_
  refine .bindNodes (abreast_list Lockstep.peeks_notAtExpression
    (fun _ _ hs _ => abreast_starOrExpression h hs) (by omega)) fun is _ _ _ => ?_
  exact .expect rfl fun _ _ _ _ _ => Lockstep.abreast_finish (.list is) rfl ha rfl

private def renameEntry (f : NodeId → NodeId) (entry : Option NodeId × NodeId) :
    Option NodeId × NodeId :=
  (entry.1.map f, f entry.2)

private theorem abreast_dictEntry (h : L.Nests c n n') (key : Option NodeId) (hc : c ≤ s.cursor) :
    L.Abreast 0 s t key.toList (dictEntry n key) (dictEntry n' (key.map L.node))
      fun e e' qs => e' = renameEntry L.node e ∧ qs = e.1.toList ++ [e.2] := by
  cases key with
  | none =>
    refine .expect rfl fun _ s' t' ⟨hcursor, _, _⟩ _ => ?_
    exact .bindNode (h.bitOr s' t' (by omega)) fun _ _ _ _ => .pure ⟨rfl, rfl⟩
  | some key =>
    refine .expect rfl fun _ s' t' ⟨hcursor, _, _⟩ _ => ?_
    exact .bindNode (h.expression s' t' (by omega)) fun _ _ _ _ => .pure ⟨rfl, rfl⟩

private theorem abreast_dictEntriesUpTo (h : L.Nests c n n') (hc : c ≤ s.cursor)
    (hm : L.tokens.size ≤ m + s.cursor) (hm' : L.tokens.size ≤ m' + s.cursor) :
    L.Abreast 0 s t [] (dictEntriesUpTo n m) (dictEntriesUpTo n' m') fun es es' qs =>
      es' = es.map (renameEntry L.node) ∧ qs = es.flatMap fun e => e.1.toList ++ [e.2] := by
  induction m generalizing s t m' with
  | zero => exact abreast_of_fuel 0 hm nofun
  | succ m ih =>
    refine abreast_of_fuel m' hm' fun k hk => ?_
    subst hk
    refine .eat rfl (fun s₁ t₁ _ ⟨hc₁, _, _⟩ _ => ?_) fun _ => .pure ⟨rfl, rfl⟩
    refine .isAt (fun _ => ?_) fun _ => ?_
    · refine .then (abreast_dictEntry h none (by omega)) fun e e' qs s₂ t₂ ⟨he, hqs⟩ hb₂ => ?_
      subst he hqs
      have hc₂ := hb₂.cursor
      refine .bind (ih (by omega) (by omega) (by omega)) fun es es' rs _ _ ⟨hes, hrs⟩ _ => ?_
      subst hes hrs
      exact .pure ⟨rfl, rfl⟩
    · refine .peek Lockstep.peeks_atExpression (fun _ => ?_) fun _ => .pure ⟨rfl, rfl⟩
      refine .bindNode (h.expression s₁ t₁ (by omega)) fun key s₂ t₂ ⟨hc₂, _, _⟩ => ?_
      refine .then (abreast_dictEntry h (some key) (by omega)) fun e e' qs s₃ t₃ ⟨he, hqs⟩ hb₃ => ?_
      subst he hqs
      have hc₃ := hb₃.cursor
      refine .bind (ih (by omega) (by omega) (by omega)) fun es es' rs _ _ ⟨hes, hrs⟩ _ => ?_
      subst hes hrs
      exact .pure ⟨rfl, rfl⟩

private theorem abreast_dictDisplay (h : L.Nests c n n') (ha : L.Start a) (key : Option NodeId)
    (hc : c ≤ s.cursor) :
    L.Abreast 0 s t key.toList (dictDisplay n a key)
      (dictDisplay n' (a + L.shift) (key.map L.node)) L.Node := by
  refine .then (abreast_dictEntry h key hc) fun e e' qs s₁ t₁ ⟨he, hqs⟩ hb₁ => ?_
  subst he hqs
  have hc₁ := hb₁.cursor
  refine .remaining fun m m' hm hm' => ?_
  refine .bind (abreast_dictEntriesUpTo h (by omega) hm hm') fun es es' rs _ _ ⟨hes, hrs⟩ _ => ?_
  subst hes hrs
  exact .expect rfl fun _ _ _ _ _ => Lockstep.abreast_finish (.dict (e :: es)) rfl ha rfl

private theorem abreast_braced (h : L.Nests (c + 1) n n') (hc : c ≤ s.cursor)
    (hk : s.token.kind = .symbol .openBrace) :
    L.Abreast 0 s t [] (braced n) (braced n') L.Node := by
  refine .start fun a ha => .take hk rfl fun s₁ t₁ ⟨hc₁, _, _⟩ _ _ => ?_
  refine .eat rfl (fun _ _ _ _ _ => Lockstep.abreast_finish (.dict []) rfl ha rfl) fun _ => ?_
  refine .isAt (fun _ => abreast_dictDisplay h ha none (by omega)) fun _ => ?_
  refine .bindNode (from_starOrExpression h s₁ t₁ (by omega)) fun i s₂ t₂ ⟨hc₂, _, _⟩ => ?_
  refine .isAt (fun _ => abreast_dictDisplay h ha (some i) (by omega)) fun _ => ?_
  refine .bindNodes (abreast_afterCommas Lockstep.peeks_notAtExpression (from_starOrExpression h)
    (by omega)) fun is _ _ _ => ?_
  exact .expect rfl fun _ _ _ _ _ => Lockstep.abreast_finish (.set (i :: is)) rfl ha rfl

private theorem abreast_missing : L.Abreast 0 s t [] missing missing L.Node := by
  refine .current fun hkind _ hstart ha => .report (by decide) fun s' t' hsize _ _ _ htoken => ?_
  -- Whether the token closes a bracket does not matter.
  have hrest (closes : Bool) : L.Abreast 0 s' t' []
      (do
        if !s.token.kind.endsLine && !closes then
          let _ ← bump
        finish .malformed s.token.span.start)
      (do
        if !s.token.kind.endsLine && !closes then
          let _ ← bump
        finish .malformed (s.token.span.start + L.shift)) L.Node := by
    split
    · rename_i hcond
      have hline : s'.token.kind.endsLine = false := by
        rw [htoken]
        exact (Bool.not_eq_true' _).mp (Bool.and_eq_true_iff.mp hcond).1
      refine Lockstep.Abreast.mono (.bump hline (.inr hsize) fun s'' t'' hb _ _ => ?_)
        (Nat.zero_le 1)
      have hfindings := hb.findings
      exact Lockstep.abreast_malformed ha (by omega)
    · exact Lockstep.abreast_malformed ha hsize
  rw [hkind, hstart]
  exact hrest _

private theorem from_atom (h : L.Nests (c + 1) n n') : L.From c (atom n) (atom n') := by
  intro s t hc
  refine .kind ?_
  split
  case h_1 hk => exact Lockstep.abreast_name (.inl hk)
  case h_2 hk | h_3 hk | h_4 hk | h_7 hk | h_8 hk | h_9 hk | h_10 hk =>
    exact Lockstep.abreast_constant (by rw [hk]; rfl) (by rw [hk]; nofun) _
  case h_5 hk => exact Lockstep.abreast_strings (.inl hk)
  case h_6 hk => exact Lockstep.abreast_strings (.inr hk)
  case h_11 hk => exact abreast_parenthesized h hc hk
  case h_12 hk => exact abreast_listDisplay h hc hk
  case h_13 hk => exact abreast_braced h hc hk
  case h_14 => exact abreast_missing

/-! ## Calls, subscripts and attributes -/

private theorem abreast_sliceBound (h : L.Nests c n n') (hc : c ≤ s.cursor) :
    L.Abreast 0 s t [] (sliceBound n) (sliceBound n') L.Maybe :=
  abreast_optional Lockstep.peeks_atExpression fun _ => h.expression s t hc

private theorem from_sliceItem (h : L.Nests c n n') : L.From c (sliceItem n) (sliceItem n') := by
  intro s t hc
  refine .start fun a ha => ?_
  refine .bindMaybe (abreast_optional (Lockstep.peeks_not_isAt _)
    fun _ => from_starOrExpression h s t hc) fun lower s₁ t₁ ⟨hc₁, _, _⟩ => ?_
  -- What follows the first colon.
  have hrest (s t : ParseState) (hc : c ≤ s.cursor) : L.Abreast 0 s t lower.toList
      (do
        let upper ← sliceBound n
        let step ← if ← eat Symbol.colon then sliceBound n else pure none
        finish (.slice lower upper step) a)
      (do
        let upper ← sliceBound n'
        let step ← if ← eat Symbol.colon then sliceBound n' else pure none
        finish (.slice (lower.map L.node) upper step) (a + L.shift)) L.Node := by
    refine .bindMaybe (abreast_sliceBound h hc) fun upper s₂ t₂ ⟨hc₂, _, _⟩ => ?_
    refine .eat rfl (fun s₃ t₃ _ hb₃ _ => ?_) fun _ => .bindMaybe (.pure ⟨rfl, rfl⟩) fun step _ _ _ => ?_
    · have hc₃ := hb₃.cursor
      refine .bindMaybe (abreast_sliceBound h (by omega)) fun step _ _ _ => ?_
      exact Lockstep.abreast_finish (.slice lower upper step) rfl ha rfl
    · exact Lockstep.abreast_finish (.slice lower upper step) rfl ha rfl
  refine .eat rfl (fun s₂ t₂ _ hb₂ _ => ?_) fun _ => ?_
  · have hc₂ := hb₂.cursor
    cases lower with
    | none => exact hrest s₂ t₂ (by omega)
    | some index => exact hrest s₂ t₂ (by omega)
  · cases lower with
    | none => exact hrest s₁ t₁ (by omega)
    | some index => exact .pure ⟨rfl, rfl⟩

private theorem from_subscriptIndex (h : L.Nests c n n') :
    L.From c (subscriptIndex n) (subscriptIndex n') :=
  from_tupleOf (Lockstep.peeks_isAt _) (from_sliceItem h)

private theorem abreast_trailersUpTo (h : L.Nests (c + 1) n n') (ha : L.Start a) (expr : NodeId)
    (hc : c ≤ s.cursor) (hm : L.tokens.size ≤ m + s.cursor) (hm' : L.tokens.size ≤ m' + s.cursor) :
    L.Abreast 0 s t [expr] (trailersUpTo n a m expr)
      (trailersUpTo n' (a + L.shift) m' (L.node expr)) L.Node := by
  induction m generalizing s t m' expr with
  | zero => exact abreast_of_fuel 0 hm nofun
  | succ m ih =>
    refine abreast_of_fuel m' hm' fun k hk => ?_
    subst hk
    refine .kind ?_
    split
    case h_1 hk =>
      refine .take hk rfl fun s₁ t₁ ⟨hc₁, _, _⟩ _ _ => ?_
      refine .bindNodes (abreast_arguments h (by omega)) fun args s₂ t₂ ⟨hc₂, _, _⟩ => ?_
      refine .expect rfl fun _ s₃ t₃ ⟨hc₃, _, _⟩ _ => ?_
      refine .thenNode (Lockstep.abreast_finish (.call expr args) rfl ha rfl)
        fun i s₄ t₄ ⟨hc₄, _, _⟩ => ?_
      exact ih i (by omega) (by omega) (by omega)
    case h_2 hk =>
      refine .take hk rfl fun s₁ t₁ ⟨hc₁, _, _⟩ _ _ => ?_
      refine .bindNode (from_subscriptIndex h s₁ t₁ (by omega)) fun index s₂ t₂ ⟨hc₂, _, _⟩ => ?_
      refine .expect rfl fun _ s₃ t₃ ⟨hc₃, _, _⟩ _ => ?_
      refine .thenNode (Lockstep.abreast_finish (.subscript expr index) rfl ha rfl)
        fun i s₄ t₄ ⟨hc₄, _, _⟩ => ?_
      exact ih i (by omega) (by omega) (by omega)
    case h_3 hk =>
      refine .take hk rfl fun s₁ t₁ ⟨hc₁, _, _⟩ hstop _ => ?_
      refine .bindNode (Lockstep.abreast_name (.inr hstop)) fun attr s₂ t₂ ⟨hc₂, _, _⟩ => ?_
      refine .thenNode (Lockstep.abreast_finish (.member expr attr) rfl ha rfl)
        fun i s₃ t₃ ⟨hc₃, _, _⟩ => ?_
      exact ih i (by omega) (by omega) (by omega)
    case h_4 => exact .pure ⟨rfl, rfl⟩

private theorem from_primary (h : L.Nests (c + 1) n n') : L.From c (primary n) (primary n') := by
  intro s t hc
  refine .start fun a ha => .bindNode (from_atom h s t hc) fun expr s₁ t₁ ⟨hc₁, _, _⟩ => ?_
  exact .remaining fun m m' hm hm' => abreast_trailersUpTo h ha expr (by omega) hm hm'

/-! ## Operators -/

private theorem abreast_factorUpTo (h : L.Nests (c + 1) n n') (hc : c ≤ s.cursor)
    (hm : L.tokens.size ≤ m + s.cursor) (hm' : L.tokens.size ≤ m' + s.cursor) :
    L.Abreast 0 s t [] (factorUpTo n m) (factorUpTo n' m') L.Node := by
  induction m generalizing s t m' with
  | zero => exact abreast_of_fuel 0 hm nofun
  | succ m ih =>
    refine abreast_of_fuel m' hm' fun k hk => ?_
    subst hk
    refine .start fun a ha => .kind ?_
    split
    case h_1 op hop =>
      have hplain : s.token.kind.isPlain = true := by
        cases hkind : s.token.kind <;> rw [hkind] at hop <;> first | rfl | cases hop
      refine .take rfl hplain fun s₁ t₁ ⟨hc₁, _, _⟩ _ _ => ?_
      refine .bindNode (ih (by omega) (by omega) (by omega)) fun operand _ _ _ => ?_
      exact Lockstep.abreast_finish (.unary op operand) rfl ha rfl
    case h_2 =>
      refine .bindNode (from_primary h s t hc) fun left s₁ t₁ ⟨hc₁, _, _⟩ => ?_
      refine .eat rfl (fun s₂ t₂ _ ⟨hc₂, _, _⟩ _ => ?_) fun _ => .pure ⟨rfl, rfl⟩
      refine .bindNode (ih (by omega) (by omega) (by omega)) fun right _ _ _ => ?_
      exact Lockstep.abreast_finish (.binary left .pow right) rfl ha rfl

private theorem from_factor (h : L.Nests (c + 1) n n') : L.From c (factor n) (factor n') :=
  fun _ _ hc => .remaining fun _ _ hm hm' => abreast_factorUpTo h hc hm hm'

private theorem abreast_operationsUpTo (level : Level) (h : L.From c x y) (ha : L.Start a)
    (left : NodeId)
    (hc : c ≤ s.cursor) (hm : L.tokens.size ≤ m + s.cursor) (hm' : L.tokens.size ≤ m' + s.cursor) :
    L.Abreast 0 s t [left] (operationsUpTo level x a m left)
      (operationsUpTo level y (a + L.shift) m' (L.node left)) L.Node := by
  induction m generalizing s t m' left with
  | zero => exact abreast_of_fuel 0 hm nofun
  | succ m ih =>
    refine abreast_of_fuel m' hm' fun k hk => ?_
    subst hk
    refine .kind ?_
    split
    case h_1 op hop =>
      have hplain : s.token.kind.isPlain = true := by
        cases hkind : s.token.kind <;> rw [hkind] at hop <;> first | rfl | cases hop
      refine .take rfl hplain fun s₁ t₁ ⟨hc₁, _, _⟩ _ _ => ?_
      refine .bindNode (h s₁ t₁ (by omega)) fun right s₂ t₂ ⟨hc₂, _, _⟩ => ?_
      refine .thenNode (Lockstep.abreast_finish (.binary left op right) rfl ha rfl)
        fun i s₃ t₃ ⟨hc₃, _, _⟩ => ?_
      exact ih i (by omega) (by omega) (by omega)
    case h_2 => exact .pure ⟨rfl, rfl⟩

private theorem from_operations (level : Level) (h : L.From c x y) :
    L.From c (operations level x) (operations level y) := by
  intro s t hc
  refine .start fun a ha => .bindNode (h s t hc) fun left s₁ t₁ ⟨hc₁, _, _⟩ => ?_
  exact .remaining fun m m' hm hm' => abreast_operationsUpTo level h ha left (by omega) hm hm'

theorem from_bitOr (h : L.Nests (c + 1) n n') : L.From c (bitOr n) (bitOr n') := by
  have hlevels (ls : List Level) :
      L.From c (ls.foldr operations (factor n)) (ls.foldr operations (factor n')) := by
    induction ls with
    | nil => exact from_factor h
    | cons level ls ih => exact from_operations level ih
  exact hlevels levels

private theorem abreast_comparisonOp {f g : Option (CompareOp × Nat) → Parser α}
    (hnone : L.Abreast 0 s t [] (f none) (g none) V)
    (hsome : ∀ op width, s.token.kind.isPlain = true →
      (width = 2 → s.nextKind.isPlain = true) →
      L.Abreast 0 s t [] (f (some (op, width))) (g (some (op, width))) V) :
    L.Abreast 0 s t [] (comparisonOp >>= f) (comparisonOp >>= g) V := by
  rw [comparisonOp, bind_assoc, bind_assoc]
  refine .kind ?_
  split
  case h_8 hk =>
    simp only [bind_assoc, pure_bind]
    refine .following (by rw [hk]; rfl) ?_
    split
    · rename_i hnext
      exact hsome _ _ (by rw [hk]; rfl) fun _ => by rw [beq_iff_eq.mp hnext]; rfl
    · exact hnone
  case h_9 hk =>
    simp only [bind_assoc, pure_bind]
    refine .following (by rw [hk]; rfl) ?_
    split
    · rename_i hnext
      exact hsome _ _ (by rw [hk]; rfl) fun _ => by rw [beq_iff_eq.mp hnext]; rfl
    · exact hsome _ _ (by rw [hk]; rfl) nofun
  case h_10 => exact hnone
  all_goals
    rename_i hk
    exact hsome _ _ (by rw [hk]; rfl) nofun

private theorem abreast_comparisonsUpTo (h : L.Nests (c + 1) n n') (hc : c ≤ s.cursor)
    (hm : L.tokens.size ≤ m + s.cursor) (hm' : L.tokens.size ≤ m' + s.cursor) :
    L.Abreast 0 s t [] (comparisonsUpTo n m) (comparisonsUpTo n' m') fun es es' qs =>
      es' = es.map (fun e => (e.1, L.node e.2)) ∧ qs = es.map Prod.snd := by
  induction m generalizing s t m' with
  | zero => exact abreast_of_fuel 0 hm nofun
  | succ m ih =>
    refine abreast_of_fuel m' hm' fun k hk => ?_
    subst hk
    refine abreast_comparisonOp (.pure ⟨rfl, rfl⟩) fun op width hplain hplain' => ?_
    -- What follows the operator.
    have hrest (s t : ParseState) (hc : c ≤ s.cursor) (hm : L.tokens.size ≤ m + s.cursor)
        (hm' : L.tokens.size ≤ k + s.cursor) : L.Abreast 0 s t []
        (do
          let right ← bitOr n
          let others ← comparisonsUpTo n m
          return (op, right) :: others)
        (do
          let right ← bitOr n'
          let others ← comparisonsUpTo n' k
          return (op, right) :: others)
        fun es es' qs => es' = es.map (fun e => (e.1, L.node e.2)) ∧ qs = es.map Prod.snd := by
      refine .bindNode (from_bitOr h s t hc) fun right s₁ t₁ ⟨hc₁, _, _⟩ => ?_
      refine .bind (ih (by omega) (by omega) (by omega)) fun es es' rs _ _ ⟨hes, hrs⟩ _ => ?_
      subst hes hrs
      exact .pure ⟨rfl, rfl⟩
    refine .take rfl hplain fun s₁ t₁ ⟨hc₁, _, _⟩ _ hnext => ?_
    split
    · rename_i hwidth
      have hplain₁ := hplain' (beq_iff_eq.mp hwidth)
      have hk₁ : s₁.token.kind = s.nextKind := hnext fun heof => by rw [heof] at hplain₁; cases hplain₁
      refine .take hk₁ hplain₁ fun s₂ t₂ ⟨hc₂, _, _⟩ _ _ => ?_
      exact hrest s₂ t₂ (by omega) (by omega) (by omega)
    · exact hrest s₁ t₁ (by omega) (by omega) (by omega)

private theorem from_comparison (h : L.Nests (c + 1) n n') :
    L.From c (comparison n) (comparison n') := by
  intro s t hc
  refine .start fun a ha => .bindNode (from_bitOr h s t hc) fun left s₁ t₁ ⟨hc₁, _, _⟩ => ?_
  refine .remaining fun m m' hm hm' => ?_
  refine .bind (abreast_comparisonsUpTo h (by omega) hm hm') fun es es' rs _ _ ⟨hes, hrs⟩ _ => ?_
  subst hes hrs
  cases es with
  | nil => exact .pure ⟨rfl, rfl⟩
  | cons e es =>
    have hdata : NodeData.compare (L.node left)
          (((e :: es).map fun e => (e.1, L.node e.2)).map Prod.fst)
          (((e :: es).map fun e => (e.1, L.node e.2)).map Prod.snd) =
        (NodeData.compare left ((e :: es).map Prod.fst) ((e :: es).map Prod.snd)).rename L.node := by
      simp [NodeData.rename]
    show L.Abreast 0 _ _ _ _ (finish (NodeData.compare (L.node left) _ _) _) _
    rw [hdata]
    exact Lockstep.abreast_finish _ rfl ha rfl

private theorem abreast_negationUpTo (h : L.Nests (c + 1) n n') (hc : c ≤ s.cursor)
    (hm : L.tokens.size ≤ m + s.cursor) (hm' : L.tokens.size ≤ m' + s.cursor) :
    L.Abreast 0 s t [] (negationUpTo n m) (negationUpTo n' m') L.Node := by
  induction m generalizing s t m' with
  | zero => exact abreast_of_fuel 0 hm nofun
  | succ m ih =>
    refine abreast_of_fuel m' hm' fun k hk => ?_
    subst hk
    refine .isAt (fun hk => .start fun a ha => ?_) fun _ => from_comparison h s t hc
    refine .take hk rfl fun s₁ t₁ ⟨hc₁, _, _⟩ _ _ => ?_
    refine .bindNode (ih (by omega) (by omega) (by omega)) fun operand _ _ _ => ?_
    exact Lockstep.abreast_finish (.unary .not operand) rfl ha rfl

private theorem from_negation (h : L.Nests (c + 1) n n') : L.From c (negation n) (negation n') :=
  fun _ _ hc => .remaining fun _ _ hm hm' => abreast_negationUpTo h hc hm hm'

private theorem from_connective (word : Keyword) (op : BoolOp) (h : L.From c x y) :
    L.From c (connective word op x) (connective word op y) := by
  intro s t hc
  refine .start fun a ha => .bindNode (h s t hc) fun first s₁ t₁ ⟨hc₁, _, _⟩ => ?_
  refine .isAt (fun _ => ?_) fun _ => .pure ⟨rfl, rfl⟩
  refine .bindNodes (abreast_afterEach rfl (fun s t hc _ => h s t (Nat.le_of_lt hc)) (by omega))
    fun others _ _ _ => ?_
  exact Lockstep.abreast_finish (.boolean op (first :: others)) rfl ha rfl

private theorem from_orTest (h : L.Nests (c + 1) n n') : L.From c (orTest n) (orTest n') :=
  from_connective _ _ (from_connective _ _ (from_negation h))

private theorem abreast_lambdaExpression (h : L.Nests (c + 1) n n') (hc : c ≤ s.cursor)
    (hk : s.token.kind = .keyword .lambdaKw) :
    L.Abreast 0 s t [] (lambdaExpression n) (lambdaExpression n') L.Node := by
  refine .start fun a ha => .take hk rfl fun s₁ t₁ ⟨hc₁, _, _⟩ _ _ => ?_
  refine .bindNodes (abreast_parameters h _ _ (by omega)) fun params s₂ t₂ ⟨hc₂, _, _⟩ => ?_
  refine .expect rfl fun _ s₃ t₃ ⟨hc₃, _, _⟩ _ => ?_
  refine .bindNode (h.expression s₃ t₃ (by omega)) fun body _ _ _ => ?_
  exact Lockstep.abreast_finish (.lambda params body) rfl ha rfl

private theorem from_conditional (h : L.Nests (c + 1) n n') :
    L.From c (conditional n) (conditional n') := by
  intro s t hc
  refine .isAt (fun hk => abreast_lambdaExpression h hc hk) fun _ => ?_
  refine .start fun a ha => .bindNode (from_orTest h s t hc) fun body s₁ t₁ ⟨hc₁, _, _⟩ => ?_
  refine .eat rfl (fun s₂ t₂ _ ⟨hc₂, _, _⟩ _ => ?_) fun _ => .pure ⟨rfl, rfl⟩
  refine .bindNode (from_orTest h s₂ t₂ (by omega)) fun test s₃ t₃ ⟨hc₃, _, _⟩ => ?_
  refine .expect rfl fun _ s₄ t₄ ⟨hc₄, _, _⟩ _ => ?_
  refine .bindNode (h.expression s₄ t₄ (by omega)) fun orelse _ _ _ => ?_
  exact Lockstep.abreast_finish (.conditional test body orelse) rfl ha rfl

/-! ## Nesting -/

private theorem abreast_skipLineUpTo (hsize : s.findings.size ≠ 0)
    (hm : L.tokens.size ≤ m + s.cursor)
    (hm' : L.tokens.size ≤ m' + s.cursor) :
    L.Abreast 0 s t [] (skipLineUpTo m) (skipLineUpTo m') Same := by
  induction m generalizing s t m' with
  | zero => exact abreast_of_fuel 0 hm nofun
  | succ m ih =>
    refine abreast_of_fuel m' hm' fun k hk => ?_
    subst hk
    refine .peek Lockstep.peeks_atLineEnd (fun _ => .pure ⟨rfl, rfl⟩) fun hline => ?_
    refine Lockstep.Abreast.mono (.bump hline (.inr hsize) fun s₁ t₁ hb₁ _ _ => ?_) (Nat.zero_le 1)
    have hc₁ := hb₁.cursor
    have hf₁ := hb₁.findings
    exact ih (by omega) (by omega) (by omega)

theorem abreast_skipLine (hsize : s.findings.size ≠ 0) :
    L.Abreast 0 s t [] skipLine skipLine Same :=
  .remaining fun _ _ => abreast_skipLineUpTo hsize

/-- What is left of a line has a token. -/
theorem abreast_skipLine_there (hline : s.token.kind.endsLine = false)
    (hsize : s.findings.size ≠ 0) : L.Abreast 1 s t [] skipLine skipLine Same := by
  refine .remaining fun m m' hm hm' => ?_
  refine abreast_of_fuel m hm fun k hk => abreast_of_fuel m' hm' fun k' hk' => ?_
  subst hk hk'
  refine .peek Lockstep.peeks_atLineEnd (fun hend => ?_) fun _ => ?_
  · rw [hline] at hend
    cases hend
  · refine .bump hline (.inr hsize) fun s₁ t₁ hb₁ _ _ => ?_
    have hc₁ := hb₁.cursor
    have hf₁ := hb₁.findings
    exact abreast_skipLineUpTo (by omega) (by omega) (by omega)

private theorem abreast_tooDeep : L.Abreast 0 s t [] tooDeep tooDeep L.Node := by
  refine .start fun a ha => .reportHere (by decide) fun s₁ t₁ hsize _ _ _ _ => ?_
  refine .bindSame (abreast_skipLine hsize) fun _ s₂ t₂ hb => ?_
  have hfindings := hb.findings
  exact Lockstep.abreast_malformed ha (by omega)

private theorem nests_at {f f' : Nat} (depth : Nat) (hf : L.tokens.size < f + c)
    (hf' : L.tokens.size < f' + c) :
    L.Nests c ⟨expressionAt f depth, bitOrAt f depth⟩
      ⟨expressionAt f' depth, bitOrAt f' depth⟩ := by
  induction f generalizing f' c depth with
  | zero =>
    exact ⟨fun s t hc => abreast_of_fuel 0 (by omega) nofun,
      fun s t hc => abreast_of_fuel 0 (by omega) nofun⟩
  | succ f ih =>
    cases f' with
    | zero =>
      exact ⟨fun s t hc => abreast_of_fuel 0 (by omega) nofun,
        fun s t hc => abreast_of_fuel 0 (by omega) nofun⟩
    | succ f' =>
      refine ⟨fun s t hc => ?_, from_bitOr (ih depth (by omega) (by omega))⟩
      by_cases hdepth : Limits.parseDepth ≤ depth
      · have hdeep (f : Nat) : expressionAt (f + 1) depth = tooDeep := by
          funext s
          rw [expressionAt, if_pos hdepth]
        rw [hdeep, hdeep]
        exact abreast_tooDeep
      · have hnested (f : Nat) : expressionAt (f + 1) depth =
            conditional ⟨expressionAt f (depth + 1), bitOrAt f (depth + 1)⟩ := by
          funext s
          rw [expressionAt, if_neg hdepth]
        rw [hnested, hnested]
        exact from_conditional (ih (depth + 1) (by omega) (by omega)) s t hc

/-- A rule for expressions in a statement. -/
theorem abreast_inStatement {rule : Nested → Parser α}
    (h : ∀ n n', L.Nests s.cursor n n' → L.Abreast 0 s t used (rule n) (rule n') V) :
    L.Abreast 0 s t used (inStatement rule) (inStatement rule) V :=
  .remaining fun _ _ hm hm' => h _ _ (nests_at 0 (by omega) (by omega))

theorem abreast_expression : L.Abreast 0 s t [] expression expression L.Node :=
  abreast_inStatement fun _ _ h => h.expression.here

end LiveCheck.Parser
