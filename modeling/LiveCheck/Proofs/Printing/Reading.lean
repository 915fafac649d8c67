import LiveCheck.Proofs.Parsing.Forest
import LiveCheck.Proofs.Parsing.Run
import LiveCheck.Proofs.Printing.Expr

/-!
# What a parser reads

A parser is seen through the pieces that lie ahead of it: it takes some of them, records no problem,
keeps all nodes and names that there are, and yields a result. What is said about the result holds
in every later arena, because nodes are never changed again, but for their parents.
-/

namespace LiveCheck

/-! ## Pieces ahead -/

/-- The pieces from the cursor on. -/
def ParseState.ahead (s : ParseState) : List Piece :=
  (s.tokens.toList.drop s.cursor).map Token.piece

/-- A later state: some pieces are ahead, there is no new problem, and the arena has grown. -/
structure ParseState.Reaches (s : ParseState) (ps : List Piece) (t : ParseState) : Prop where
  ahead : t.ahead = ps
  findings : t.findings = s.findings
  arena : s.arena.Extends t.arena

namespace ParseState

variable {s t r : ParseState} {ps qs : List Piece}

theorem remaining_eq (s : ParseState) : s.remaining = s.ahead.length := by
  simp [remaining, ahead]

theorem Reaches.refl (s : ParseState) : s.Reaches s.ahead s := ⟨rfl, rfl, .refl s.arena⟩

theorem Reaches.trans (h : s.Reaches ps t) (h' : t.Reaches qs r) : s.Reaches qs r :=
  ⟨h'.ahead, h'.findings.trans h.findings, h.arena.trans h'.arena⟩

private theorem getElem?_of_ahead {p : Piece} (h : s.ahead = p :: ps) :
    ∃ token, s.tokens[s.cursor]? = some token ∧ token.piece = p := by
  obtain ⟨token, rest, hdrop, hpiece, -⟩ := List.map_eq_cons_iff.mp h
  refine ⟨token, ?_, hpiece⟩
  rw [← Array.getElem?_toList, ← List.head?_drop, hdrop, List.head?_cons]

private theorem ahead_next {p : Piece} (h : s.ahead = p :: ps) :
    (s.tokens.toList.drop (s.cursor + 1)).map Token.piece = ps := by
  rw [← List.tail_drop, List.map_tail]
  exact congrArg List.tail h

end ParseState

namespace Parser

variable {α β : Type} {s t : ParseState} {p q : Piece} {ps qs : List Piece} {k : TokenKind}
  {Q : Arena → α → Prop} {R : Arena → β → Prop} {f : α → Parser β} {a : α}

/-! ## Yielding -/

/-- The parser yields a result and leaves some pieces; the result is as said in every later arena. -/
def Yields (x : Parser α) (s : ParseState) (ps : List Piece) (Q : Arena → α → Prop) : Prop :=
  ∃ a t, x.run s = (a, t) ∧ s.Reaches ps t ∧ ∀ b, t.arena.Extends b → Q b a

/-- One reading behind another one takes both rows. -/
theorem Yields.bind {x : Parser α} (hx : Yields x s ps Q)
    (hf : ∀ a t, s.Reaches ps t → (∀ b, t.arena.Extends b → Q b a) → Yields (f a) t qs R) :
    Yields (x >>= f) s qs R := by
  obtain ⟨a, t, hrun, ht, ha⟩ := hx
  obtain ⟨b, r, hrun', hr, hb⟩ := hf a t ht ha
  exact ⟨b, r, (run_bind hrun).trans hrun', ht.trans hr, hb⟩

/-- A parser that only looks at the state. -/
theorem Yields.look {x : Parser α} (hx : x.run s = (a, s)) (hf : Yields (f a) s qs R) :
    Yields (x >>= f) s qs R := by
  obtain ⟨b, r, hrun, hr⟩ := hf
  exact ⟨b, r, (run_bind hx).trans hrun, hr⟩

/-- A parser that takes nothing. -/
theorem Yields.stay {x : Parser α} (hx : x.run s = (a, s)) (h : s.ahead = ps)
    (ha : ∀ b, s.arena.Extends b → Q b a) : Yields x s ps Q := ⟨a, s, hx, h ▸ .refl s, ha⟩

/-- To read nothing yields a value. -/
theorem Yields.pure (h : s.ahead = ps) (ha : ∀ b, s.arena.Extends b → Q b a) :
    Yields (pure a) s ps Q := .stay rfl h ha

theorem Yields.of_look {x : Parser α} (hx : x.run s = (a, s)) (h : Yields (x >>= f) s qs R) :
    Yields (f a) s qs R := by
  obtain ⟨b, r, hrun, hr⟩ := h
  exact ⟨b, r, (run_bind hx).symm.trans hrun, hr⟩

/-- Less may be said of what is read. -/
theorem Yields.mono {Q' : Arena → α → Prop} {x : Parser α} (h : Yields x s ps Q)
    (hQ : ∀ b a, s.arena.Extends b → Q b a → Q' b a) : Yields x s ps Q' := by
  obtain ⟨a, t, hrun, ht, ha⟩ := h
  exact ⟨a, t, hrun, ht, fun b hb => hQ b a (ht.arena.trans hb) (ha b hb)⟩

/-- What is read may be changed. -/
theorem Yields.map {x : Parser α} {f : α → β} (h : Yields x s ps Q)
    (hf : ∀ b a, Q b a → R b (f a)) : Yields (f <$> x) s ps R := by
  rw [map_eq_pure_bind]
  exact h.bind fun a t ht ha => .pure ht.ahead fun b hb => hf b a (ha b hb)

/-- Going on behind a choice. -/
theorem Yields.choice {c : Parser Bool} {x y : Parser α}
    (h : Yields (do if ← c then x else y) s ps Q)
    (hf : ∀ a t, s.Reaches ps t → (∀ b, t.arena.Extends b → Q b a) → Yields (f a) t qs R) :
    Yields (do if ← c then x >>= f else y >>= f) s qs R := by
  have hchoice : (do if ← c then x >>= f else y >>= f) = (do if ← c then x else y) >>= f := by
    rw [bind_assoc]
    refine congrArg (c >>= ·) (funext fun b => ?_)
    cases b <;> rfl
  rw [hchoice]
  exact h.bind hf

/-! ## Looking ahead -/

section

variable (h : s.ahead = p :: ps)
include h

private theorem run_current :
    ∃ token, current.run s = (token, s) ∧ token.piece = p := by
  obtain ⟨token, ht, hp⟩ := ParseState.getElem?_of_ahead h
  refine ⟨token, ?_, hp⟩
  change ((s.tokens[s.cursor]?.or s.tokens.back?).getD _, s) = _
  rw [ht]
  rfl

/-- The kind of the next token is that of the next piece. -/
theorem run_kind : kind.run s = (p.kind, s) := by
  obtain ⟨token, hrun, rfl⟩ := run_current h
  exact run_bind hrun

theorem run_isAt : (isAt k).run s = (p.kind == k, s) :=
  run_bind (run_kind h)

/-- The next piece is of another kind. -/
theorem run_isAt_of_ne (hp : p.kind ≠ k) : (isAt k).run s = (false, s) := by
  rw [run_isAt h, beq_eq_false_iff_ne.mpr hp]

/-- The next piece is of this kind. -/
theorem run_isAt_of_eq (hp : p.kind = k) : (isAt k).run s = (true, s) := by
  rw [run_isAt h, beq_iff_eq.mpr hp]

theorem run_atLineEnd : atLineEnd.run s = (p.kind.endsLine, s) :=
  run_bind (run_kind h)

end

theorem run_following (h : s.ahead = p :: q :: ps) : following.run s = (q.kind, s) := by
  have hnext := ParseState.ahead_next h
  obtain ⟨token, rest, hdrop, hpiece, -⟩ := List.map_eq_cons_iff.mp hnext
  have ht : s.tokens[s.cursor + 1]? = some token := by
    rw [← Array.getElem?_toList, ← List.head?_drop, hdrop, List.head?_cons]
  change ((s.tokens[s.cursor + 1]?.map (·.kind)).getD _, s) = _
  rw [ht, ← hpiece]
  rfl

private theorem run_start (h : s.ahead = p :: ps) : ∃ n, start.run s = (n, s) := by
  obtain ⟨token, hrun, -⟩ := run_current h
  exact ⟨token.span.start, run_bind hrun⟩

/-- As many tokens are left as pieces are ahead. -/
theorem run_remaining (s : ParseState) : remaining.run s = (s.ahead.length, s) := by
  rw [← s.remaining_eq]
  rfl

theorem exists_fuel {fuel : Nat} (hs : s.ahead = p :: ps) (hfuel : s.ahead.length ≤ fuel) :
    ∃ n, fuel = ps.length + n + 1 := Nat.exists_eq_add_of_lt (by rwa [hs] at hfuel)

section

variable (h : s.ahead = p :: ps)
include h

/-- Where a reading begins does not matter to what it yields. -/
theorem Yields.start {f : Nat → Parser β} (hf : ∀ n, Yields (f n) s qs R) :
    Yields (start >>= f) s qs R := by
  obtain ⟨n, hn⟩ := run_start h
  exact .look hn (hf n)

/-! ## Taking pieces -/

private theorem yields_bump (hp : p.kind ≠ .endOfFile) :
    Yields bump s ps fun _ token => token.piece = p := by
  obtain ⟨token, hrun, hpiece⟩ := run_current h
  have hnext := ParseState.ahead_next h
  have hkind : token.kind ≠ .endOfFile := by
    rw [← hpiece] at hp
    exact hp
  refine .look hrun ?_
  have hstep (t : ParseState) (htokens : t.tokens = s.tokens) (hcursor : t.cursor = s.cursor + 1)
      (hfindings : t.findings = s.findings) (harena : t.arena = s.arena) : s.Reaches ps t :=
    ⟨by rw [ParseState.ahead, htokens, hcursor, hnext], hfindings, harena ▸ .refl _⟩
  cases hk : token.kind
  case endOfFile => exact absurd hk hkind
  all_goals exact ⟨token, _, rfl, hstep _ rfl rfl rfl rfl, fun _ _ => hpiece⟩

/-- A piece of another kind is left. -/
theorem run_eat_of_ne (hp : p.kind ≠ k) : (eat k).run s = (false, s) :=
  run_bind (run_isAt_of_ne h hp)

private theorem yields_eat (hp : p.kind = k) (hk : k ≠ .endOfFile) :
    Yields (eat k) s ps fun _ a => a = true := by
  refine .look (run_isAt_of_eq h hp) ((yields_bump h (hp ▸ hk)).bind fun _ t ht _ => ?_)
  exact .pure ht.ahead fun _ _ => rfl

private theorem yields_expect (hp : p.kind = k) (hk : k ≠ .endOfFile) :
    Yields (expect k) s ps fun _ a => a = true := by
  refine (yields_eat h hp hk).bind fun a t ht ha => ?_
  rw [ha t.arena (.refl _), if_pos rfl]
  exact .pure ht.ahead fun _ _ => rfl

/-- Going on behind a piece that is taken. -/
theorem Yields.take {f : Token → Parser β} (hp : p.kind ≠ .endOfFile)
    (hf : ∀ token t, s.Reaches ps t → token.piece = p → Yields (f token) t qs R) :
    Yields (bump >>= f) s qs R :=
  (yields_bump h hp).bind fun token t ht htoken => hf token t ht (htoken t.arena (.refl _))

/-- A piece that may be there is taken. -/
theorem Yields.eat {f : Bool → Parser β} (hp : p.kind = k) (hk : k ≠ .endOfFile)
    (hf : ∀ t, s.Reaches ps t → Yields (f true) t qs R) :
    Yields (eat k >>= f) s qs R :=
  (yields_eat h hp hk).bind fun _ t ht ha => ha t.arena (.refl _) ▸ hf t ht

/-- A piece that has to be there is taken. -/
theorem Yields.expect {f : Bool → Parser β} (hp : p.kind = k) (hk : k ≠ .endOfFile)
    (hf : ∀ t, s.Reaches ps t → Yields (f true) t qs R) :
    Yields (expect k >>= f) s qs R :=
  (yields_expect h hp hk).bind fun _ t ht ha => ha t.arena (.refl _) ▸ hf t ht

end

/-! ## Making nodes -/

theorem yields_addNode (h : s.ahead = ps) (data : NodeData) (span : Span) :
    Yields (addNode data span) s ps fun b node => b.data? node = some data :=
  ⟨_, _, rfl, ⟨h, rfl, s.arena.extends_add data span⟩,
    fun _ hb => hb.data? _ _ (s.arena.data?_add data span)⟩

/-- A reading ends with a node of what was read. -/
theorem yields_finish (h : s.ahead = ps) (data : NodeData) (start : Nat) :
    Yields (finish data start) s ps fun b node => b.data? node = some data := by
  have hget : (get : Parser ParseState).run s = (s, s) := rfl
  exact .look hget (yields_addNode h data _)

/-- A word is read as a node with its text. -/
theorem yields_word {text : String} (h : s.ahead = ⟨.name, text⟩ :: ps) :
    Yields name s ps fun b node =>
      ∃ atom, b.data? node = some (.name atom) ∧ b.names.names[atom]? = some text := by
  obtain ⟨token, hrun, hpiece⟩ := run_current h
  have hkind : token.kind = .name := congrArg Piece.kind hpiece
  have htext : token.text = text := congrArg Piece.text hpiece
  refine .look hrun ?_
  simp only [hkind, beq_self_eq_true, if_true]
  refine .take h nofun fun _ t ht _ => ?_
  let inserted := t.arena.names.insert token.text
  let named : ParseState := { t with arena := { t.arena with names := inserted.2 } }
  have hnamed : t.Reaches ps named := ⟨ht.ahead, rfl, t.arena.extends_insert token.text⟩
  have hatom : named.arena.names.names[inserted.1]? = some text := by
    rw [← htext]
    exact Arena.names_insert _ _
  obtain ⟨node, r, hnode, hr, hdata⟩ := yields_addNode hnamed.ahead (.name inserted.1) token.span
  refine ⟨node, r, hnode, hnamed.trans hr, fun b hb => ⟨inserted.1, hdata b hb, ?_⟩⟩
  exact hb.names _ _ (hr.arena.names _ _ hatom)

/-- A name is read as a node with its text. -/
theorem yields_name {id : Identifier} (h : s.ahead = id.piece :: ps) :
    Yields name s ps fun b node => id.Shown b node := yields_word h

end Parser
end LiveCheck

/-!
## Parts in a row

Parts of any kind that are written with the same piece between them or before each of them are read
back one by one, if each of them is read back up to such a piece or to the one behind them all. A
part that may be missing is read back if it is there.
-/

namespace LiveCheck

/-- A part that may be missing, behind a piece. -/
def optionalPieces {ι : Type} (mark : Piece) (pieces : ι → List Piece) : Option ι → List Piece
  | none => []
  | some x => mark :: pieces x

/-- Parts that each stand behind the same piece. -/
def behindEach {ι : Type} (mark : Piece) (pieces : ι → List Piece) : List ι → List Piece
  | [] => []
  | x :: xs => mark :: (pieces x ++ behindEach mark pieces xs)

/-- Parts with the same piece between them. -/
def between {ι : Type} (mark : Piece) (pieces : ι → List Piece) : List ι → List Piece
  | [] => []
  | x :: xs => pieces x ++ behindEach mark pieces xs

namespace Parser

variable {α β ι : Type} {s : ParseState} {q mark : Piece} {qs rest : List Piece} {k l : TokenKind}
  {pieces : ι → List Piece} {x : ι} {xs : List ι} {Q : Arena → ι → α → Prop} {R : Arena → β → Prop}
  {fuel : Nat} {item : Parser α} {stop : Parser Bool}

/-- Each of the parts is read up to a token of one of two kinds: the one between the parts and the
one behind them all. -/
def ReadsEach (item : Parser α) (pieces : ι → List Piece) (k l : TokenKind) (xs : List ι)
    (Q : Arena → ι → α → Prop) : Prop :=
  ∀ x ∈ xs, ∀ ⦃s p ps⦄, s.ahead = pieces x ++ p :: ps → p.kind = k ∨ p.kind = l →
    Yields item s (p :: ps) fun b r => Q b x r

/-- What follows a part: the piece before the next one, or the piece behind all parts. -/
theorem exists_behindEach (hk : mark.kind = k) (hq : q.kind = l) (pieces : ι → List Piece)
    (xs : List ι) (rest : List Piece) : ∃ p ps,
      behindEach mark pieces xs ++ q :: rest = p :: ps ∧ (p.kind = k ∨ p.kind = l) := by
  cases xs with
  | nil => exact ⟨q, rest, rfl, .inr hq⟩
  | cons => exact ⟨mark, _, rfl, .inl hk⟩

private theorem yields_afterEachUpTo (hitem : ReadsEach item pieces k l xs Q)
    (hs : s.ahead = behindEach mark pieces xs ++ q :: rest) (hk : mark.kind = k) (hq : q.kind = l)
    (hne : l ≠ k) (hend : k ≠ .endOfFile) (hfuel : s.ahead.length ≤ fuel) :
    Yields (afterEachUpTo k item fuel) s (q :: rest) fun b rs => List.Forall₂ (Q b) xs rs := by
  induction xs generalizing s fuel with
  | nil =>
    replace hs : s.ahead = q :: rest := hs
    obtain ⟨fuel, rfl⟩ := exists_fuel hs hfuel
    exact .look (run_eat_of_ne hs (hq ▸ hne)) (.pure hs fun _ _ => .nil)
  | cons x xs ih =>
    replace hs : s.ahead = mark :: (pieces x ++ (behindEach mark pieces xs ++ q :: rest)) := by
      rw [hs, behindEach, List.cons_append, List.append_assoc]
    obtain ⟨fuel, rfl⟩ := exists_fuel hs hfuel
    obtain ⟨p, ps, hps, hp⟩ := exists_behindEach hk hq pieces xs rest
    refine .eat hs hk hend fun t ht => ?_
    rw [hps] at ht
    refine (hitem x (.head xs) ht.ahead hp).bind fun r t₁ ht₁ hr => ?_
    have hrest : t₁.ahead = behindEach mark pieces xs ++ q :: rest := ht₁.ahead.trans hps.symm
    refine (ih (fun y hy => hitem y (.tail _ hy)) hrest ?_).bind fun rs t₂ ht₂ hrs =>
      .pure ht₂.ahead fun b hb => .cons (hr b (ht₂.arena.trans hb)) (hrs b hb)
    rw [hrest]
    simp only [List.length_append]
    omega

/-- Parts behind the same piece each. -/
theorem yields_afterEach (hitem : ReadsEach item pieces k l xs Q)
    (hs : s.ahead = behindEach mark pieces xs ++ q :: rest) (hk : mark.kind = k) (hq : q.kind = l)
    (hne : l ≠ k) (hend : k ≠ .endOfFile) :
    Yields (afterEach k item) s (q :: rest) fun b rs => List.Forall₂ (Q b) xs rs :=
  .look (run_remaining s) (yields_afterEachUpTo hitem hs hk hq hne hend (Nat.le_refl _))

/-- Going on behind parts with the same piece between them. -/
theorem Yields.between {f : α → List α → Parser β} (hitem : ReadsEach item pieces k l (x :: xs) Q)
    (hs : s.ahead = between mark pieces (x :: xs) ++ q :: rest) (hk : mark.kind = k)
    (hq : q.kind = l) (hne : l ≠ k) (hend : k ≠ .endOfFile)
    (hf : ∀ r rs t, s.Reaches (q :: rest) t →
      (∀ b, t.arena.Extends b → List.Forall₂ (Q b) (x :: xs) (r :: rs)) → Yields (f r rs) t qs R) :
    Yields (do
      let first ← item
      let others ← afterEach k item
      f first others) s qs R := by
  replace hs : s.ahead = pieces x ++ (behindEach mark pieces xs ++ q :: rest) :=
    hs.trans (List.append_assoc ..)
  obtain ⟨p, ps, hps, hp⟩ := exists_behindEach hk hq pieces xs rest
  rw [hps] at hs
  refine (hitem x (.head xs) hs hp).bind fun r t ht hr => ?_
  have hothers : ReadsEach item pieces k l xs Q := fun y hy => hitem y (.tail _ hy)
  refine (yields_afterEach hothers (ht.ahead.trans hps.symm) hk hq hne hend).bind
    fun rs t₁ ht₁ hrs => hf r rs t₁ ⟨ht₁.ahead, ht₁.findings.trans ht.findings,
      ht.arena.trans ht₁.arena⟩ fun b hb => .cons (hr b (ht₁.arena.trans hb)) (hrs b hb)

/-- A look ahead that tells where a list ends: at a token of the kind behind it, and not where a part
begins. -/
structure EndsList (stop : Parser Bool) (pieces : ι → List Piece) (l : TokenKind) (xs : List ι) :
    Prop where
  goesOn : ∀ x ∈ xs, ∀ ⦃s ps⦄, s.ahead = pieces x ++ ps → stop.run s = (false, s)
  ends : ∀ ⦃s q ps⦄, s.ahead = q :: ps → q.kind = l → stop.run s = (true, s)

private theorem yields_listUpTo {item : Parser (Option α)} (hstop : EndsList stop pieces l xs)
    (hitem : ReadsEach item pieces (.symbol .comma) l xs fun b x r => ∃ i, r = some i ∧ Q b x i)
    (hs : s.ahead = between Symbol.comma.piece pieces xs ++ q :: rest) (hq : q.kind = l)
    (hne : l ≠ .symbol .comma) (hfuel : s.ahead.length ≤ fuel) :
    Yields (listUpTo stop item fuel) s (q :: rest) fun b is => List.Forall₂ (Q b) xs is := by
  induction xs generalizing s fuel with
  | nil =>
    replace hs : s.ahead = q :: rest := hs
    obtain ⟨fuel, rfl⟩ := exists_fuel hs hfuel
    exact .look (hstop.ends hs hq) (.pure hs fun _ _ => .nil)
  | cons x xs ih =>
    replace hs : s.ahead = pieces x ++ (behindEach Symbol.comma.piece pieces xs ++ q :: rest) := by
      rw [hs, LiveCheck.between, List.append_assoc]
    have hpos : 0 < fuel := by
      rw [hs] at hfuel
      simp only [List.length_append, List.length_cons] at hfuel
      omega
    obtain ⟨fuel, rfl⟩ := Nat.exists_eq_succ_of_ne_zero (Nat.ne_of_gt hpos)
    refine .look (hstop.goesOn x (.head xs) hs) ?_
    cases xs with
    | nil =>
      refine (hitem x (.head _) hs (.inr hq)).bind fun r t ht hr => ?_
      obtain ⟨i, rfl, -⟩ := hr t.arena (.refl _)
      refine .look (run_eat_of_ne ht.ahead (hq ▸ hne)) (.pure ht.ahead fun b hb => ?_)
      obtain ⟨j, hj, hshown⟩ := hr b hb
      cases hj
      exact .cons hshown .nil
    | cons y xs =>
      have hnext : behindEach Symbol.comma.piece pieces (y :: xs) ++ q :: rest =
          Symbol.comma.piece ::
            (LiveCheck.between Symbol.comma.piece pieces (y :: xs) ++ q :: rest) := rfl
      rw [hnext] at hs
      refine (hitem x (.head _) hs (.inl rfl)).bind fun r t ht hr => ?_
      obtain ⟨i, rfl, -⟩ := hr t.arena (.refl _)
      refine .eat ht.ahead rfl nofun fun t₁ ht₁ => ?_
      have hstop' : EndsList stop pieces l (y :: xs) :=
        ⟨fun z hz => hstop.goesOn z (.tail _ hz), hstop.ends⟩
      refine (ih hstop' (fun z hz => hitem z (.tail _ hz)) ht₁.ahead ?_).bind fun is t₂ ht₂ his =>
        .pure ht₂.ahead fun b hb => ?_
      · rw [hs] at hfuel
        rw [ht₁.ahead]
        simp only [List.length_append, List.length_cons] at hfuel ⊢
        omega
      · obtain ⟨j, hj, hshown⟩ := hr b (ht₁.arena.trans (ht₂.arena.trans hb))
        cases hj
        exact .cons hshown (his b hb)

/-- Parts with commas between them. -/
theorem yields_list {item : Parser (Option α)} (hstop : EndsList stop pieces l xs)
    (hitem : ReadsEach item pieces (.symbol .comma) l xs fun b x r => ∃ i, r = some i ∧ Q b x i)
    (hs : s.ahead = between Symbol.comma.piece pieces xs ++ q :: rest) (hq : q.kind = l)
    (hne : l ≠ .symbol .comma) :
    Yields (list stop item) s (q :: rest) fun b is => List.Forall₂ (Q b) xs is :=
  .look (run_remaining s) (yields_listUpTo hstop hitem hs hq hne (Nat.le_refl _))

/-- What comes where a part may be missing: the piece before it, or the piece behind it. -/
theorem exists_optionalPieces (mark : Piece) (pieces : ι → List Piece) (x : Option ι) (q : Piece)
    (rest : List Piece) : ∃ p ps, optionalPieces mark pieces x ++ q :: rest = p :: ps ∧
      (p.kind = mark.kind ∨ p.kind = q.kind) := by
  cases x with
  | none => exact ⟨q, rest, rfl, .inr rfl⟩
  | some => exact ⟨mark, _, rfl, .inl rfl⟩

/-- What stands behind a piece, if it is there. -/
theorem yields_optional {x : Option ι} (hs : s.ahead = optionalPieces mark pieces x ++ q :: rest)
    (hq : q.kind ≠ mark.kind) (hmark : mark.kind ≠ .endOfFile)
    (hitem : ∀ y ∈ x, ∀ t, t.ahead = pieces y ++ q :: rest →
      Yields item t (q :: rest) fun b r => Q b y r) :
    Yields (optional (eat mark.kind) item) s (q :: rest) fun b r => Option.Rel (Q b) x r := by
  cases x with
  | none => exact .look (run_eat_of_ne hs hq) (.pure hs fun _ _ => .none)
  | some y =>
    refine .eat hs rfl hmark fun t ht => (hitem y rfl t ht.ahead).bind fun r t₁ ht₁ hr => ?_
    exact .pure ht₁.ahead fun b hb => .some (hr b hb)

end Parser
end LiveCheck
