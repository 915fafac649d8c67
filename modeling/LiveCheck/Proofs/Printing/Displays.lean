import LiveCheck.Proofs.Printing.Operators
import LiveCheck.Proofs.Printing.Rows

/-!
# Reading atoms, displays and trailers

What stands by itself, what stands in brackets, and what stands behind an atom is read back from its
pieces, once the expressions in it are read back.
-/

namespace LiveCheck.Parser

variable {n : Nested} {grade fuel : Nat} {s : ParseState} {p q : Piece} {ps qs rest : List Piece}
  {e value : Expr} {es others : List Expr} {close : TokenKind} {stop : Parser Bool}
  {Q : Arena → NodeId → Prop}

/-! ## Names and values -/

theorem reads_name (id : Identifier) : Reads (atom n) (Expr.name id).pieces (.name id) grade :=
  fun _ _ _ hs _ => .look (run_kind hs) (yields_name hs)

theorem yields_constant {kind : ConstantKind} (hs : s.ahead = p :: ps)
    (hp : p.kind ≠ .endOfFile) :
    Yields (constant kind) s ps fun b i => b.data? i = some (.constant kind none) :=
  .start hs fun start => .take hs hp fun _ _ ht _ => yields_finish ht.ahead _ start

private theorem yields_stringValuesUpTo {texts : List String}
    (hs : s.ahead = texts.map (Piece.mk .string) ++ q :: rest) (hq : q.kind.continues < 15)
    (hfuel : texts.length ≤ fuel) :
    Yields (stringValuesUpTo fuel) s (q :: rest) fun _ value =>
      value = String.join (texts.map StringLiteral.decode) := by
  induction texts generalizing s fuel with
  | nil =>
    cases fuel with
    | zero => exact .pure hs fun _ _ => rfl
    | succ fuel =>
      refine .look (run_kind hs) ?_
      split
      case h_3 => exact .pure hs fun _ _ => rfl
      all_goals simp_all [TokenKind.continues]
  | cons text texts ih =>
    obtain ⟨fuel, rfl⟩ := Nat.exists_eq_add_of_le' (Nat.le_trans (Nat.le_add_left 1 _) hfuel)
    refine .look (run_kind hs) (.take hs (fun h => by cases h) fun token t ht htoken => ?_)
    refine (ih ht.ahead (Nat.le_of_succ_le_succ hfuel)).bind fun value t₁ ht₁ hvalue =>
      .pure ht₁.ahead fun b hb => ?_
    have htext : token.text = text := congrArg Piece.text htoken
    rw [htext, hvalue b hb, List.map_cons, String.join_cons]

/-- Strings in a row make one constant. -/
theorem reads_strings (text : String) (texts : List String) :
    ReadsAs (atom n) ((text :: texts).map (Piece.mk .string)) (fun b i => b.data? i =
      some (.constant .string (some (String.join ((text :: texts).map StringLiteral.decode))))) 15 := by
  intro s q rest hs hq
  refine .look (run_kind hs) (.start hs fun _ => .look (run_isAt hs) (.look (run_remaining s) ?_))
  have hlength : (text :: texts).length ≤ s.ahead.length := by
    rw [hs, List.length_append, List.length_map]
    exact Nat.le_add_right _ _
  refine (yields_stringValuesUpTo hs hq hlength).bind fun value t ht hvalue => ?_
  rw [hvalue t.arena (.refl _)]
  exact yields_finish ht.ahead _ _

theorem reads_literal (value : Literal) :
    Reads (atom n) (Expr.literal value).pieces (.literal value) 15 := by
  cases value with
  | string text =>
    have hstrings := reads_strings (n := n) (StringLiteral.quote text) []
    simp only [List.map_cons, List.map_nil, StringLiteral.decode_quote, String.join_cons,
      String.join_nil, String.append_empty] at hstrings
    exact hstrings
  | int | none | true | false =>
    exact fun _ _ _ hs _ => .look (run_kind hs) (yields_constant hs nofun)

/-! ## Items -/

/-- The pieces of an expression are read as one item of a list, up to a comma or to the piece that
closes the list. -/
def ReadsItem {α : Type} (item : Parser α) (close : TokenKind) (e : Expr)
    (Q : Arena → α → Prop) : Prop :=
  ∀ ⦃s q rest⦄, s.ahead = e.written 1 ++ q :: rest →
    q.kind = .symbol .comma ∨ q.kind = close → Yields item s (q :: rest) Q

/-- A look ahead that tells where a list ends: at the piece that closes it, and not where an item
begins. -/
structure Stops (stop : Parser Bool) (close : TokenKind) : Prop where
  opens : ∀ ⦃s p ps⦄, s.ahead = p :: ps → p.kind.opens 1 = true → stop.run s = (false, s)
  closes : ∀ ⦃s p ps⦄, s.ahead = p :: ps → p.kind = close → stop.run s = (true, s)
  ne_comma : close ≠ .symbol .comma

theorem startsExpression_of_opens {kind : TokenKind} (h : kind.opens grade = true) :
    startsExpression kind = true := by
  unfold TokenKind.opens at h
  split at h <;> first | rfl | cases h

theorem run_atExpression (hs : s.ahead = p :: ps) :
    atExpression.run s = (startsExpression p.kind, s) := run_bind (run_kind hs)

theorem stops_notAtExpression (hclose : startsExpression close = false)
    (hne : close ≠ .symbol .comma) : Stops notAtExpression close where
  opens s p ps hs hp := by
    refine (run_bind (run_atExpression hs)).trans ?_
    rw [startsExpression_of_opens hp]
    rfl
  closes s p ps hs hp := by
    refine (run_bind (run_atExpression hs)).trans ?_
    rw [hp, hclose]
    rfl
  ne_comma := hne

theorem stops_isAt (hclose : close.opens 1 = false) (hne : close ≠ .symbol .comma) :
    Stops (isAt close) close where
  opens _ _ _ hs hp := run_isAt_of_ne hs (TokenKind.ne_of_opens hp hclose)
  closes _ _ _ hs hp := run_isAt_of_eq hs hp
  ne_comma := hne

private theorem Stops.endsList (h : Stops stop close) (es : List Expr) :
    EndsList stop (·.written 1) close es where
  goesOn e _ s ps hs := by
    obtain ⟨p, others, hs', hopens⟩ := (e.begins_written 1).ahead hs
    exact h.opens hs' hopens
  ends _ _ _ hs hk := h.closes hs hk

theorem readsAs_starOrExpression (hb : Begins 1 ps) (h : ReadsAs n.expression ps Q 1) :
    ReadsAs (starOrExpression n) ps Q 1 := by
  intro s q rest hs hq
  obtain ⟨p, others, hs', hopens⟩ := hb.ahead hs
  have hstar : p.kind ≠ .symbol .star := TokenKind.ne_of_opens hopens rfl
  exact .look (run_isAt_of_ne hs' hstar) (h hs hq)

theorem reads_starOrExpression (h : Reads n.expression (e.written 1) e 1) :
    Reads (starOrExpression n) (e.written 1) e 1 :=
  readsAs_starOrExpression (e.begins_written 1) h

theorem Reads.item {item : Parser NodeId} (h : Reads item (e.written 1) e 1)
    (hclose : close.continues = 0) : ReadsItem item close e fun b i => e.Shown b i := by
  intro s q rest hs hq
  refine h hs ?_
  rcases hq with hq | hq <;> rw [hq]
  · decide
  · omega

/-! ## Lists and arguments -/

private theorem itemPieces_eq (es : List Expr) :
    itemPieces es = between Symbol.comma.piece (·.written 1) es := by
  cases es with
  | nil => rfl
  | cons e es =>
    rw [itemPieces, eachAfter_eq]
    rfl

private theorem yields_items {item : Parser (Option NodeId)} {Q : Arena → Expr → NodeId → Prop}
    (hstop : Stops stop close)
    (hitem : ∀ e ∈ es, ReadsItem item close e fun b r => ∃ i, r = some i ∧ Q b e i)
    (hs : s.ahead = itemPieces es ++ q :: rest) (hq : q.kind = close) :
    Yields (list stop item) s (q :: rest) fun b is => List.Forall₂ (Q b) es is := by
  rw [itemPieces_eq] at hs
  exact yields_list (hstop.endsList es) (fun e he t p ps ht hp => hitem e he ht hp) hs hq
    hstop.ne_comma

private def ArgumentShown (a : Arena) (e : Expr) (i : NodeId) : Prop :=
  ∃ j, a.data? i = some (.argument .positional none j) ∧ e.Shown a j

private theorem argumentsShown_of_forall₂ {b : Arena} {is : List NodeId}
    (h : List.Forall₂ (ArgumentShown b) es is) : ArgumentsShown b es is := by
  induction h with
  | nil => rfl
  | cons hi _ ih =>
    obtain ⟨j, hdata, hj⟩ := hi
    exact ⟨_, j, _, rfl, hdata, hj, ih⟩

theorem reads_listDisplay
    (hes : ∀ e ∈ es, Reads n.expression (e.written 1) e 1) :
    Reads (atom n) (Expr.list es).pieces (.list es) grade := by
  intro s q rest hs _
  replace hs : s.ahead = Symbol.openBracket.piece ::
      (itemPieces es ++ Symbol.closeBracket.piece :: q :: rest) := by
    rw [hs]
    show _ :: ((itemPieces es ++ [_]) ++ _) = _
    simp only [List.append_assoc, List.cons_append, List.nil_append]
  refine .look (run_kind hs) (.start hs fun start => .take hs nofun fun _ t ht _ => ?_)
  have hitem (e : Expr) (he : e ∈ es) :
      ReadsItem (some <$> starOrExpression n) (.symbol .closeBracket) e fun b r =>
        ∃ i, r = some i ∧ e.Shown b i :=
    fun _ _ _ hs hq => ((reads_starOrExpression (hes e he)).item rfl hs hq).map
      fun _ i hi => ⟨i, rfl, hi⟩
  have hstop : Stops notAtExpression (.symbol .closeBracket) := stops_notAtExpression rfl nofun
  refine (yields_items hstop hitem ht.ahead rfl).bind fun is t₁ ht₁ his =>
    .expect ht₁.ahead rfl nofun fun t₂ ht₂ => yields_shape ht₂.ahead fun b i hb hi => ?_
  exact ⟨is, hi, allShown_of_forall₂ (his b (ht₂.arena.trans hb))⟩

private theorem run_argumentForm (hs : s.ahead = p :: q :: ps) (hp : p.kind.opens grade = true)
    (hq : q.kind ≠ .symbol .equals) : argumentForm.run s = ((.positional, none), s) := by
  refine (run_bind (run_kind hs)).trans ?_
  split
  case h_3 =>
    refine (run_bind (run_following hs)).trans ?_
    rw [beq_eq_false_iff_ne.mpr hq]
    rfl
  case h_4 => rfl
  all_goals simp_all [TokenKind.opens]

private theorem reads_argument (h : Reads n.expression (e.written 1) e 1) :
    ReadsItem (argument n) (.symbol .closeParen) e fun b r =>
      ∃ i, r = some i ∧ ArgumentShown b e i := by
  intro s q rest hs hq
  obtain ⟨p, others, hp, hopens⟩ := e.begins_written 1
  have hs' := hs
  rw [hp, List.cons_append] at hs'
  obtain ⟨p', others', hnext⟩ := List.exists_cons_of_ne_nil
    (List.append_ne_nil_of_right_ne_nil others (List.cons_ne_nil q rest))
  have hp' : p'.kind ≠ .symbol .equals := by
    cases others with
    | nil =>
      cases hnext
      rcases hq with hq | hq <;> rw [hq] <;> exact nofun
    | cons p₂ others =>
      cases hnext
      refine (e.row.enclose 1 e.grade).ne_equals _ ?_
      show p' ∈ e.written 1
      rw [hp]
      exact .tail _ (.head _)
  rw [hnext] at hs'
  refine .start hs' fun start => .look (run_argumentForm hs' hopens hp') ?_
  refine .look (run_atExpression hs') ?_
  rw [startsExpression_of_opens hopens]
  refine (h.item rfl hs hq).bind fun j t ht hj => ?_
  refine (yields_finish ht.ahead (.argument .positional none j) start).bind fun i t₁ ht₁ hi =>
    .pure ht₁.ahead fun b hb => ⟨i, rfl, j, hi b hb, hj b (ht₁.arena.trans hb)⟩

private theorem stops_arguments :
    Stops (return (← isAt Symbol.closeParen) || (← isAt .endOfFile)) (.symbol .closeParen) where
  opens s p ps hs hp := by
    have hclose : p.kind ≠ .symbol .closeParen := TokenKind.ne_of_opens hp rfl
    have hend : p.kind ≠ .endOfFile := TokenKind.ne_of_opens hp rfl
    exact (run_bind (run_isAt_of_ne hs hclose)).trans (run_bind (run_isAt_of_ne hs hend))
  closes s p ps hs hp := by
    exact (run_bind (run_isAt_of_eq hs hp)).trans (run_bind (run_isAt hs))
  ne_comma := nofun

theorem yields_arguments (hes : ∀ e ∈ es, Reads n.expression (e.written 1) e 1)
    (hs : s.ahead = itemPieces es ++ Symbol.closeParen.piece :: rest) :
    Yields (arguments n) s (Symbol.closeParen.piece :: rest) fun b is => ArgumentsShown b es is :=
  (yields_items stops_arguments (fun e he => reads_argument (hes e he)) hs rfl).mono
    fun _ _ _ his => argumentsShown_of_forall₂ his

/-! ## Tuples -/

/-- The items of a tuple behind the first one, with no comma at the end. -/
theorem yields_afterCommasUpTo {ι : Type} {pieces : ι → List Piece} {item : Parser NodeId}
    {xs : List ι} {Q : Arena → ι → NodeId → Prop} (hstop : EndsList stop pieces close xs)
    (hitem : ReadsEach item pieces (.symbol .comma) close xs Q)
    (hs : s.ahead = behindEach Symbol.comma.piece pieces xs ++ q :: rest) (hq : q.kind = close)
    (hne : close ≠ .symbol .comma) (hfuel : s.ahead.length ≤ fuel) :
    Yields (afterCommasUpTo stop item fuel) s (q :: rest) fun b is =>
      List.Forall₂ (Q b) xs is := by
  induction xs generalizing s fuel with
  | nil =>
    replace hs : s.ahead = q :: rest := hs
    obtain ⟨fuel, rfl⟩ := exists_fuel hs hfuel
    exact .look (run_eat_of_ne hs (hq ▸ hne)) (.pure hs fun _ _ => .nil)
  | cons x xs ih =>
    replace hs : s.ahead = Symbol.comma.piece ::
        (pieces x ++ (behindEach Symbol.comma.piece pieces xs ++ q :: rest)) := by
      rw [hs, behindEach, List.cons_append, List.append_assoc]
    obtain ⟨fuel, rfl⟩ := exists_fuel hs hfuel
    obtain ⟨p, ps, hps, hp⟩ := exists_behindEach rfl hq pieces xs rest
    refine .eat hs rfl (by simp) fun t ht => .look (hstop.goesOn x (.head xs) ht.ahead) ?_
    rw [hps] at ht
    refine (hitem x (.head xs) ht.ahead hp).bind fun i t₁ ht₁ hi => ?_
    have hrest : t₁.ahead = behindEach Symbol.comma.piece pieces xs ++ q :: rest :=
      ht₁.ahead.trans hps.symm
    have hstop' : EndsList stop pieces close xs :=
      ⟨fun y hy => hstop.goesOn y (.tail _ hy), hstop.ends⟩
    refine (ih hstop' (fun y hy => hitem y (.tail _ hy)) hrest ?_).bind fun is t₂ ht₂ his =>
      .pure ht₂.ahead fun b hb => .cons (hi b (ht₂.arena.trans hb)) (his b hb)
    rw [hrest]
    simp only [List.length_append]
    omega

private theorem yields_afterCommas {item : Parser NodeId} (hstop : Stops stop close)
    (hitem : ∀ e ∈ others, ReadsItem item close e fun b i => e.Shown b i)
    (hs : s.ahead =
      eachAfter Symbol.comma.piece 1 others ++ (lastComma others ++ q :: rest))
    (hq : q.kind = close) :
    Yields (afterCommas stop item) s (q :: rest) fun b is => AllShown b others is := by
  refine .look (run_remaining s) ?_
  cases others with
  | nil =>
    replace hs : s.ahead = Symbol.comma.piece :: q :: rest := hs
    rw [hs]
    refine .eat hs rfl nofun fun t ht => .look (hstop.closes ht.ahead hq) ?_
    exact .pure ht.ahead fun _ _ => rfl
  | cons e others =>
    rw [eachAfter_eq] at hs
    exact (yields_afterCommasUpTo (hstop.endsList _) (fun e' he' _ _ _ ht hp => hitem e' he' ht hp) hs hq
      hstop.ne_comma (Nat.le_refl _)).mono fun _ _ _ his => allShown_of_forall₂ his

private theorem exists_comma (others : List Expr) (ps : List Piece) :
    ∃ qs, eachAfter Symbol.comma.piece 1 others ++ (lastComma others ++ ps) =
      Symbol.comma.piece :: qs := by
  cases others with
  | nil => exact ⟨_, rfl⟩
  | cons => exact ⟨_, rfl⟩

private theorem tuple_pieces (first : Expr) (others : List Expr) (ps : List Piece) :
    (Expr.tuple (first :: others)).pieces ++ ps = first.written 1 ++
      (eachAfter Symbol.comma.piece 1 others ++ (lastComma others ++ ps)) := by
  show (first.written 1 ++ (_ ++ _)) ++ _ = _
  simp only [List.append_assoc]

/-- The expressions that have commas between them: the elements of a tuple, or the expression. -/
def items : Expr → List Expr
  | .tuple (first :: others) => first :: others
  | e => [e]

theorem items_of_grade (h : e.grade ≠ 0) : items e = [e] := by
  unfold items
  split
  · exact absurd rfl h
  · rfl

theorem depth_le_of_mem_items {e' : Expr} (h : e' ∈ items e) : e'.depth ≤ e.depth := by
  by_cases hgrade : e.grade = 0
  · obtain ⟨first, others, rfl⟩ := Expr.exists_tuple hgrade
    exact Nat.le_succ_of_le (depth_le_depths h)
  · rw [items_of_grade hgrade] at h
    obtain rfl := List.mem_singleton.mp h
    exact Nat.le_refl _

/-- Items with commas between them, without parentheses around them. -/
theorem yields_tupleOf {item : Parser NodeId} (hstop : Stops stop close)
    (hitem : ∀ e' ∈ items e, ReadsItem item close e' fun b i => e'.Shown b i)
    (hs : s.ahead = e.pieces ++ q :: rest) (hq : q.kind = close) :
    Yields (tupleOf stop item) s (q :: rest) fun b i => e.Shown b i := by
  obtain ⟨p, ps, hs', -⟩ := e.begins_pieces.ahead hs
  refine .start hs' fun start => ?_
  by_cases hgrade : e.grade = 0
  · obtain ⟨first, others, rfl⟩ := Expr.exists_tuple hgrade
    rw [tuple_pieces] at hs
    obtain ⟨qs, hqs⟩ := exists_comma others (q :: rest)
    rw [hqs] at hs
    refine (hitem first (.head _) hs (.inl rfl)).bind fun i t ht hi => ?_
    have hitems (e' : Expr) (he' : e' ∈ others) := hitem e' (.tail _ he')
    refine .look (run_isAt_of_eq ht.ahead rfl) ((yields_afterCommas hstop hitems (ht.ahead.trans hqs.symm) hq).bind
      fun is t₁ ht₁ his => yields_shape ht₁.ahead fun b node hb hnode => ?_)
    exact ⟨i :: is, hnode, i, is, rfl, hi b (ht₁.arena.trans hb), his b hb⟩
  · have hwritten : e.written 1 = e.pieces := if_neg (by omega)
    rw [items_of_grade hgrade] at hitem
    refine (hitem e (.head _) (hwritten ▸ hs) (.inr hq)).bind fun i t ht hi => ?_
    have hcomma : q.kind ≠ .symbol .comma := hq ▸ hstop.ne_comma
    exact .look (run_isAt_of_ne ht.ahead hcomma) (.pure ht.ahead hi)

/-- An index that is no slice. -/
theorem yields_sliceItem (hb : Begins 1 ps) (h : ReadsAs n.expression ps Q 1)
    (hs : s.ahead = ps ++ p :: rest) (hp : p.kind = .symbol .comma ∨ p.kind = .symbol .closeBracket)
    :
    Yields (sliceItem n) s (p :: rest) Q := by
  have hcontinues : p.kind.continues < 1 := by rcases hp with hp | hp <;> rw [hp] <;> decide
  have hcolon : p.kind ≠ .symbol .colon := by rcases hp with hp | hp <;> rw [hp] <;> exact nofun
  obtain ⟨first, others, hs', hopens⟩ := hb.ahead hs
  have hfirst : first.kind ≠ .symbol .colon := TokenKind.ne_of_opens hopens rfl
  have hlower : (do return !(← isAt Symbol.colon) : Parser Bool).run s = (true, s) :=
    run_bind (run_isAt_of_ne hs' hfirst)
  have hindex : Yields (optional (return !(← isAt Symbol.colon)) (starOrExpression n)) s (p :: rest)
      fun b r => ∃ i, r = some i ∧ Q b i := by
    refine .look hlower ((readsAs_starOrExpression hb h hs hcontinues).bind fun i t ht hi => ?_)
    exact .pure ht.ahead fun b hb => ⟨i, rfl, hi b hb⟩
  refine .start hs' fun start => hindex.bind fun r t ht hr => ?_
  obtain ⟨i, rfl, -⟩ := hr t.arena (.refl _)
  refine .look (run_eat_of_ne ht.ahead hcolon) (.pure ht.ahead fun b hb => ?_)
  obtain ⟨j, hj, hshown⟩ := hr b hb
  cases hj
  exact hshown

theorem reads_sliceItem (h : Reads n.expression (e.written 1) e 1) :
    ReadsItem (sliceItem n) (.symbol .closeBracket) e fun b i => e.Shown b i :=
  fun _ _ _ hs hp => yields_sliceItem (e.begins_written 1) h hs hp

/-! ## Parentheses -/

theorem reads_emptyTuple : Reads (atom n) (Expr.tuple []).pieces (.tuple []) grade := by
  intro s q rest hs _
  refine .look (run_kind hs) (.start hs fun start => .take hs nofun fun _ t ht _ => ?_)
  exact .eat ht.ahead rfl nofun fun t₁ ht₁ =>
    yields_shape ht₁.ahead fun b i _ hi => ⟨[], hi, rfl⟩

/-- An expression in parentheses stands for itself. -/
theorem reads_parens (he : 1 ≤ e.grade) (h : Reads n.expression (e.written 1) e 1) :
    Reads (atom n) (Symbol.openParen.piece :: (e.pieces ++ [Symbol.closeParen.piece])) e grade := by
  intro s q rest hs _
  replace hs : s.ahead = Symbol.openParen.piece ::
      (e.written 1 ++ Symbol.closeParen.piece :: q :: rest) := by
    rw [hs, Expr.written, enclose, if_neg (by omega)]
    simp only [List.append_assoc, List.cons_append, List.nil_append]
  refine .look (run_kind hs) (.start hs fun start => .take hs nofun fun _ t ht _ => ?_)
  obtain ⟨p, others, ht', hopens⟩ := (e.begins_written 1).ahead ht.ahead
  have hclose : p.kind ≠ .symbol .closeParen := TokenKind.ne_of_opens hopens rfl
  refine .look (run_eat_of_ne ht' hclose) ?_
  refine (reads_starOrExpression h ht.ahead (by decide)).bind fun i t₁ ht₁ hi => ?_
  exact .eat ht₁.ahead rfl nofun fun t₂ ht₂ =>
    .pure ht₂.ahead fun b hb => hi b (ht₂.arena.trans hb)

/-- A tuple in parentheses. -/
theorem reads_tuple {first : Expr}
    (h : ∀ e ∈ first :: others, Reads n.expression (e.written 1) e 1) :
    Reads (atom n) ((Expr.tuple (first :: others)).written 1) (.tuple (first :: others)) grade := by
  intro s q rest hs _
  replace hs : s.ahead = Symbol.openParen.piece :: (first.written 1 ++
      (eachAfter Symbol.comma.piece 1 others ++
        (lastComma others ++ Symbol.closeParen.piece :: q :: rest))) := by
    rw [hs]
    show _ :: ((Expr.tuple (first :: others)).pieces ++ [_] ++ _) = _
    rw [List.append_assoc, tuple_pieces]
    rfl
  refine .look (run_kind hs) (.start hs fun start => .take hs nofun fun _ t ht _ => ?_)
  obtain ⟨p, ps, ht', hopens⟩ := (first.begins_written 1).ahead ht.ahead
  have hclose : p.kind ≠ .symbol .closeParen := TokenKind.ne_of_opens hopens rfl
  refine .look (run_eat_of_ne ht' hclose) ?_
  obtain ⟨qs, hqs⟩ := exists_comma others (Symbol.closeParen.piece :: q :: rest)
  have hitem (e : Expr) (he : e ∈ first :: others) := reads_starOrExpression (h e he)
  refine (hitem first (.head _) (hqs ▸ ht.ahead) (by decide)).bind fun i t₁ ht₁ hi => ?_
  refine .look (run_eat_of_ne ht₁.ahead nofun) (.look (run_isAt_of_eq ht₁.ahead rfl) ?_)
  have hstop : Stops (isAt Symbol.closeParen) (.symbol .closeParen) := stops_isAt rfl nofun
  have hitems (e : Expr) (he : e ∈ others) :=
    (hitem e (.tail _ he)).item (rfl : TokenKind.continues (.symbol .closeParen) = 0)
  refine (yields_afterCommas hstop hitems (ht₁.ahead.trans hqs.symm) rfl).bind
    fun is t₂ ht₂ his => .expect ht₂.ahead rfl nofun fun t₃ ht₃ =>
      yields_shape ht₃.ahead fun b node hb hnode => ?_
  exact ⟨i :: is, hnode, i, is, rfl, hi b (ht₂.arena.trans (ht₃.arena.trans hb)),
    his b (ht₃.arena.trans hb)⟩

end LiveCheck.Parser
