import LiveCheck.Proofs.Printing.SimpleStatements

/-!
# Reading the lines of clauses

The parts of the line that a clause of a compound statement begins with are read back: parameters,
bases, the items of a `with`, and what a handler catches. Behind them the block is read.
-/

namespace LiveCheck.Parser

variable {β : Type} {s : ParseState} {p q : Piece} {ps qs rest : List Piece} {e : Expr}
  {es : List Expr} {n : Nested} {R : Arena → β → Prop} {k : TokenKind}

/-! ## Parameters -/

private theorem yields_optionalNested {mark : Piece} {x : Option Expr}
    (hread : ∀ e ∈ x.toList, Reads n.expression e.item e 1)
    (hs : s.ahead = optionalPieces mark Expr.item x ++ q :: rest) (hk : mark.kind = k)
    (hq : q.kind ≠ k) (hend : q.kind.continues = 0) (hmark : k ≠ .endOfFile) :
    Yields (optional (eat k) n.expression) s (q :: rest) fun b r => OptionShown b x r := by
  subst hk
  exact yields_optional hs hq hmark fun e he _ ht =>
    hread e (Option.mem_toList.mpr he) ht (by omega)

private theorem yields_someName {id : Identifier} (hs : s.ahead = id.piece :: ps) :
    Yields (some <$> name) s ps fun b r => ∃ i, r = some i ∧ id.Shown b i :=
  (yields_name hs).map fun _ i hi => ⟨i, rfl, hi⟩

private theorem yields_parameter {param : Parameter}
    (hread : ∀ e ∈ param.exprs, Reads n.expression e.item e 1)
    (hs : s.ahead = param.pieces ++ q :: rest)
    (hq : q.kind = .symbol .comma ∨ q.kind = .symbol .closeParen) :
    Yields (parameter n true) s (q :: rest)
      fun b r => ∃ i, r = some i ∧ param.Shown b i := by
  have hcontinues : q.kind.continues = 0 := by rcases hq with hq | hq <;> rw [hq] <;> rfl
  have hcolon : q.kind ≠ .symbol .colon := by rcases hq with hq | hq <;> rw [hq] <;> exact nofun
  have hequals : q.kind ≠ .symbol .equals := by rcases hq with hq | hq <;> rw [hq] <;> exact nofun
  have hname : q.kind ≠ .name := by rcases hq with hq | hq <;> rw [hq] <;> exact nofun
  refine .startOf hs fun m => ?_
  cases param with
  | normal id hint default =>
    replace hs : s.ahead = id.piece :: (optionalPieces Symbol.colon.piece Expr.item hint ++
        (optionalPieces Symbol.equals.piece Expr.item default ++ q :: rest)) := by
      rw [hs]
      simp only [Parameter.pieces, List.cons_append, List.append_assoc]
    have hform : parameterForm.run s = (some .normal, s) := run_bind (run_kind hs)
    refine .look hform ((yields_someName hs).bind fun r t ht hr => ?_)
    obtain ⟨i, rfl, -⟩ := hr t.arena (.refl _)
    obtain ⟨p, ps, hps, hp⟩ :=
      exists_optionalPieces Symbol.equals.piece Expr.item default q rest
    have hpcolon : p.kind ≠ .symbol .colon := by
      rcases hp with hp | hp <;> rw [hp]
      · exact nofun
      · exact hcolon
    have hpcontinues : p.kind.continues = 0 := by
      rcases hp with hp | hp <;> rw [hp]
      · rfl
      · exact hcontinues
    have ht' := ht.ahead
    rw [hps] at ht'
    refine (yields_optionalNested (fun e he => hread e (List.mem_append_left _ he)) ht' rfl hpcolon
      hpcontinues nofun).bind fun j t₁ ht₁ hj => ?_
    refine (yields_optionalNested (fun e he => hread e (List.mem_append_right _ he))
      (ht₁.ahead.trans hps.symm) rfl hequals hcontinues nofun).bind fun k t₂ ht₂ hk => ?_
    refine (yields_finish ht₂.ahead (.parameter .normal (some i) j k) m).bind
      fun node t₃ ht₃ hnode => .pure ht₃.ahead fun b hb => ?_
    obtain ⟨_, heq, hi⟩ := hr b (ht₁.arena.trans (ht₂.arena.trans (ht₃.arena.trans hb)))
    cases heq
    exact ⟨node, rfl, i, j, k, hnode b hb, hi, hj b (ht₂.arena.trans (ht₃.arena.trans hb)),
      hk b (ht₃.arena.trans hb)⟩
  | varArgs id hint =>
    have hform : Yields parameterForm s
        (id.piece :: (optionalPieces Symbol.colon.piece Expr.item hint ++ q :: rest))
        fun _ r => r = some .varArgs :=
      .look (run_kind hs) (.take hs nofun fun _ t ht _ =>
        .look (run_isAt_of_eq ht.ahead rfl) (.pure ht.ahead fun _ _ => rfl))
    refine hform.bind fun form t ht hform => ?_
    rw [hform t.arena (.refl _)]
    refine (yields_someName ht.ahead).bind fun r t₁ ht₁ hr => ?_
    obtain ⟨i, rfl, -⟩ := hr t₁.arena (.refl _)
    refine (yields_optionalNested hread ht₁.ahead rfl hcolon hcontinues nofun).bind
      fun j t₂ ht₂ hj => ?_
    refine (yields_finish ht₂.ahead (.parameter .varArgs (some i) j none) m).bind
      fun node t₃ ht₃ hnode => .pure ht₃.ahead fun b hb => ?_
    obtain ⟨_, heq, hi⟩ := hr b (ht₂.arena.trans (ht₃.arena.trans hb))
    cases heq
    exact ⟨node, rfl, i, j, hnode b hb, hi, hj b (ht₃.arena.trans hb)⟩
  | kwArgs id hint =>
    have hform : Yields parameterForm s
        (id.piece :: (optionalPieces Symbol.colon.piece Expr.item hint ++ q :: rest))
        fun _ r => r = some .kwArgs :=
      .look (run_kind hs) (.take hs nofun fun _ t ht _ => .pure ht.ahead fun _ _ => rfl)
    refine hform.bind fun form t ht hform => ?_
    rw [hform t.arena (.refl _)]
    refine (yields_someName ht.ahead).bind fun r t₁ ht₁ hr => ?_
    obtain ⟨i, rfl, -⟩ := hr t₁.arena (.refl _)
    refine (yields_optionalNested hread ht₁.ahead rfl hcolon hcontinues nofun).bind
      fun j t₂ ht₂ hj => ?_
    refine (yields_finish ht₂.ahead (.parameter .kwArgs (some i) j none) m).bind
      fun node t₃ ht₃ hnode => .pure ht₃.ahead fun b hb => ?_
    obtain ⟨_, heq, hi⟩ := hr b (ht₂.arena.trans (ht₃.arena.trans hb))
    cases heq
    exact ⟨node, rfl, i, j, hnode b hb, hi, hj b (ht₃.arena.trans hb)⟩
  | keywordMarker =>
    have hform : Yields parameterForm s (q :: rest) fun _ r => r = some .keywordMarker :=
      .look (run_kind hs) (.take hs nofun fun _ t ht _ =>
        .look (run_isAt_of_ne ht.ahead hname) (.pure ht.ahead fun _ _ => rfl))
    refine hform.bind fun form t ht hform => ?_
    rw [hform t.arena (.refl _)]
    exact (yields_finish ht.ahead (.parameter .keywordMarker none none none) m).bind
      fun node t₁ ht₁ hnode => .pure ht₁.ahead fun b hb => ⟨node, rfl, hnode b hb⟩
  | positionalMarker =>
    have hform : Yields parameterForm s (q :: rest) fun _ r => r = some .positionalMarker :=
      .look (run_kind hs) (.take hs nofun fun _ t ht _ => .pure ht.ahead fun _ _ => rfl)
    refine hform.bind fun form t ht hform => ?_
    rw [hform t.arena (.refl _)]
    exact (yields_finish ht.ahead (.parameter .positionalMarker none none none) m).bind
      fun node t₁ ht₁ hnode => .pure ht₁.ahead fun b hb => ⟨node, rfl, hnode b hb⟩

private theorem depth_lt_parameter {param : Parameter} (he : e ∈ param.exprs) :
    e.depth < param.pieces.length := by
  have hoptional (mark : Piece) (x : Option Expr) (he : e ∈ x.toList) :
      e.depth < (optionalPieces mark Expr.item x).length := by
    have hitem : e.depth < e.item.length := depth_lt_written e 1
    rw [Option.mem_toList.mp he]
    exact Nat.lt_succ_of_lt hitem
  cases param with
  | normal id hint default =>
    simp only [Parameter.pieces, List.length_cons, List.length_append]
    rcases List.mem_append.mp he with he | he
    · have := hoptional Symbol.colon.piece hint he
      omega
    · have := hoptional Symbol.equals.piece default he
      omega
  | varArgs id hint | kwArgs id hint =>
    have := hoptional Symbol.colon.piece hint he
    simp only [Parameter.pieces, List.length_cons]
    omega
  | keywordMarker | positionalMarker => cases he

private theorem length_le_between {ι : Type} (mark : Piece) (pieces : ι → List Piece) {x : ι}
    {xs : List ι} (hx : x ∈ xs) : (pieces x).length ≤ (between mark pieces xs).length := by
  have hbehind (ys : List ι) (hx : x ∈ ys) :
      (pieces x).length ≤ (behindEach mark pieces ys).length := by
    induction ys with
    | nil => cases hx
    | cons y ys ih =>
      simp only [behindEach, List.length_cons, List.length_append]
      rcases List.mem_cons.mp hx with rfl | hx
      · omega
      · have := ih hx
        omega
  cases xs with
  | nil => cases hx
  | cons y ys =>
    rw [between, List.length_append]
    rcases List.mem_cons.mp hx with rfl | hx
    · omega
    · have := hbehind ys hx
      omega

private theorem begins_parameter (param : Parameter) : ∃ p ps, param.pieces = p :: ps ∧
    p.kind ≠ .symbol .closeParen ∧ p.kind.endsLine = false := by
  cases param <;> exact ⟨_, _, rfl, nofun, rfl⟩

/-- The parameters of a function, up to the closing parenthesis. -/
theorem yields_parameters {params : List Parameter}
    (hs : s.ahead = between Symbol.comma.piece Parameter.pieces params ++
      Symbol.closeParen.piece :: rest)
    (hdepth : Shallow (params.flatMap Parameter.exprs)) :
    Yields (inStatement fun n => parameters n Symbol.closeParen true) s
      (Symbol.closeParen.piece :: rest) fun b is => List.Forall₂ (Parameter.Shown b) params is := by
  refine .look (run_remaining s) (yields_list (l := .symbol .closeParen)
    ⟨fun param _ t ps ht => ?_, fun t p ps ht hp => ?_⟩ (fun param hparam t p ps ht hp => ?_) hs rfl
    nofun)
  · obtain ⟨p, others, hpieces, hclose, hline⟩ := begins_parameter param
    rw [hpieces] at ht
    exact (run_bind (run_isAt_of_ne ht hclose)).trans ((run_bind (run_atLineEnd ht)).trans
      (by rw [hline]; rfl))
  · exact (run_bind (run_isAt_of_eq ht hp)).trans (run_bind (run_atLineEnd ht))
  · refine yields_parameter (fun e he => reads_expressionAt ?_ ?_) ht hp
    · have hlength := length_le_between Symbol.comma.piece Parameter.pieces hparam
      have hpieces := depth_lt_parameter he
      rw [hs, List.length_append]
      omega
    · exact hdepth e (List.mem_flatMap.mpr ⟨param, hparam, he⟩)

/-! ## Bases -/

/-- The bases of a class, with parentheses around them or not at all. -/
theorem yields_bases {bases : Option (List Expr)} {f : List NodeId → Parser β}
    (hs : s.ahead = bases.elim [] (fun es => Symbol.openParen.piece ::
      (itemPieces es ++ [Symbol.closeParen.piece])) ++ Symbol.colon.piece :: rest)
    (hdepth : Shallow (bases.getD []))
    (hf : ∀ is t, s.Reaches (Symbol.colon.piece :: rest) t →
      (∀ b, t.arena.Extends b → ArgumentsShown b (bases.getD []) is) → Yields (f is) t qs R) :
    Yields (do
      if ← eat Symbol.openParen then
        let bases ← inStatement arguments
        let _ ← expect Symbol.closeParen
        f bases
      else f []) s qs R := by
  cases bases with
  | none =>
    have hs' : s.ahead = Symbol.colon.piece :: rest := hs
    exact .look (run_eat_of_ne hs' nofun) (hf [] s (hs' ▸ .refl s) fun _ _ => rfl)
  | some es =>
    replace hs : s.ahead = Symbol.openParen.piece ::
        (itemPieces es ++ Symbol.closeParen.piece :: Symbol.colon.piece :: rest) := by
      rw [hs]
      simp
    refine .eat hs rfl nofun fun t ht => ?_
    have hbases : Yields (inStatement arguments) t
        (Symbol.closeParen.piece :: Symbol.colon.piece :: rest)
        fun b is => ArgumentsShown b es is := by
      refine .look (run_remaining t) (yields_arguments (fun e he => reads_expressionAt ?_ ?_) ht.ahead)
      · have hle := depth_le_depths he
        have hlength := depths_le_itemPieces es
        rw [ht.ahead, List.length_append]
        omega
      · exact hdepth e he
    refine hbases.bind fun is t₁ ht₁ his => .expect ht₁.ahead rfl nofun fun t₂ ht₂ => ?_
    exact hf is t₂ (ht.trans (ht₁.trans ht₂)) fun b hb => his b (ht₂.arena.trans hb)

/-! ## Items of a `with` -/

private theorem yields_withItem {item : WithItem} (hs : s.ahead = item.pieces ++ q :: rest)
    (hq : q.kind = .symbol .comma ∨ q.kind = .symbol .colon) (hdepth : Shallow item.exprs) :
    Yields withItem s (q :: rest) fun b i => item.Shown b i := by
  have hcontinues : q.kind.continues = 0 := by rcases hq with hq | hq <;> rw [hq] <;> rfl
  have has : q.kind ≠ .keyword .asKw := by rcases hq with hq | hq <;> rw [hq] <;> exact nofun
  replace hs : s.ahead = item.context.item ++
      (optionalPieces Keyword.asKw.piece (fun e : Expr => e.written 6) item.target ++ q :: rest) :=
    hs.trans (List.append_assoc ..)
  have hs' := hs
  rw [← List.append_assoc] at hs'
  refine .startOf hs' fun n => ?_
  refine (yields_expressionBefore hs rfl hcontinues (hdepth _ (.head _))).bind fun i t ht hi => ?_
  have htarget : Yields (optional (eat Keyword.asKw) (inStatement bitOr)) t (q :: rest)
      fun b r => OptionShown b item.target r :=
    yields_optional ht.ahead has nofun fun e he _ ht' =>
      yields_bitOr ht' hcontinues (hdepth e (.tail _ (Option.mem_toList.mpr he)))
  refine htarget.bind fun r t₁ ht₁ hr => ?_
  have hchecked : (r.forM checkTarget : Parser PUnit).run t₁ = (⟨⟩, t₁) := by
    have hshown := hr t₁.arena (.refl _)
    generalize htarget : item.target = target at hshown
    cases hshown with
    | none => rfl
    | some hj => exact run_checkTarget (item.valid _ htarget) hj
  refine .look hchecked ((yields_finish ht₁.ahead _ n).mono fun b node hb hnode => ?_)
  exact ⟨i, r, hnode, hi b (ht₁.arena.trans hb), hr b hb⟩

theorem readsEach_withItem {items : List WithItem} (hdepth : Shallow (items.flatMap WithItem.exprs)) :
    ReadsEach withItem WithItem.pieces (.symbol .comma) (.symbol .colon) items
      fun b item i => item.Shown b i :=
  fun item hitem _ _ _ hs hq => yields_withItem hs hq fun e he =>
    hdepth e (List.mem_flatMap.mpr ⟨item, hitem, he⟩)

/-! ## Handlers -/

/-- Going on behind what a handler catches. -/
theorem yields_behindCaught {caught : Caught} {f : Option NodeId → Option NodeId → Parser β}
    (hs : s.ahead = caughtPieces caught ++ Symbol.colon.piece :: rest)
    (hdepth : Shallow (caughtExprs caught))
    (hf : ∀ i j t, s.Reaches (Symbol.colon.piece :: rest) t →
      (∀ b, t.arena.Extends b → CaughtShown b caught i j) → Yields (f i j) t qs R) :
    Yields (do
      let type ← optional (return !(← isAt Symbol.colon)) expression
      let caught ← optional (eat Keyword.asKw) name
      f type caught) s qs R := by
  cases caught with
  | none =>
    replace hs : s.ahead = Symbol.colon.piece :: rest := hs
    have hstop : (do return !(← isAt Symbol.colon) : Parser Bool).run s = (false, s) :=
      run_bind (run_isAt_of_eq hs rfl)
    have htype : (optional (return !(← isAt Symbol.colon)) expression).run s = (none, s) :=
      run_bind hstop
    have has : (eat Keyword.asKw).run s = (false, s) := run_eat_of_ne hs nofun
    have hname : (optional (eat Keyword.asKw) name).run s = (none, s) := run_bind has
    have hreach : s.Reaches (Symbol.colon.piece :: rest) s := hs ▸ .refl s
    exact .look htype (.look hname (hf none none s hreach fun _ _ => ⟨.none, .none⟩))
  | some caught =>
    obtain ⟨type, id⟩ := caught
    replace hs : s.ahead = type.item ++ (optionalPieces Keyword.asKw.piece
        (fun id : Identifier => [id.piece]) id ++ Symbol.colon.piece :: rest) :=
      hs.trans (List.append_assoc ..)
    obtain ⟨p, others, hs', hopens⟩ := (type.begins_written 1).ahead hs
    have hfirst : p.kind ≠ .symbol .colon := TokenKind.ne_of_opens hopens rfl
    have hgoes : (do return !(← isAt Symbol.colon) : Parser Bool).run s = (true, s) :=
      run_bind (run_isAt_of_ne hs' hfirst)
    have htype : Yields (optional (return !(← isAt Symbol.colon)) expression) s
        (optionalPieces Keyword.asKw.piece (fun id : Identifier => [id.piece]) id ++
          Symbol.colon.piece :: rest) fun b r => OptionShown b (some type) r := by
      refine .look hgoes ((yields_expressionBefore hs rfl rfl (hdepth type (.head _))).bind
        fun i t ht hi => .pure ht.ahead fun b hb => .some (hi b hb))
    refine htype.bind fun i t ht hi => ?_
    refine (yields_optionalName ht.ahead nofun nofun).bind fun j t₁ ht₁ hj => ?_
    exact hf i j t₁ (ht.trans ht₁) fun b hb => ⟨hi b (ht₁.arena.trans hb), hj b hb⟩

/-! ## Blocks -/

/-- The parser reads a block up to its end. -/
def ReadsBlock (statements : Parser (List NodeId)) (body : Body) : Prop :=
  ∀ ⦃s column rest⦄, s.ahead = body.outline.pieces column ++ Piece.dedent :: rest →
    Yields statements s (Piece.dedent :: rest) fun b is => body.Shown b is

theorem yields_colonBlock {statements : Parser (List NodeId)} {body : Body} {column extra : Nat}
    (h : ReadsBlock statements body)
    (hs : s.ahead = indented body.outline column extra rest) :
    Yields (colonBlock statements) s rest fun b is => body.Shown b is := by
  refine .expect hs rfl nofun fun t ht => .eat ht.ahead rfl nofun fun t₁ ht₁ =>
    .eat ht₁.ahead rfl nofun fun t₂ ht₂ => ?_
  refine (h ht₂.ahead).bind fun is t₃ ht₃ his => .eat ht₃.ahead rfl nofun fun t₄ ht₄ => ?_
  exact .pure ht₄.ahead fun b hb => his b (ht₄.arena.trans hb)

end LiveCheck.Parser
