import LiveCheck.Proofs.Parsing.Expressions

/-!
# Lines in lockstep

The statements that fit into a line keep two runs abreast, up to the end of the line, which they do
not pass.
-/

namespace LiveCheck.Parser

open Lockstep (Same)

variable {L : Lockstep} {α : Type} {V : α → α → List NodeId → Prop} {d m m' a : Nat}
  {s t : ParseState} {used : List NodeId} {i : NodeId} {f g : Unit → Parser α}

/-! ## Targets -/

private theorem abreast_check {x y : Parser Unit}
    (hx : ∃ findings, x.run s = ((), { s with findings := findings }) ∧
      s.findings.size ≤ findings.size)
    (hrel : ∀ ps, L.Rel s t (ps ++ used) → L.Rel (x.run s).2 (y.run t).2 (ps ++ used))
    (h : ∀ s' t', s.Before 0 s' → L.Abreast d s' t' used (f ()) (g ()) V) :
    L.Abreast d s t used (x >>= f) (y >>= g) V := by
  intro ps hps
  have hrel := hrel ps hps
  obtain ⟨findings, hrun, hle⟩ := hx
  rw [hrun] at hrel
  have hbefore : s.Before 0 { s with findings := findings } := ⟨Nat.le_refl _, hle, id⟩
  obtain ⟨qs, hv, hrel', hafter⟩ := h _ _ hbefore ps hrel
  rw [run_bind hrun, run_bind (x := y) rfl]
  exact ⟨qs, hv, hrel', (hbefore.trans hafter).mono (Nat.le_of_eq (Nat.zero_add d).symm)⟩

/-- Going on behind the check of a target. -/
theorem abreast_checkTarget (hi : i ∈ used)
    (h : ∀ s' t', s.Before 0 s' → L.Abreast d s' t' used (f ()) (g ()) V) :
    L.Abreast d s t used (checkTarget i >>= f) (checkTarget (L.node i) >>= g) V :=
  abreast_check (exists_checkTarget i s)
    (fun ps hps => L.checkTarget hps (List.mem_append_right ps hi)) h

private theorem abreast_checkPlace (hi : i ∈ used)
    (h : ∀ s' t', s.Before 0 s' → L.Abreast d s' t' used (f ()) (g ()) V) :
    L.Abreast d s t used (checkPlace i >>= f) (checkPlace (L.node i) >>= g) V :=
  abreast_check (exists_checkPlace i s)
    (fun ps hps => L.checkPlace hps (List.mem_append_right ps hi)) h

private theorem abreast_checkTargets {is : List NodeId} (his : ∀ i ∈ is, i ∈ used)
    (h : ∀ s' t', s.Before 0 s' → L.Abreast d s' t' used (f ()) (g ()) V) :
    L.Abreast d s t used (is.forM checkTarget >>= f) ((is.map L.node).forM checkTarget >>= g) V := by
  induction is generalizing s t with
  | nil => exact h s t (.refl s)
  | cons i is ih =>
    show L.Abreast d s t used ((checkTarget i >>= fun _ => is.forM checkTarget) >>= f)
      ((checkTarget (L.node i) >>= fun _ => (is.map L.node).forM checkTarget) >>= g) V
    rw [bind_assoc, bind_assoc]
    refine abreast_checkTarget (his i List.mem_cons_self) fun s' t' hb => ?_
    exact ih (fun j hj => his j (List.mem_cons_of_mem i hj)) fun s'' t'' hb' => h s'' t'' (hb.trans hb')

/-! ## Statements of a keyword -/

private theorem abreast_keywordStatement {data : NodeData} (hdata : data.isInner = true)
    (hchildren : data.children = []) (hrename : data.rename L.node = data)
    (hplain : s.token.kind.isPlain = true) :
    L.Abreast 0 s t [] (keywordStatement data) (keywordStatement data) L.Node := by
  refine .start fun a ha => .take rfl hplain fun s₁ t₁ _ _ _ => ?_
  have hfinish : L.Abreast 0 s₁ t₁ [] (finish data a) (finish (data.rename L.node) (a + L.shift))
      L.Node := Lockstep.abreast_finish data hdata ha hchildren.symm
  rwa [hrename] at hfinish

theorem abreast_starExpressions :
    L.Abreast 0 s t [] (inStatement starExpressions) (inStatement starExpressions) L.Node :=
  abreast_inStatement fun _ _ h => (from_starExpressions h).here

private theorem abreast_returnStatement (hplain : s.token.kind.isPlain = true) :
    L.Abreast 0 s t [] returnStatement returnStatement L.Node := by
  refine .start fun a ha => .take rfl hplain fun s₁ t₁ _ _ _ => ?_
  refine .bindMaybe (abreast_optional Lockstep.peeks_atExpression fun _ => abreast_starExpressions)
    fun value _ _ _ => ?_
  exact Lockstep.abreast_finish (.returnStmt value) rfl ha rfl

private theorem abreast_raiseStatement (hplain : s.token.kind.isPlain = true) :
    L.Abreast 0 s t [] raiseStatement raiseStatement L.Node := by
  refine .start fun a ha => .take rfl hplain fun s₁ t₁ _ _ _ => ?_
  refine .bindMaybe (abreast_optional Lockstep.peeks_atExpression fun _ => abreast_expression)
    fun exc s₂ t₂ _ => ?_
  rw [Option.isSome_map]
  refine abreast_optionalIf (c := 0) rfl (fun _ _ _ => abreast_expression) (Nat.zero_le _) fun cause _ _ _ => ?_
  exact Lockstep.abreast_finish (.raiseStmt exc cause) rfl ha rfl

private theorem abreast_assertStatement (hplain : s.token.kind.isPlain = true) :
    L.Abreast 0 s t [] assertStatement assertStatement L.Node := by
  refine .start fun a ha => .take rfl hplain fun s₁ t₁ _ _ _ => ?_
  refine .bindNode abreast_expression fun test s₂ t₂ _ => ?_
  refine .bindMaybe (abreast_optional_eat rfl fun _ _ _ _ => abreast_expression) fun msg _ _ _ => ?_
  exact Lockstep.abreast_finish (.assertStmt test msg) rfl ha rfl

private theorem abreast_tuple {f g : Option NodeData → Parser α}
    (hyes : ∀ elts, L.Abreast d s t elts (f (some (.tuple elts)))
      (g (some (.tuple (elts.map L.node)))) V)
    (hno : ∀ x y, (∀ elts, x ≠ some (.tuple elts)) → (∀ elts, y ≠ some (.tuple elts)) →
      L.Abreast d s t [i] (f x) (g y) V) :
    L.Abreast d s t [i] (dataOf i >>= f) (dataOf (L.node i) >>= g) V := by
  intro ps hps
  rcases L.tuple hps with ⟨elts, hdata, hdata', helts⟩ | ⟨hdata, hdata'⟩
  · exact Lockstep.Abreast.look (congrArg (·, s) hdata) (congrArg (·, t) hdata') (hyes elts) ps helts
  · exact Lockstep.Abreast.look rfl rfl (hno _ _ hdata hdata') ps hps

private theorem abreast_deleteStatement (hplain : s.token.kind.isPlain = true) :
    L.Abreast 0 s t [] deleteStatement deleteStatement L.Node := by
  refine .start fun a ha => .take rfl hplain fun s₁ t₁ _ _ _ => ?_
  refine .bindNode (abreast_inStatement fun _ _ h => (from_targetList h).here) fun i s₂ t₂ _ => ?_
  refine abreast_checkTarget List.mem_cons_self fun s₃ t₃ _ => ?_
  refine abreast_tuple (fun elts => ?_) fun x y hx hy => ?_
  · exact Lockstep.abreast_finish (.deleteStmt elts) rfl ha rfl
  · split
    case h_1 elts => exact absurd rfl (hx elts)
    case h_2 => exact Lockstep.abreast_finish (.deleteStmt [i]) rfl ha rfl

/-! ## Names -/

private theorem abreast_nameList (hstop : s.lastStop ≠ 0) :
    L.Abreast 0 s t [] nameList nameList L.Nodes := by
  refine .bindNode (Lockstep.abreast_name (.inr hstop)) fun first s₁ t₁ _ => ?_
  refine .bindNodes (abreast_afterEach (c := 0) rfl
    (fun _ _ _ hstop => Lockstep.abreast_name (.inr hstop)) (Nat.zero_le _)) fun others _ _ _ => ?_
  exact .pure ⟨rfl, rfl⟩

private theorem abreast_dottedName (h : s.token.kind = .name ∨ s.lastStop ≠ 0) :
    L.Abreast 0 s t [] dottedName dottedName L.Nodes := by
  refine .bindNode (Lockstep.abreast_name h) fun first s₁ t₁ _ => ?_
  refine .bindNodes (abreast_afterEach (c := 0) rfl
    (fun _ _ _ hstop => Lockstep.abreast_name (.inr hstop)) (Nat.zero_le _)) fun others _ _ _ => ?_
  exact .pure ⟨rfl, rfl⟩

private theorem abreast_globalStatement (hplain : s.token.kind.isPlain = true) :
    L.Abreast 0 s t [] globalStatement globalStatement L.Node := by
  refine .start fun a ha => .take rfl hplain fun s₁ t₁ _ hstop _ => ?_
  refine .bindNodes (abreast_nameList hstop) fun names _ _ _ => ?_
  exact Lockstep.abreast_finish (.globalStmt names) rfl ha rfl

private theorem abreast_nonlocalStatement (hplain : s.token.kind.isPlain = true) :
    L.Abreast 0 s t [] nonlocalStatement nonlocalStatement L.Node := by
  refine .start fun a ha => .take rfl hplain fun s₁ t₁ _ hstop _ => ?_
  refine .bindNodes (abreast_nameList hstop) fun names _ _ _ => ?_
  exact Lockstep.abreast_finish (.nonlocalStmt names) rfl ha rfl

/-! ## Imports -/

private theorem abreast_importAlias {x y : Parser (List NodeId)}
    (h : L.Abreast 0 s t [] x y L.Nodes) :
    L.Abreast 0 s t [] (importAlias x) (importAlias y) L.Node := by
  refine .start fun a ha => .bindNodes h fun path s₁ t₁ _ => ?_
  refine .bindMaybe (abreast_optional_eat rfl fun _ _ _ hstop => Lockstep.abreast_name (.inr hstop))
    fun asname _ _ _ => ?_
  exact Lockstep.abreast_finish (.importAlias path asname) rfl ha rfl

private theorem abreast_importStatement (hplain : s.token.kind.isPlain = true) :
    L.Abreast 0 s t [] importStatement importStatement L.Node := by
  refine .start fun a ha => .take rfl hplain fun s₁ t₁ _ hstop _ => ?_
  refine .bindNode (abreast_importAlias (abreast_dottedName (.inr hstop))) fun first s₂ t₂ _ => ?_
  refine .bindNodes (abreast_afterEach (c := 0) rfl
    (fun _ _ _ hstop => abreast_importAlias (abreast_dottedName (.inr hstop))) (Nat.zero_le _))
    fun others _ _ _ => ?_
  exact Lockstep.abreast_finish (.importStmt (first :: others)) rfl ha rfl

private theorem abreast_importLevelUpTo (hm : L.tokens.size ≤ m + s.cursor)
    (hm' : L.tokens.size ≤ m' + s.cursor) :
    L.Abreast 0 s t [] (importLevelUpTo m) (importLevelUpTo m') Same := by
  induction m generalizing s t m' with
  | zero => exact abreast_of_fuel 0 hm nofun
  | succ m ih =>
    refine abreast_of_fuel m' hm' fun k hk => ?_
    subst hk
    refine .kind ?_
    split
    case h_1 hk | h_2 hk =>
      refine .take hk rfl fun s₁ t₁ ⟨hc₁, _, _⟩ _ _ => ?_
      exact .bindSame (ih (by omega) (by omega)) fun _ _ _ _ => .pure ⟨rfl, rfl⟩
    case h_3 => exact .pure ⟨rfl, rfl⟩

/-- Imported names, with the bracket behind them if one was opened. -/
private def namesBehind (opened : Bool) : Parser (List NodeId) := do
  let names ← list (return !(← isAt .name)) (some <$> importAlias (return [← name]))
  if names.isEmpty then reportHere Code.expectedName none
  if opened then
    let _ ← expect Symbol.closeParen
  return names

private theorem abreast_namesBehind (opened : Bool) :
    L.Abreast 0 s t [] (namesBehind opened) (namesBehind opened) L.Nodes := by
  refine .bindNodes (abreast_list (c := 0) (Lockstep.peeks_not_isAt .name) (fun s t _ hp => ?_)
    (Nat.zero_le _)) fun names s₁ t₁ _ => ?_
  · have hk : s.token.kind = .name := beq_iff_eq.mp ((Bool.not_eq_false' ..).mp hp)
    refine .map (abreast_importAlias (.bindNode (Lockstep.abreast_name (.inl hk)) ?_))
      fun _ _ _ ⟨hj, hqs⟩ => ⟨congrArg some hj, hqs⟩
    exact fun _ _ _ _ => .pure ⟨rfl, rfl⟩
  · have hclose (s t : ParseState) : L.Abreast 0 s t names
        (do
          if opened then
            let _ ← expect Symbol.closeParen
          return names)
        (do
          if opened then
            let _ ← expect Symbol.closeParen
          return names.map L.node) L.Nodes := by
      cases opened with
      | false => exact .pure ⟨rfl, rfl⟩
      | true => exact .expect rfl fun _ _ _ _ _ => .pure ⟨rfl, rfl⟩
    cases names with
    | nil => exact .reportHere (by decide) fun s₂ t₂ _ _ _ _ _ => hclose s₂ t₂
    | cons first others => exact hclose s₁ t₁

private theorem abreast_importedNames : L.Abreast 0 s t [] importedNames importedNames L.Nodes :=
  .eat rfl (fun _ _ _ _ _ => abreast_namesBehind true) fun _ => abreast_namesBehind false

private theorem abreast_fromStatement (hplain : s.token.kind.isPlain = true) :
    L.Abreast 0 s t [] fromStatement fromStatement L.Node := by
  refine .start fun a ha => .take rfl hplain fun s₁ t₁ hb₁ hstop₁ _ => .remaining fun m m' hm hm' => ?_
  refine .bindSame (abreast_importLevelUpTo hm hm') fun level s₂ t₂ hb₂ => ?_
  have hrest (path : List NodeId) (s t : ParseState) : L.Abreast 0 s t path
      (do
        let _ ← expect Keyword.importKw
        if ← eat Symbol.star then finish (.importFrom path level [] true) a
        else
          let names ← importedNames
          finish (.importFrom path level names false) a)
      (do
        let _ ← expect Keyword.importKw
        if ← eat Symbol.star then
          finish (.importFrom (path.map L.node) level [] true) (a + L.shift)
        else
          let names ← importedNames
          finish (.importFrom (path.map L.node) level names false) (a + L.shift)) L.Node := by
    refine .expect rfl fun _ s₃ t₃ _ _ => .eat rfl (fun _ _ _ _ _ => ?_) fun _ => ?_
    · exact Lockstep.abreast_finish (.importFrom path level [] true) rfl ha (List.append_nil path).symm
    · refine .bindNodes abreast_importedNames fun names _ _ _ => ?_
      exact Lockstep.abreast_finish (.importFrom path level names false) rfl ha rfl
  refine .peek (Lockstep.peeks_isAt .name) (fun _ => ?_) fun _ => ?_
  all_goals
    split
    · exact .bindNodes (abreast_dottedName (.inr (hb₂.started hstop₁))) fun path s t _ => hrest path s t
    · exact hrest [] s₂ t₂

/-! ## Expressions and assignments -/

private theorem abreast_annotatedAssignment (ha : L.Start a) (target : NodeId) :
    L.Abreast 0 s t [target] (annotatedAssignment a target)
      (annotatedAssignment (a + L.shift) (L.node target)) L.Node := by
  refine abreast_checkPlace List.mem_cons_self fun s₁ t₁ _ => ?_
  refine .bindNode abreast_expression fun hint s₂ t₂ _ => ?_
  refine .bindMaybe (abreast_optional_eat rfl fun _ _ _ _ => abreast_starExpressions)
    fun value _ _ _ => ?_
  exact Lockstep.abreast_finish (.annAssign target hint value) rfl ha rfl

private theorem abreast_augmentedAssignment (ha : L.Start a) (target : NodeId) (op : BinaryOp)
    (hplain : s.token.kind.isPlain = true) :
    L.Abreast 0 s t [target] (augmentedAssignment a target op)
      (augmentedAssignment (a + L.shift) (L.node target) op) L.Node := by
  refine .take rfl hplain fun s₁ t₁ _ _ _ => ?_
  refine abreast_checkPlace List.mem_cons_self fun s₂ t₂ _ => ?_
  refine .bindNode abreast_starExpressions fun value _ _ _ => ?_
  exact Lockstep.abreast_finish (.augAssign target op value) rfl ha rfl

private theorem abreast_assignment (ha : L.Start a) (first : NodeId) (others : List NodeId) :
    L.Abreast 0 s t (first :: others) (assignment a first others)
      (assignment (a + L.shift) (L.node first) (others.map L.node)) L.Node := by
  have htargets : (L.node first :: others.map L.node).dropLast =
      (first :: others).dropLast.map L.node := by
    rw [← List.map_cons, List.map_dropLast]
  have hvalue : (others.map L.node).getLastD (L.node first) = L.node (others.getLastD first) := by
    simp [List.getLastD_eq_getLast?]
  have hchildren : first :: others = (first :: others).dropLast ++ [others.getLastD first] := by
    rw [← List.getLast_eq_getLastD]
    exact (List.dropLast_concat_getLast (List.cons_ne_nil first others)).symm
  rw [assignment, assignment, htargets, hvalue]
  refine abreast_checkTargets (List.dropLast_subset (first :: others)) fun s₁ t₁ _ => ?_
  exact Lockstep.abreast_finish (.assign (first :: others).dropLast (others.getLastD first)) rfl ha hchildren

private theorem abreast_expressionStatement :
    L.Abreast 0 s t [] expressionStatement expressionStatement L.Node := by
  refine .start fun a ha => .bindNode abreast_starExpressions fun first s₁ t₁ _ => ?_
  refine .eat rfl (fun s₂ t₂ _ _ _ => abreast_annotatedAssignment ha first) fun _ => .kind ?_
  split
  case h_1 op hop =>
    refine abreast_augmentedAssignment ha first op ?_
    cases hkind : s₁.token.kind <;> rw [hkind] at hop <;> first | rfl | cases hop
  case h_2 =>
    refine .isAt (fun _ => ?_) fun _ => Lockstep.abreast_finish (.exprStmt first) rfl ha rfl
    refine .bindNodes (abreast_afterEach (c := 0) rfl (fun _ _ _ _ => abreast_starExpressions)
      (Nat.zero_le _)) fun others s₂ t₂ _ => ?_
    exact abreast_assignment ha first others

/-! ## Lines -/

private theorem abreast_simpleStatement :
    L.Abreast 0 s t [] simpleStatement simpleStatement L.Node := by
  refine .kind ?_
  split
  case h_1 hk => exact abreast_keywordStatement rfl rfl rfl (by rw [hk]; rfl)
  case h_2 hk => exact abreast_keywordStatement rfl rfl rfl (by rw [hk]; rfl)
  case h_3 hk => exact abreast_keywordStatement rfl rfl rfl (by rw [hk]; rfl)
  case h_4 hk => exact abreast_returnStatement (by rw [hk]; rfl)
  case h_5 hk => exact abreast_raiseStatement (by rw [hk]; rfl)
  case h_6 hk => exact abreast_assertStatement (by rw [hk]; rfl)
  case h_7 hk => exact abreast_deleteStatement (by rw [hk]; rfl)
  case h_8 hk => exact abreast_globalStatement (by rw [hk]; rfl)
  case h_9 hk => exact abreast_nonlocalStatement (by rw [hk]; rfl)
  case h_10 hk => exact abreast_importStatement (by rw [hk]; rfl)
  case h_11 hk => exact abreast_fromStatement (by rw [hk]; rfl)
  case h_12 => exact abreast_expressionStatement

private theorem abreast_simpleStatementsUpTo (hm : L.tokens.size ≤ m + s.cursor)
    (hm' : L.tokens.size ≤ m' + s.cursor) :
    L.Abreast 0 s t [] (simpleStatementsUpTo m) (simpleStatementsUpTo m') L.Nodes := by
  induction m generalizing s t m' with
  | zero => exact abreast_of_fuel 0 hm nofun
  | succ m ih =>
    refine abreast_of_fuel m' hm' fun k hk => ?_
    subst hk
    refine .bindNode abreast_simpleStatement fun first s₁ t₁ ⟨hc₁, _, _⟩ => ?_
    refine .eat rfl (fun s₂ t₂ _ hb₂ _ => ?_) fun _ => ?_
    · have hc₂ := hb₂.cursor
      refine .peek Lockstep.peeks_atLineEnd (fun _ => .pure ⟨rfl, rfl⟩) fun _ => ?_
      exact .bindNodes (ih (by omega) (by omega)) fun others _ _ _ => .pure ⟨rfl, rfl⟩
    · exact .peek Lockstep.peeks_atLineEnd (fun _ => .pure ⟨rfl, rfl⟩) fun _ => .pure ⟨rfl, rfl⟩

/-- The statements of a logical line, without the token that ends it. -/
def lineStatements : Parser (List NodeId) := do
  let before ← problems
  let body ← simpleStatementsUpTo (← remaining)
  if !(← atLineEnd) then
    if (← problems) == before then
      let token ← current
      report Code.unexpectedToken token.span (some token.text)
    skipLine
  return body

theorem simpleLine_eq : simpleLine = do
    let body ← lineStatements
    let _ ← eat .newline
    return body := by
  rw [simpleLine, lineStatements]
  simp only [bind_assoc]
  refine bind_congr fun before => bind_congr fun m => bind_congr fun body => bind_congr fun atEnd => ?_
  cases atEnd with
  | true => rfl
  | false =>
    simp only [Bool.not_false, if_true, bind_assoc]
    refine bind_congr fun after => ?_
    split
    · simp only [bind_assoc, pure_bind]
    · simp only [bind_assoc, pure_bind]

private theorem abreast_of_lineEnd {x y : Parser α} (h : L.Abreast 0 s t used x y V)
    (hline : s.token.kind.endsLine = false) (hend : (x.run s).2.token.kind.endsLine = true) :
    L.Abreast 1 s t used x y V := by
  intro ps hps
  obtain ⟨qs, hv, hrel, hbefore⟩ := h ps hps
  refine ⟨qs, hv, hrel, ?_, hbefore.findings, hbefore.started⟩
  have hle := hbefore.cursor
  have htokens : (x.run s).2.tokens = s.tokens := (L.tokens_eq hrel).trans (L.tokens_eq hps).symm
  have hne : (x.run s).2.cursor ≠ s.cursor := by
    intro hcursor
    rw [ParseState.token, htokens, hcursor] at hend
    exact Bool.false_ne_true (hline.symm.trans hend)
  omega

theorem abreast_lineStatements (hline : s.token.kind.endsLine = false) :
    L.Abreast 1 s t [] lineStatements lineStatements L.Nodes := by
  refine .of_rel fun ps₀ hrel₀ => ?_
  refine .look (a := s.findings.size) (b := t.findings.size) rfl rfl ?_
  refine .remaining fun m m' hm hm' => ?_
  have hbody : L.Abreast 0 s t [] (simpleStatementsUpTo m) (simpleStatementsUpTo m') L.Nodes :=
    abreast_simpleStatementsUpTo hm hm'
  -- What is left of the line takes a token if there is one left.
  have hskip (is : List NodeId) (s₁ t₁ : ParseState) (hsize : s₁.findings.size ≠ 0)
      (hline₁ : s₁.token.kind.endsLine = false) : L.Abreast 1 s₁ t₁ is
      (skipLine >>= fun _ => pure is) (skipLine >>= fun _ => pure (is.map L.node)) L.Nodes :=
    .bindSameFrom (d := 0) (Nat.le_refl 1) (abreast_skipLine_there hline₁ hsize) fun _ _ _ _ => .pure ⟨rfl, rfl⟩
  have hrest (d : Nat) (is : List NodeId) (s₁ t₁ : ParseState) (hd : d ≤ 1)
      (hle : s.findings.size ≤ s₁.findings.size) (hend : s₁.token.kind.endsLine = true → d = 0) : L.Abreast d s₁ t₁ is
      (do
        if !(← atLineEnd) then
          if (← problems) == s.findings.size then
            let token ← current
            report Code.unexpectedToken token.span (some token.text)
          skipLine
        return is)
      (do
        if !(← atLineEnd) then
          if (← problems) == t.findings.size then
            let token ← current
            report Code.unexpectedToken token.span (some token.text)
          skipLine
        return is.map L.node) L.Nodes := by
    refine .peek Lockstep.peeks_atLineEnd (fun hline₁ => ?_) fun hline₁ => ?_
    · rw [hend hline₁]
      exact .pure ⟨rfl, rfl⟩
    · refine .of_rel fun ps₁ hrel₁ => ?_
      refine .look (a := s₁.findings.size) (b := t₁.findings.size) rfl rfl ?_
      have hsame : (t₁.findings.size == t.findings.size) = (s₁.findings.size == s.findings.size) := by
        have := L.problems hrel₀ hrel₁
        rw [Bool.eq_iff_iff, beq_iff_eq, beq_iff_eq]
        omega
      rw [hsame]
      split
      · refine .current fun _ htext _ _ => ?_
        rw [htext]
        refine .report (by decide) fun s₂ t₂ hsize _ _ _ htoken => ?_
        exact (hskip is s₂ t₂ hsize (htoken ▸ hline₁)).mono hd
      · rename_i hne
        have hne : s₁.findings.size ≠ s.findings.size := fun heq => hne (beq_iff_eq.mpr heq)
        exact (hskip is s₁ t₁ (by omega) hline₁).mono hd
  by_cases hend : ((simpleStatementsUpTo m).run s).2.token.kind.endsLine = true
  · refine .bindNodesFrom (d := 0) (Nat.le_refl 1) (abreast_of_lineEnd hbody hline hend)
      fun is s₁ t₁ hb₁ _ => ?_
    exact hrest 0 is s₁ t₁ (Nat.zero_le 1) hb₁.findings fun _ => rfl
  · refine .bindNodesFrom (d := 1) (Nat.le_refl 1) hbody fun is s₁ t₁ hb₁ hrun => ?_
    refine hrest 1 is s₁ t₁ (Nat.le_refl 1) hb₁.findings fun hend₁ => ?_
    rw [hrun] at hend
    exact absurd hend₁ hend

/-- The statements of a line are read up to its end. -/
theorem endsLine_lineStatements {ps : List NodeId} (h : L.Rel s t ps) :
    (lineStatements.run s).2.token.kind.endsLine = true := by
  have hproblems : problems.run s = (s.findings.size, s) := rfl
  have hremaining : remaining.run s = (s.remaining, s) := rfl
  have hfuel : L.tokens.size ≤ s.remaining + s.cursor := by
    rw [ParseState.remaining, L.tokens_eq h]
    omega
  have hbody : L.Abreast 0 s t [] (simpleStatementsUpTo s.remaining)
      (simpleStatementsUpTo s.remaining) L.Nodes := abreast_simpleStatementsUpTo hfuel hfuel
  rw [← List.append_nil ps] at h
  obtain ⟨_, -, hrel, -⟩ := hbody ps h
  generalize hrun : (simpleStatementsUpTo s.remaining).run s = result at hrel
  obtain ⟨body, s₁⟩ := result
  have hat : atLineEnd.run s₁ = (s₁.token.kind.endsLine, s₁) := rfl
  have hproblems₁ : problems.run s₁ = (s₁.findings.size, s₁) := rfl
  rw [lineStatements, run_bind hproblems, run_bind hremaining, run_bind hrun, run_bind hat]
  cases hline : s₁.token.kind.endsLine with
  | true => exact hline
  | false =>
    have hskip (s₂ : ParseState) (htokens : s₂.tokens = L.tokens) :
        ((skipLine >>= fun _ => pure body).run s₂).2.token.kind.endsLine = true := by
      have hremaining₂ : remaining.run s₂ = (s₂.remaining, s₂) := rfl
      refine endsLine_skipLineUpTo (htokens ▸ L.ended) ?_
      rw [ParseState.remaining]
      omega
    have htokens := L.tokens_eq hrel
    simp only [Bool.not_false, if_true]
    rw [run_bind hproblems₁]
    split
    · have hcurrent : current.run s₁ = (s₁.token, s₁) := rfl
      have hreport : (report Code.unexpectedToken s₁.token.span (some s₁.token.text)).run s₁ =
          ((), s₁.reported Code.unexpectedToken s₁.token.span (some s₁.token.text)) := rfl
      obtain ⟨findings, heq, -⟩ :=
        s₁.exists_reported Code.unexpectedToken s₁.token.span (some s₁.token.text)
      rw [run_bind hcurrent, run_bind hreport]
      exact hskip _ (by rw [heq]; exact htokens)
    · exact hskip s₁ htokens

end LiveCheck.Parser
