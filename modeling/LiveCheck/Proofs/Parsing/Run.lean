import LiveCheck.Tree.Basic

/-!
# Runs of a parser

What the elementary parsers do to a state, said by equations.
-/

namespace LiveCheck

namespace ParseState

/-- The next token. -/
def token (s : ParseState) : Token :=
  (s.tokens[s.cursor]?.or s.tokens.back?).getD ⟨.endOfFile, ⟨0, 0⟩, ""⟩

/-- The kind of the token behind the next one. -/
def nextKind (s : ParseState) : TokenKind :=
  (s.tokens[s.cursor + 1]?.map (·.kind)).getD .endOfFile

/-- The state behind a token that is not layout. -/
def taken (s : ParseState) : ParseState :=
  { s with cursor := s.cursor + 1, lastStop := s.token.span.stop }

/-- The state behind a token that is layout. -/
def passed (s : ParseState) : ParseState := { s with cursor := s.cursor + 1 }

/-- The state with a problem on record. -/
def reported (s : ParseState) (code : Nat) (span : Span) (arg : Option String) : ParseState :=
  ((Parser.report code span arg).run s).2

/-- The second state comes at least `d` tokens after the first. Problems stay on record, and a token
that was taken stays taken. -/
structure Before (d : Nat) (s t : ParseState) : Prop where
  cursor : s.cursor + d ≤ t.cursor
  findings : s.findings.size ≤ t.findings.size
  started : s.lastStop ≠ 0 → t.lastStop ≠ 0

variable {s t r : ParseState} {d e : Nat}

theorem Before.refl (s : ParseState) : s.Before 0 s := ⟨Nat.le_refl _, Nat.le_refl _, id⟩

theorem Before.trans (h : s.Before d t) (h' : t.Before e r) : s.Before (d + e) r where
  cursor := by
    have := h.cursor
    have := h'.cursor
    omega
  findings := Nat.le_trans h.findings h'.findings
  started := h'.started ∘ h.started

theorem Before.mono (h : s.Before d t) (hd : e ≤ d) : s.Before e t :=
  ⟨Nat.le_trans (Nat.add_le_add_left hd _) h.cursor, h.findings, h.started⟩

/-- The second state stands at the token behind the next one of the first. -/
def Next (s t : ParseState) : Prop := s.nextKind ≠ .endOfFile → t.token.kind = s.nextKind

theorem Next.of_eq (htokens : t.tokens = s.tokens) (hcursor : t.cursor = s.cursor + 1) :
    s.Next t := by
  intro hne
  have htoken : t.token =
      (t.tokens[t.cursor]?.or t.tokens.back?).getD ⟨.endOfFile, ⟨0, 0⟩, ""⟩ := rfl
  have hnext : s.nextKind = (s.tokens[s.cursor + 1]?.map (·.kind)).getD .endOfFile := rfl
  rw [htoken, htokens, hcursor, hnext]
  cases hget : s.tokens[s.cursor + 1]? with
  | some token => rfl
  | none =>
    rw [hnext, hget] at hne
    exact absurd rfl hne

/-- A problem is not recorded if the latest one has the same number and offset. -/
theorem reported_eq_if (s : ParseState) (code : Nat) (span : Span) (arg : Option String) :
    s.reported code span arg =
      if s.findings.back?.any fun last => last.span.start == span.start && last.code == code then s
      else { s with findings := s.findings.push ⟨code, span, arg⟩ } := by
  cases hlast : s.findings.back? with
  | none => simp [reported, Parser.report, hlast, pure]
  | some last => simp [reported, Parser.report, hlast, pure]

private theorem reported_eq (s : ParseState) (code : Nat) (span : Span) (arg : Option String) :
    s.reported code span arg = { s with findings := s.findings.push ⟨code, span, arg⟩ } ∨
      s.reported code span arg = s ∧
        ∃ last, s.findings.back? = some last ∧ last.span.start = span.start ∧ last.code = code := by
  rw [reported_eq_if]
  split
  · rename_i hsame
    cases hlast : s.findings.back? with
    | none =>
      rw [hlast] at hsame
      cases hsame
    | some last =>
      rw [hlast, Option.any_some, Bool.and_eq_true, beq_iff_eq, beq_iff_eq] at hsame
      exact .inr ⟨rfl, last, rfl, hsame⟩
  · exact .inl rfl

/-- Recording a problem changes nothing else, and a problem is on record then. -/
theorem exists_reported (s : ParseState) (code : Nat) (span : Span) (arg : Option String) :
    ∃ findings, s.reported code span arg = { s with findings := findings } ∧
      s.findings.size ≤ findings.size ∧ findings.size ≠ 0 := by
  rcases s.reported_eq code span arg with h | ⟨h, last, hlast, -⟩
  · exact ⟨_, h, by simp, by simp⟩
  · refine ⟨s.findings, h, Nat.le_refl _, fun hsize => ?_⟩
    rw [Array.eq_empty_of_size_eq_zero hsize] at hlast
    cases hlast

theorem lastStop_reported (s : ParseState) (code : Nat) (span : Span) (arg : Option String) :
    (s.reported code span arg).lastStop = s.lastStop := by
  obtain ⟨findings, h, -⟩ := s.exists_reported code span arg
  rw [h]

theorem before_reported (s : ParseState) (code : Nat) (span : Span) (arg : Option String) :
    s.Before 0 (s.reported code span arg) := by
  obtain ⟨findings, h, hle, -⟩ := s.exists_reported code span arg
  rw [h]
  exact ⟨Nat.le_refl _, hle, id⟩

theorem size_findings_reported (s : ParseState) (code : Nat) (span : Span) (arg : Option String) :
    (s.reported code span arg).findings.size ≠ 0 := by
  obtain ⟨findings, h, -, hne⟩ := s.exists_reported code span arg
  rw [h]
  exact hne

/-- The last token is the end of the text. -/
def Ended (tokens : Array Token) : Prop := tokens.back?.map (·.kind) = some .endOfFile

/-- Within the tokens the next one is that at the cursor. -/
theorem token_eq (h : s.cursor < s.tokens.size) : s.token = s.tokens[s.cursor] := by
  have htoken : s.token =
      (s.tokens[s.cursor]?.or s.tokens.back?).getD ⟨.endOfFile, ⟨0, 0⟩, ""⟩ := rfl
  rw [htoken, Array.getElem?_eq_getElem h]
  rfl

theorem take_succ (h : s.cursor < s.tokens.size) :
    s.tokens.toList.take (s.cursor + 1) = s.tokens.toList.take s.cursor ++ [s.token] := by
  rw [List.take_add_one, Array.getElem?_toList, Array.getElem?_eq_getElem h, token_eq h]
  rfl

private theorem drop_eq (h : s.cursor < s.tokens.size) :
    s.tokens.toList.drop s.cursor = s.token :: s.tokens.toList.drop (s.cursor + 1) := by
  rw [token_eq h, List.drop_eq_getElem_cons (by rwa [Array.length_toList]), Array.getElem_toList]

/-- The end of the text is behind every other token. -/
theorem succ_lt_size (h : Ended s.tokens) (hlt : s.cursor < s.tokens.size)
    (hk : s.token.kind ≠ .endOfFile) : s.cursor + 1 < s.tokens.size := by
  refine Nat.lt_of_le_of_ne hlt fun hend => hk ?_
  have hcursor : s.tokens.size - 1 = s.cursor := by omega
  rw [Ended, Array.back?_eq_getElem?, hcursor, Array.getElem?_eq_getElem hlt, ← token_eq hlt] at h
  exact Option.some.inj h

/-- The string literals at the cursor. -/
def literals (s : ParseState) : List Token :=
  (s.tokens.toList.drop s.cursor).takeWhile fun token =>
    token.kind == .string || token.kind == .bytes

/-- The state behind the string literals at the cursor. -/
def behindLiterals (s : ParseState) : ParseState :=
  { s with
    cursor := s.cursor + s.literals.length
    lastStop := (s.literals.getLast?.map (·.span.stop)).getD s.lastStop }

theorem isLiteral_of_mem {token : Token} (h : token ∈ s.literals) :
    token.kind = .string ∨ token.kind = .bytes := by
  have hk := List.all_eq_true.mp List.all_takeWhile token h
  rwa [Bool.or_eq_true, beq_iff_eq, beq_iff_eq] at hk

theorem literals_cons (hlt : s.cursor < s.tokens.size)
    (hk : s.token.kind = .string ∨ s.token.kind = .bytes) :
    s.literals = s.token :: s.taken.literals := by
  rw [literals, drop_eq hlt, List.takeWhile_cons, if_pos]
  · rfl
  · rwa [Bool.or_eq_true, beq_iff_eq, beq_iff_eq]

theorem literals_eq_nil (hlt : s.cursor < s.tokens.size) (hstring : s.token.kind ≠ .string)
    (hbytes : s.token.kind ≠ .bytes) : s.literals = [] := by
  rw [literals, drop_eq hlt, List.takeWhile_cons, if_neg]
  rw [Bool.or_eq_true, beq_iff_eq, beq_iff_eq]
  exact fun hk => hk.elim hstring hbytes

theorem behindLiterals_cons (hlt : s.cursor < s.tokens.size)
    (hk : s.token.kind = .string ∨ s.token.kind = .bytes) :
    s.behindLiterals = s.taken.behindLiterals := by
  have hliterals := literals_cons hlt hk
  have hcursor : s.cursor + s.literals.length = s.taken.cursor + s.taken.literals.length := by
    rw [hliterals, List.length_cons]
    exact (Nat.succ_add_eq_add_succ _ _).symm
  have hstop : (s.literals.getLast?.map (·.span.stop)).getD s.lastStop =
      (s.taken.literals.getLast?.map (·.span.stop)).getD s.taken.lastStop := by
    rw [hliterals, List.getLast?_cons]
    cases s.taken.literals.getLast? <;> rfl
  rw [behindLiterals, hcursor, hstop]
  rfl

theorem behindLiterals_eq_self (h : s.literals = []) : s.behindLiterals = s := by
  rw [behindLiterals, h]
  rfl

theorem take_literals (s : ParseState) :
    s.tokens.toList.take (s.cursor + s.literals.length) =
      s.tokens.toList.take s.cursor ++ s.literals := by
  rw [List.take_add]
  exact congrArg _ (List.prefix_iff_eq_take.mp (List.takeWhile_prefix _)).symm

/-- The end of the text is behind the string literals. -/
theorem add_literals_lt (h : Ended s.tokens) (hlt : s.cursor < s.tokens.size) :
    s.cursor + s.literals.length < s.tokens.size := by
  obtain ⟨last, hlast, hk⟩ := Option.map_eq_some_iff.mp h
  have hmem : (s.tokens.toList.drop s.cursor).getLast? = some last := by
    rw [List.getLast?_drop, Array.length_toList, if_neg (Nat.not_le.mpr hlt),
      List.getLast?_eq_getElem?, Array.length_toList, Array.getElem?_toList,
      ← Array.back?_eq_getElem?]
    exact hlast
  have hne : s.literals ≠ s.tokens.toList.drop s.cursor := by
    intro heq
    rcases isLiteral_of_mem (List.mem_of_getLast? (heq ▸ hmem)) with hbad | hbad
    all_goals
      rw [hk] at hbad
      cases hbad
  have hleading : s.literals <+: s.tokens.toList.drop s.cursor := List.takeWhile_prefix _
  have hlength : s.literals.length < (s.tokens.toList.drop s.cursor).length :=
    Nat.lt_of_le_of_ne hleading.length_le fun heq => hne (hleading.eq_of_length heq)
  have hsize : s.tokens.toList.length = s.tokens.size := Array.length_toList
  rw [List.length_drop, hsize] at hlength
  omega

/-- Every token that is not layout ends behind the beginning of the text. -/
def Stopping (tokens : Array Token) : Prop :=
  ∀ token ∈ tokens, token.kind.endsLine = false → token.span.stop ≠ 0

/-- The next token is one of the text unless it is the end of the text. -/
theorem token_mem (h : s.token.kind ≠ .endOfFile) : s.token ∈ s.tokens := by
  have heq : s.token = (s.tokens[s.cursor]?.or s.tokens.back?).getD ⟨.endOfFile, ⟨0, 0⟩, ""⟩ := rfl
  cases hget : s.tokens[s.cursor]? with
  | some token =>
    rw [heq, hget]
    exact Array.mem_of_getElem? hget
  | none =>
    cases hback : s.tokens.back? with
    | some token =>
      rw [heq, hget, hback]
      exact Array.mem_of_back? hback
    | none =>
      rw [heq, hget, hback] at h
      exact absurd rfl h

theorem stop_ne (hs : Stopping s.tokens) (h : s.token.kind.endsLine = false) :
    s.token.span.stop ≠ 0 := by
  refine hs _ (token_mem fun heof => ?_) h
  rw [heof] at h
  cases h

private theorem before_taken (hs : Stopping s.tokens) (h : s.token.kind.endsLine = false) :
    s.Before 1 s.taken := ⟨Nat.le_refl _, Nat.le_refl _, fun _ => stop_ne hs h⟩

end ParseState

variable {k : TokenKind}

namespace TokenKind

/-- Reserved words and symbols. -/
def isPlain : TokenKind → Bool
  | .keyword _ | .symbol _ => true
  | _ => false

/-- Names and values: what a tree has to show. -/
def isContent : TokenKind → Bool
  | .name | .int | .float | .complex | .string | .bytes => true
  | _ => false

theorem endsLine_of_isPlain (h : k.isPlain = true) : k.endsLine = false := by
  cases k <;> first | rfl | cases h

theorem isContent_of_isPlain (h : k.isPlain = true) : k.isContent = false := by
  cases k <;> first | rfl | cases h

theorem endsLine_eq_false (hend : k ≠ .endOfFile) (hnewline : k ≠ .newline) (hindent : k ≠ .indent)
    (hdedent : k ≠ .dedent) : k.endsLine = false := by
  cases k <;> first | rfl | contradiction

end TokenKind

namespace Parser

variable {α β : Type} {s t : ParseState} {fuel : Nat}

/-- One parser behind another one goes on where that ended. -/
theorem run_bind {x : Parser α} {f : α → Parser β} {a : α} (h : x.run s = (a, t)) :
    (x >>= f).run s = (f a).run t := by
  rw [StateT.run_bind, h]
  rfl

/-- A token of a line is taken. -/
theorem run_bump_of_inLine (h : s.token.kind.endsLine = false) :
    bump.run s = (s.token, s.taken) := by
  have hcurrent : current.run s = (s.token, s) := rfl
  refine (run_bind hcurrent).trans ?_
  cases hk : s.token.kind <;> rw [hk] at h <;> first | rfl | cases h

/-- A token of the layout is passed. -/
theorem run_bump_of_isLayout (h : s.token.kind.isLayout = true) :
    bump.run s = (s.token, s.passed) := by
  have hcurrent : current.run s = (s.token, s) := rfl
  refine (run_bind hcurrent).trans ?_
  cases hk : s.token.kind <;> rw [hk] at h <;> first | rfl | cases h

/-- A token of another kind is left. -/
theorem run_eat_of_not (k : TokenKind) (h : s.token.kind ≠ k) : (eat k).run s = (false, s) := by
  have hat : (isAt k).run s = (false, s) :=
    congrArg (·, s) (beq_eq_false_iff_ne.mpr h)
  exact run_bind hat

theorem run_eat_inLine (h : s.token.kind = k) (hk : k.endsLine = false) :
    (eat k).run s = (true, s.taken) := by
  have hat : (isAt k).run s = (true, s) := congrArg (·, s) (beq_iff_eq.mpr h)
  exact (run_bind hat).trans (run_bind (run_bump_of_inLine (h ▸ hk)))

theorem run_eat_isLayout (h : s.token.kind = k) (hk : k.isLayout = true) :
    (eat k).run s = (true, s.passed) := by
  have hat : (isAt k).run s = (true, s) := congrArg (·, s) (beq_iff_eq.mpr h)
  exact (run_bind hat).trans (run_bind (run_bump_of_isLayout (h ▸ hk)))

/-- Skipping a line leads to its end. -/
theorem endsLine_skipLineUpTo (hend : ParseState.Ended s.tokens)
    (hfuel : s.tokens.size ≤ fuel + s.cursor) :
    ((skipLineUpTo fuel).run s).2.token.kind.endsLine = true := by
  induction fuel generalizing s with
  | zero =>
    obtain ⟨last, hlast, hk⟩ := Option.map_eq_some_iff.mp hend
    have hnone : s.tokens[s.cursor]? = none :=
      Array.getElem?_eq_none (Nat.le_trans hfuel (Nat.le_of_eq (Nat.zero_add _)))
    show ((s.tokens[s.cursor]?.or s.tokens.back?).getD ⟨.endOfFile, ⟨0, 0⟩, ""⟩).kind.endsLine = true
    rw [hnone, hlast]
    show last.kind.endsLine = true
    rw [hk]
    rfl
  | succ fuel ih =>
    have hat : atLineEnd.run s = (s.token.kind.endsLine, s) := rfl
    rw [skipLineUpTo, run_bind hat]
    cases hline : s.token.kind.endsLine with
    | true => exact hline
    | false =>
      simp only [Bool.false_eq_true, if_false]
      rw [run_bind (run_bump_of_inLine hline)]
      refine ih hend ?_
      show s.tokens.size ≤ fuel + (s.cursor + 1)
      omega

/-! ## Parsers of a single node -/

theorem before_finish (data : NodeData) (a : Nat) (s : ParseState) :
    s.Before 0 ((finish data a).run s).2 := ⟨Nat.le_refl _, Nat.le_refl _, id⟩

/-- A node joins the arena. -/
theorem run_finish (data : NodeData) (a : Nat) (s : ParseState) :
    (finish data a).run s = ((s.arena.add data ⟨a, max s.lastStop a⟩).1,
      { s with arena := (s.arena.add data ⟨a, max s.lastStop a⟩).2 }) := rfl

/-- The arena behind a name. -/
def named (a : Arena) (token : Token) : NodeId × Arena :=
  ({ a with names := (a.names.insert token.text).2 } : Arena).add
    (.name (a.names.insert token.text).1) token.span

/-- A name that is there is taken, and its node joins the arena. -/
theorem run_name (hk : s.token.kind = .name) :
    name.run s = ((named s.arena s.token).1, { s.taken with arena := (named s.arena s.token).2 }) := by
  have hcurrent : current.run s = (s.token, s) := rfl
  have hline : s.token.kind.endsLine = false := by rw [hk]; rfl
  rw [name, run_bind hcurrent, if_pos (beq_iff_eq.mpr hk), run_bind (run_bump_of_inLine hline)]
  rfl

/-- A malformed node stands in for a name that is missing. -/
theorem run_name_of_ne (hk : s.token.kind ≠ .name) :
    let r := s.reported Code.expectedName s.token.span none
    name.run s = ((r.arena.add .malformed ⟨r.lastStop, r.lastStop⟩).1,
      { r with arena := (r.arena.add .malformed ⟨r.lastStop, r.lastStop⟩).2 }) := by
  have hcurrent : current.run s = (s.token, s) := rfl
  rw [name, run_bind hcurrent, if_neg (hk ∘ beq_iff_eq.mp)]
  rfl

theorem run_constant (h : s.token.kind.endsLine = false) (kind : ConstantKind) :
    (constant kind).run s = (finish (.constant kind none) s.token.span.start).run s.taken := by
  have hstart : start.run s = (s.token.span.start, s) := rfl
  rw [constant, run_bind hstart, run_bind (run_bump_of_inLine h)]

theorem before_name (hs : ParseState.Stopping s.tokens) : s.Before 0 (name.run s).2 := by
  by_cases hk : s.token.kind = .name
  · have h := ParseState.before_taken hs (show s.token.kind.endsLine = false by rw [hk]; rfl)
    rw [run_name hk]
    exact ⟨Nat.le_trans (Nat.le_succ _) h.cursor, h.findings, h.started⟩
  · have h := s.before_reported Code.expectedName s.token.span none
    rw [run_name_of_ne hk]
    exact { h with }

theorem before_constant (hs : ParseState.Stopping s.tokens) (h : s.token.kind.endsLine = false)
    (kind : ConstantKind) : s.Before 0 ((constant kind).run s).2 := by
  rw [run_constant h]
  exact ((ParseState.before_taken hs h).trans (before_finish _ _ _)).mono (Nat.zero_le _)

private theorem run_stringValuesUpTo (hend : ParseState.Ended s.tokens)
    (hlt : s.cursor < s.tokens.size)
    (hfuel : s.remaining ≤ fuel) :
    (stringValuesUpTo fuel).run s =
      ((s.literals.map fun token => StringLiteral.decode token.text).foldr (· ++ ·) "",
        s.behindLiterals) := by
  induction fuel generalizing s with
  | zero =>
    rw [ParseState.remaining] at hfuel
    omega
  | succ fuel ih =>
    have hkind : kind.run s = (s.token.kind, s) := rfl
    have htake (hk : s.token.kind = .string ∨ s.token.kind = .bytes) : (do
          let token ← bump
          let others ← stringValuesUpTo fuel
          return StringLiteral.decode token.text ++ others : Parser String).run s =
        ((s.literals.map fun token => StringLiteral.decode token.text).foldr (· ++ ·) "",
          s.behindLiterals) := by
      have hline : s.token.kind.endsLine = false := by rcases hk with hk | hk <;> rw [hk] <;> rfl
      have hliterals := ParseState.literals_cons hlt hk
      have hlt' : s.cursor + 1 < s.tokens.size :=
        ParseState.succ_lt_size hend hlt (by rcases hk with hk | hk <;> rw [hk] <;> nofun)
      have hfuel' : s.taken.remaining ≤ fuel := by
        rw [ParseState.remaining] at hfuel ⊢
        show s.tokens.size - (s.cursor + 1) ≤ fuel
        omega
      rw [run_bind (run_bump_of_inLine hline), run_bind (ih (s := s.taken) hend hlt' hfuel'), hliterals,
        ParseState.behindLiterals_cons hlt hk]
      rfl
    rw [stringValuesUpTo, run_bind hkind]
    split
    case h_1 hk => exact htake (.inl hk)
    case h_2 hk => exact htake (.inr hk)
    case h_3 hstring hbytes =>
      have hnil := ParseState.literals_eq_nil hlt hstring hbytes
      rw [ParseState.behindLiterals_eq_self hnil, hnil]
      rfl

/-- String literals in a row make one constant. -/
theorem run_strings (hend : ParseState.Ended s.tokens) (hlt : s.cursor < s.tokens.size) :
    strings.run s = (finish
      (.constant (if s.token.kind == .bytes then .bytes else .string)
        (some ((s.literals.map fun token => StringLiteral.decode token.text).foldr (· ++ ·) "")))
      s.token.span.start).run s.behindLiterals := by
  have hstart : start.run s = (s.token.span.start, s) := rfl
  have hat : (isAt .bytes).run s = (s.token.kind == .bytes, s) := rfl
  have hremaining : remaining.run s = (s.remaining, s) := rfl
  rw [strings, run_bind hstart, run_bind hat, run_bind hremaining,
    run_bind (run_stringValuesUpTo hend hlt (Nat.le_refl _))]

private theorem before_behindLiterals (hs : ParseState.Stopping s.tokens) :
    s.Before 0 s.behindLiterals where
  cursor := Nat.le_add_right _ _
  findings := Nat.le_refl _
  started := by
    intro hstarted
    show (s.literals.getLast?.map (·.span.stop)).getD s.lastStop ≠ 0
    cases hlast : s.literals.getLast? with
    | none => exact hstarted
    | some last =>
      have hmem := List.mem_of_getLast? hlast
      have htoken := List.mem_of_mem_drop ((List.takeWhile_sublist _).subset hmem)
      refine hs last (Array.mem_toList_iff.mp htoken) ?_
      rcases ParseState.isLiteral_of_mem hmem with hk | hk <;> rw [hk] <;> rfl

theorem before_strings (hs : ParseState.Stopping s.tokens) (hend : ParseState.Ended s.tokens)
    (hlt : s.cursor < s.tokens.size) : s.Before 0 (strings.run s).2 := by
  rw [run_strings hend hlt]
  exact (before_behindLiterals hs).trans (before_finish _ _ _)

/-! ## Targets -/

/-- Looking at a target changes nothing but the problems. -/
theorem exists_checkTargetUpTo (fuel : Nat) (target : NodeId) (s : ParseState) :
    ∃ findings, (checkTargetUpTo fuel target).run s = ((), { s with findings := findings }) ∧
      s.findings.size ≤ findings.size := by
  induction fuel generalizing target s with
  | zero => exact ⟨s.findings, rfl, Nat.le_refl _⟩
  | succ fuel ih =>
    have hdata : (dataOf target).run s = (s.arena.data? target, s) := rfl
    have heach (elts : List NodeId) : ∃ findings,
        (elts.forM (checkTargetUpTo fuel)).run s = ((), { s with findings := findings }) ∧
          s.findings.size ≤ findings.size := by
      induction elts generalizing s with
      | nil => exact ⟨s.findings, rfl, Nat.le_refl _⟩
      | cons elt elts iheach =>
        obtain ⟨findings, hrun, hle⟩ := ih elt s
        obtain ⟨findings', hrun', hle'⟩ := iheach { s with findings := findings } rfl
        exact ⟨findings', (run_bind hrun).trans hrun', Nat.le_trans hle hle'⟩
    rw [checkTargetUpTo, run_bind hdata]
    split
    case h_6 elts _ | h_7 elts _ => exact heach elts
    case h_8 value _ => exact ih value s
    case h_9 =>
      have hget : (get : Parser ParseState).run s = (s, s) := rfl
      rw [run_bind hget]
      obtain ⟨findings, heq, hle, -⟩ :=
        s.exists_reported Code.invalidAssignmentTarget (s.arena.span target) none
      exact ⟨findings, congrArg (((), ·)) heq, hle⟩
    all_goals exact ⟨s.findings, rfl, Nat.le_refl _⟩

/-- To check a target at most adds a problem. -/
theorem exists_checkTarget (target : NodeId) (s : ParseState) :
    ∃ findings, (checkTarget target).run s = ((), { s with findings := findings }) ∧
      s.findings.size ≤ findings.size := by
  have hget : (get : Parser ParseState).run s = (s, s) := rfl
  rw [checkTarget, run_bind hget]
  exact exists_checkTargetUpTo s.arena.size target s

/-- To check a place at most adds a problem. -/
theorem exists_checkPlace (target : NodeId) (s : ParseState) :
    ∃ findings, (checkPlace target).run s = ((), { s with findings := findings }) ∧
      s.findings.size ≤ findings.size := by
  have hdata : (dataOf target).run s = (s.arena.data? target, s) := rfl
  have hget : (get : Parser ParseState).run s = (s, s) := rfl
  rw [checkPlace, run_bind hdata]
  cases hplace : ((s.arena.data? target).map NodeData.isPlace).getD false with
  | true => exact ⟨s.findings, rfl, Nat.le_refl _⟩
  | false =>
    simp only [Bool.not_false, if_true]
    rw [run_bind hget]
    obtain ⟨findings, heq, hle, -⟩ :=
      s.exists_reported Code.invalidAssignmentTarget (s.arena.span target) none
    exact ⟨findings, congrArg (((), ·)) heq, hle⟩

end Parser
end LiveCheck
