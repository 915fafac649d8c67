import LiveCheck.Proofs.Scanning.Places

/-!
# The layout of the tokens

The tokens that stand for layout follow each other in an orderly way, whatever the text is: blocks
are closed as often as they are opened, a line ends only behind a token, and nothing of layout stands
inside brackets, the end of the text apart. What is still open at the end is reported.
-/

namespace LiveCheck

namespace Token

/-- The open brackets with their offsets, the innermost first, behind one more token. An opening
bracket adds one; a closing bracket takes the innermost away if there is one. -/
def openBehind (opened : List (Symbol × Nat)) (token : Token) : List (Symbol × Nat) :=
  match token.kind with
  | .symbol mark =>
    if mark.opens then (mark, token.span.start) :: opened
    else if mark.closes then opened.tail
    else opened
  | _ => opened

/-- The brackets that are open behind some tokens, the innermost first. -/
def openBrackets (tokens : List Token) : List (Symbol × Nat) := tokens.foldl openBehind []

/-- The number of blocks that are opened. -/
def indents (tokens : List Token) : Nat := tokens.countP (·.kind == .indent)

/-- The number of blocks that are closed. -/
def dedents (tokens : List Token) : Nat := tokens.countP (·.kind == .dedent)

/-- A line ends behind a token that is not layout, a block begins and ends where a line does, and no
more blocks are closed than have been opened. -/
structure LaidOut (tokens : List Token) : Prop where
  newline : ∀ before y, before ++ [y] <+: tokens → y.kind = .newline →
    ∃ x, before.getLast? = some x ∧ x.kind.endsLine = false
  block : ∀ before y, before ++ [y] <+: tokens → y.kind = .indent ∨ y.kind = .dedent →
    ∀ x, before.getLast? = some x → x.kind.isLayout = true
  nested : ∀ before, before <+: tokens → dedents before ≤ indents before

variable {tokens : List Token} {token : Token}

@[simp] theorem openBrackets_concat :
    openBrackets (tokens ++ [token]) = openBehind (openBrackets tokens) token := by
  simp [openBrackets]

@[simp] theorem indents_concat :
    indents (tokens ++ [token]) = indents tokens + if token.kind = .indent then 1 else 0 := by
  simp [indents, List.countP_cons]

@[simp] theorem dedents_concat :
    dedents (tokens ++ [token]) = dedents tokens + if token.kind = .dedent then 1 else 0 := by
  simp [dedents, List.countP_cons]

private theorem prefix_concat {before : List Token} {y : Token}
    (h : before ++ [y] <+: tokens ++ [token]) :
    before = tokens ∧ y = token ∨ before ++ [y] <+: tokens := by
  rcases List.prefix_concat_iff.mp h with heq | h
  · obtain ⟨hbefore, hlast⟩ := List.append_inj' heq rfl
    exact .inl ⟨hbefore, List.singleton_inj.mp hlast⟩
  · exact .inr h

private theorem LaidOut.concat (h : LaidOut tokens)
    (hnewline : token.kind = .newline → ∃ x, tokens.getLast? = some x ∧ x.kind.endsLine = false)
    (hblock : token.kind = .indent ∨ token.kind = .dedent →
      ∀ x, tokens.getLast? = some x → x.kind.isLayout = true)
    (hnested : token.kind = .dedent → dedents tokens < indents tokens) :
    LaidOut (tokens ++ [token]) := by
  refine ⟨fun before y hprefix => ?_, fun before y hprefix => ?_, fun before hprefix => ?_⟩
  · rcases prefix_concat hprefix with ⟨rfl, rfl⟩ | hprefix
    · exact hnewline
    · exact h.newline before y hprefix
  · rcases prefix_concat hprefix with ⟨rfl, rfl⟩ | hprefix
    · exact hblock
    · exact h.block before y hprefix
  · rcases List.prefix_concat_iff.mp hprefix with rfl | hprefix
    · have hle := h.nested tokens (List.prefix_refl _)
      rw [dedents_concat, indents_concat]
      by_cases hkind : token.kind = .dedent
      · have hlt := hnested hkind
        simp only [hkind, if_true]
        omega
      · rw [if_neg hkind]
        omega
    · exact h.nested before hprefix

end Token

private theorem Symbol.opens_of_closes {mark : Symbol} (h : mark.closes = true) :
    mark.opens = false := by
  cases mark <;> first | rfl | cases h

private theorem TokenKind.endsLine_of_not_isLayout {kind : TokenKind} (h : kind.isLayout = false)
    (hend : kind ≠ .endOfFile) : kind.endsLine = false := by
  cases kind <;> simp_all [TokenKind.isLayout, TokenKind.endsLine]

namespace Scanner

open Token

variable {s t : Scanner} {k : Nat}

private theorem getLast?_of_lineHasTokens (h : s.lineHasTokens = true) :
    ∃ x, s.tokens.toList.getLast? = some x ∧ x.kind.isLayout = false := by
  rw [lineHasTokens, ← Array.getLast?_toList] at h
  cases hlast : s.tokens.toList.getLast? with
  | none =>
    rw [hlast] at h
    cases h
  | some x =>
    rw [hlast] at h
    exact ⟨x, rfl, by simpa using h⟩

private theorem isLayout_of_not_lineHasTokens (h : s.lineHasTokens = false) {x : Token}
    (hx : s.tokens.toList.getLast? = some x) : x.kind.isLayout = true := by
  rw [lineHasTokens, ← Array.getLast?_toList, hx] at h
  simpa using h

/-! ## While the text is scanned -/

/-- The open blocks and the open brackets are those of the tokens, the columns of the blocks grow
from zero, and there is no layout inside brackets. -/
structure Disciplined (s : Scanner) : Prop where
  laidOut : LaidOut s.tokens.toList
  rests : s.Rests
  inner : ∀ token ∈ s.tokens.toList, token.kind ≠ .endOfFile
  columns : s.indents.Pairwise (· > ·)
  outermost : s.indents.getLast? = some 0
  level : Token.indents s.tokens.toList + 1 = dedents s.tokens.toList + s.indents.length
  brackets : openBrackets s.tokens.toList = s.brackets
  depth : ∀ before y, before ++ [y] <+: s.tokens.toList → y.kind.isLayout = true →
    openBrackets before = []
  findings : ∀ finding ∈ s.findings, finding.code ≠ Code.unclosedBracket

namespace Disciplined

private theorem start (text : String) : (Scanner.start text).Disciplined := by
  have hnil (before : List Token) (y : Token) : ¬ before ++ [y] <+: (Scanner.start text).tokens.toList := by
    simp [Scanner.start]
  refine ⟨⟨fun before y h => absurd h (hnil before y), fun before y h => absurd h (hnil before y),
    fun before h => ?_⟩, rests_start text, ?_, ?_, rfl, rfl, rfl,
    fun before y h => absurd h (hnil before y), ?_⟩
  · rw [List.prefix_nil.mp h]
    exact Nat.le_refl _
  all_goals simp [Scanner.start]

section

variable (h : s.Disciplined)
include h

private theorem congr (htokens : t.tokens = s.tokens) (hindents : t.indents = s.indents)
    (hbrackets : t.brackets = s.brackets) (hrests : t.Rests)
    (hfindings : ∀ finding ∈ t.findings, finding.code ≠ Code.unclosedBracket) : t.Disciplined := by
  refine ⟨?_, hrests, ?_, ?_, ?_, ?_, ?_, ?_, hfindings⟩
  all_goals
    simp only [htokens, hindents, hbrackets]
  · exact h.laidOut
  · exact h.inner
  · exact h.columns
  · exact h.outermost
  · exact h.level
  · exact h.brackets
  · exact h.depth

private theorem push {token : Token} (htokens : t.tokens = s.tokens.push token)
    (hend : token.kind ≠ .endOfFile) (hnewline : token.kind = .newline → s.lineHasTokens = true)
    (hblock : token.kind = .indent ∨ token.kind = .dedent → s.lineHasTokens = false)
    (hbrackets : openBehind s.brackets token = t.brackets)
    (hlayout : token.kind.isLayout = true → s.brackets = []) (hcolumns : t.indents.Pairwise (· > ·))
    (houtermost : t.indents.getLast? = some 0)
    (hlevel : s.indents.length + (if token.kind = .indent then 1 else 0) =
      t.indents.length + if token.kind = .dedent then 1 else 0) (hrests : t.Rests)
    (hfindings : t.findings = s.findings) : t.Disciplined := by
  have htoList : t.tokens.toList = s.tokens.toList ++ [token] := by simp [htokens]
  have hnested : token.kind = .dedent → dedents s.tokens.toList < Token.indents s.tokens.toList := by
    intro hkind
    have hlength := h.level
    have hpos : 0 < t.indents.length :=
      List.length_pos_iff.mpr fun hnil => by rw [hnil] at houtermost; cases houtermost
    simp only [hkind, if_true, reduceCtorEq, if_false] at hlevel
    omega
  refine ⟨?_, hrests, ?_, hcolumns, houtermost, ?_, ?_, ?_, hfindings ▸ h.findings⟩
  all_goals rw [htoList]
  · refine h.laidOut.concat (fun hkind => ?_) (fun hkind x hx => ?_) hnested
    · obtain ⟨x, hx, hlayout⟩ := getLast?_of_lineHasTokens (hnewline hkind)
      have hinner := h.inner x (List.mem_of_getLast? hx)
      exact ⟨x, hx, TokenKind.endsLine_of_not_isLayout hlayout hinner⟩
    · exact isLayout_of_not_lineHasTokens (hblock hkind) hx
  · intro other hother
    rcases List.mem_append.mp hother with hother | hother
    · exact h.inner other hother
    · rwa [List.mem_singleton.mp hother]
  · have hlength := h.level
    rw [indents_concat, dedents_concat]
    omega
  · rw [openBrackets_concat, h.brackets, hbrackets]
  · intro before y hprefix hkind
    rcases prefix_concat hprefix with ⟨rfl, rfl⟩ | hprefix
    · rw [h.brackets]
      exact hlayout hkind
    · exact h.depth before y hprefix hkind

private theorem pushInner {token : Token} (htokens : t.tokens = s.tokens.push token)
    (hkind : token.kind.endsLine = false) (hbrackets : openBehind s.brackets token = t.brackets)
    (hindents : t.indents = s.indents) (hline : t.atLineStart = false)
    (hfindings : t.findings = s.findings) : t.Disciplined := by
  have hne (kind : TokenKind) (hends : kind.endsLine = true) : token.kind ≠ kind := by
    rintro rfl
    rw [hkind] at hends
    cases hends
  have hlayout : token.kind.isLayout = true → s.brackets = [] := fun hlayout =>
    absurd (TokenKind.endsLine_of_isLayout hlayout) (by simp [hkind])
  refine h.push htokens (hne _ rfl) (fun hk => absurd hk (hne _ rfl)) ?_ hbrackets hlayout
    (hindents ▸ h.columns) (hindents ▸ h.outermost) ?_ (.inside hline) hfindings
  · rintro (hk | hk)
    · exact absurd hk (hne _ rfl)
    · exact absurd hk (hne _ rfl)
  · rw [if_neg (hne _ rfl), if_neg (hne _ rfl), hindents]

private theorem le_head {column : Nat} (hcolumn : column ∈ s.indents) :
    column ≤ s.indents.headD 0 := by
  have hcolumns := h.columns
  cases hindents : s.indents with
  | nil =>
    rw [hindents] at hcolumn
    cases hcolumn
  | cons top indents =>
    rw [hindents] at hcolumn hcolumns
    rcases List.mem_cons.mp hcolumn with rfl | hcolumn
    · exact Nat.le_refl _
    · exact Nat.le_of_lt ((List.pairwise_cons.mp hcolumns).1 column hcolumn)

private theorem action (hact : s.Action t) : t.Disciplined := by
  cases hact with
  | skip n => exact h.congr rfl rfl rfl (h.rests.congr rfl rfl rfl) h.findings
  | note code n hcode =>
    refine h.congr rfl rfl rfl (h.rests.congr rfl rfl rfl) fun finding hfinding => ?_
    rcases Array.mem_push.mp hfinding with hfinding | rfl
    · exact h.findings finding hfinding
    · exact hcode
  | turn hbrackets hline => exact h.congr rfl rfl rfl (fun _ => ⟨hbrackets, hline⟩) h.findings
  | newline n hbrackets hline =>
    have hbehind : lineHasTokens { s.take .newline n with atLineStart := true } = false := by
      simp [lineHasTokens, Scanner.take, TokenKind.isLayout]
    exact h.push rfl (by simp) (fun _ => hline) (by simp) rfl (fun _ => hbrackets) h.columns h.outermost rfl
      (fun _ => ⟨hbrackets, hbehind⟩) rfl
  | indent n here hline hhere =>
    obtain ⟨hbrackets, htokens⟩ := h.rests hline
    have hbehind : lineHasTokens { s.take .indent n with indents := here :: s.indents } = false := by
      simp [lineHasTokens, Scanner.take, TokenKind.isLayout]
    have hcolumns : (here :: s.indents).Pairwise (· > ·) :=
      List.pairwise_cons.mpr ⟨fun column hcolumn =>
        Nat.lt_of_le_of_lt (h.le_head hcolumn) hhere, h.columns⟩
    have houtermost : (here :: s.indents).getLast? = some 0 := by
      rw [List.getLast?_cons, h.outermost]
      rfl
    exact h.push rfl (by simp) (by simp) (fun _ => htokens) rfl (fun _ => hbrackets) hcolumns houtermost rfl
      (fun _ => ⟨hbrackets, hbehind⟩) rfl
  | dedent top below indents hline hindents =>
    obtain ⟨hbrackets, htokens⟩ := h.rests hline
    have hbehind : lineHasTokens { s.mark .dedent with indents := below :: indents } = false := by
      simp [lineHasTokens, Scanner.mark, TokenKind.isLayout]
    have hcolumns := h.columns
    have houtermost := h.outermost
    rw [hindents] at hcolumns houtermost
    rw [List.getLast?_cons_cons] at houtermost
    refine h.push rfl (by simp) (by simp) (fun _ => htokens) rfl (fun _ => hbrackets)
      (List.pairwise_cons.mp hcolumns).2 houtermost ?_ (fun _ => ⟨hbrackets, hbehind⟩) rfl
    rw [hindents]
    rfl
  | enter => exact h.congr rfl rfl rfl (.inside rfl) h.findings
  | token kind n hline hkind hmark =>
    refine h.pushInner rfl hkind ?_ rfl hline rfl
    cases kind with
    | symbol mark =>
      obtain ⟨hopens, hcloses⟩ := hmark mark rfl
      simp [openBehind, hopens, hcloses]
      rfl
    | _ => rfl
  | opening mark hline hmark =>
    refine h.pushInner rfl rfl ?_ rfl hline rfl
    simp [openBehind, hmark]
  | closing mark hline hmark =>
    refine h.pushInner rfl rfl ?_ rfl hline rfl
    simp [openBehind, Symbol.opens_of_closes hmark, hmark]

private theorem acts (hacts : s.Acts t) : t.Disciplined := by
  induction hacts with
  | refl => exact h
  | tail _ hact ih => exact ih.action hact

end

theorem run (text : String) : (Scanner.start text).run.Disciplined :=
  (start text).acts (acts_run (rests_start text))

end Disciplined

/-! ## At the end of the text -/

/-- At the end of the text no line is open, but `k` blocks and these brackets are. -/
private structure Ending (k : Nat) (opened : List (Symbol × Nat)) (tokens : List Token) : Prop where
  laidOut : LaidOut tokens
  last : ∀ x, tokens.getLast? = some x → x.kind.isLayout = true
  level : Token.indents tokens = dedents tokens + k
  brackets : openBrackets tokens = opened

private theorem Ending.dedents {opened : List (Symbol × Nat)} (indents : List Nat)
    (h : Ending indents.length opened s.tokens.toList) :
    Ending 0 opened (indents.foldl (fun s _ => s.mark .dedent) s).tokens.toList := by
  induction indents generalizing s with
  | nil => exact h
  | cons _ indents ih =>
    have hlevel := h.level
    have htoList : (s.mark .dedent).tokens.toList =
        s.tokens.toList ++ [⟨.dedent, ⟨s.offset, s.offset⟩, ""⟩] := Array.toList_push
    rw [List.length_cons] at hlevel
    apply ih
    rw [htoList]
    refine ⟨?_, ?_, ?_, ?_⟩
    · exact h.laidOut.concat nofun (fun _ => h.last) fun _ => by omega
    · intro x hx
      rw [List.getLast?_concat] at hx
      cases hx
      rfl
    · rw [indents_concat, dedents_concat]
      simp only [reduceCtorEq, if_false, if_true]
      omega
    · rw [openBrackets_concat, h.brackets]
      rfl

private theorem Disciplined.ending (h : s.Disciplined) :
    Ending s.indents.dropLast.length s.brackets
      (if s.lineHasTokens then s.mark .newline else s).tokens.toList := by
  have hpos : 0 < s.indents.length :=
    List.length_pos_iff.mpr fun hnil => by
      have houtermost := h.outermost
      rw [hnil] at houtermost
      cases houtermost
  have hlevel := h.level
  have hlength : s.indents.dropLast.length = s.indents.length - 1 := List.length_dropLast
  cases hline : s.lineHasTokens with
  | false =>
    rw [if_neg Bool.false_ne_true]
    exact ⟨h.laidOut, fun _ hx => isLayout_of_not_lineHasTokens hline hx, by omega, h.brackets⟩
  | true =>
    obtain ⟨x, hx, hlayout⟩ := getLast?_of_lineHasTokens hline
    have hinner := h.inner x (List.mem_of_getLast? hx)
    have htoList : (s.mark .newline).tokens.toList =
        s.tokens.toList ++ [⟨.newline, ⟨s.offset, s.offset⟩, ""⟩] := Array.toList_push
    rw [if_pos rfl, htoList]
    refine ⟨?_, ?_, ?_, ?_⟩
    · exact h.laidOut.concat (fun _ => ⟨x, hx, TokenKind.endsLine_of_not_isLayout hlayout hinner⟩) nofun
        nofun
    · intro y hy
      rw [List.getLast?_concat] at hy
      cases hy
      rfl
    · rw [indents_concat, dedents_concat]
      simp only [reduceCtorEq, if_false]
      omega
    · rw [openBrackets_concat, h.brackets]
      rfl

theorem Disciplined.finish (h : s.Disciplined) :
    LaidOut s.finish.tokens.toList ∧
      Token.indents s.finish.tokens.toList = dedents s.finish.tokens.toList ∧
      openBrackets s.finish.tokens.toList = s.brackets := by
  have hmark (r : Scanner) (hr : Ending 0 s.brackets r.tokens.toList) :
      LaidOut (r.mark .endOfFile).tokens.toList ∧
        Token.indents (r.mark .endOfFile).tokens.toList = dedents (r.mark .endOfFile).tokens.toList ∧
        openBrackets (r.mark .endOfFile).tokens.toList = s.brackets := by
    have htoList : (r.mark .endOfFile).tokens.toList =
        r.tokens.toList ++ [⟨.endOfFile, ⟨r.offset, r.offset⟩, ""⟩] := Array.toList_push
    rw [htoList]
    refine ⟨hr.laidOut.concat nofun nofun nofun, ?_, ?_⟩
    · rw [indents_concat, dedents_concat]
      exact hr.level
    · rw [openBrackets_concat, hr.brackets]
      rfl
  have hending := h.ending
  simp only [Scanner.finish]
  apply hmark
  -- The problems that are added first have no influence on the tokens.
  split
  case isTrue hline =>
    have hline : s.lineHasTokens = true := hline
    rw [if_pos hline] at hending
    exact Ending.dedents _ hending
  case isFalse hline =>
    have hline : ¬ s.lineHasTokens = true := hline
    rw [if_neg hline] at hending
    exact Ending.dedents _ hending

end Scanner

open Scanner in
/-- What is true of the layout of a text. -/
structure LayoutDiscipline (text : String) : Prop where
  /-- The last token, and no other, ends the text. -/
  last : ∃ before stop, (scan text).tokens.toList = before ++ [⟨.endOfFile, stop, ""⟩] ∧
    ∀ token ∈ before, token.kind ≠ .endOfFile
  /-- All blocks that are opened are closed, -/
  balanced : Token.indents (scan text).tokens.toList = Token.dedents (scan text).tokens.toList
  /-- none of them before it is opened, lines end behind tokens, and blocks begin and end where
  lines do. -/
  laidOut : Token.LaidOut (scan text).tokens.toList
  /-- Whenever the scan has taken some steps, the columns of the open blocks grow from zero. -/
  columns : ∀ n s, Steps n (start text) s →
    s.indents.reverse.Pairwise (· < ·) ∧ s.indents.reverse.head? = some 0
  /-- No layout token stands inside brackets, those apart that are added at the end of the text. -/
  depth : ∀ before y, before ++ [y] <+: (scan text).tokens.toList →
    before.length < (start text).run.tokens.size → y.kind.isLayout = true →
      Token.openBrackets before = []
  /-- Every bracket that is still open at the end is reported where it stands, and no other. -/
  unclosed : (scan text).findings.toList.filter (·.code == Code.unclosedBracket) =
    (Token.openBrackets (scan text).tokens.toList).map fun (mark, offset) =>
      ⟨Code.unclosedBracket, ⟨offset, offset + 1⟩, some mark.text⟩

/-- **The layout of every text is balanced.** -/
theorem layout_scan (text : String) : LayoutDiscipline text := by
  have hrun := Scanner.Disciplined.run text
  obtain ⟨hlaidOut, hbalanced, hbrackets⟩ := hrun.finish
  refine ⟨(ordered_scan text).last, hbalanced, hlaidOut, fun n s hsteps => ?_,
    fun before y hprefix hlength hlayout => ?_, ?_⟩
  · have hs := (Scanner.Disciplined.start text).acts (hsteps.acts (Scanner.rests_start text)).1
    refine ⟨List.pairwise_reverse.mpr hs.columns, ?_⟩
    rw [List.head?_reverse, hs.outermost]
  · obtain ⟨t, ⟨-, new, hnew, -⟩, hfinish⟩ := (Scanner.start text).run.grows_finish
    have htokens : (Scanner.start text).run.tokens.toList <+: (scan text).tokens.toList := by
      rw [scan, hfinish, Scanner.mark, Array.toList_push, hnew, List.append_assoc]
      exact List.prefix_append _ _
    have hbefore : before ++ [y] <+: (Scanner.start text).run.tokens.toList := by
      apply List.prefix_of_prefix_length_le hprefix htokens
      rw [List.length_append, Array.length_toList]
      exact hlength
    exact hrun.depth before y hbefore hlayout
  · have hfindings : (scan text).findings.toList = _ :=
      congrArg Array.toList (Scanner.findings_finish (Scanner.start text).run)
    have hnone : (Scanner.start text).run.findings.toList.filter
        (·.code == Code.unclosedBracket) = [] := by
      apply List.filter_eq_nil_iff.mpr
      intro finding hfinding
      have hcode := hrun.findings finding (Array.mem_toList_iff.mp hfinding)
      simpa using hcode
    have hopened : Token.openBrackets (scan text).tokens.toList =
        (Scanner.start text).run.brackets := hbrackets
    rw [hfindings, hopened, Array.toList_append, List.filter_append, hnone, List.nil_append]
    apply List.filter_eq_self.mpr
    intro finding hfinding
    obtain ⟨bracket, -, rfl⟩ := List.mem_map.mp hfinding
    rfl

end LiveCheck
