import LiveCheck.Proofs.Scanning.Parts
import Mathlib.Logic.Relation

/-!
# The actions of a scan

A step of a scan (`Scanner.advance`) is a sequence of actions: characters without meaning are
skipped, a token is taken, a block is opened or closed, a problem is noted. Each action says when it
is taken, so that what a whole scan preserves is proved action by action.
-/

namespace LiveCheck

open Text

/-- Characters that carry no meaning, and what stands behind them: margins, line ends, comments that
run to the end of their line, and line ends behind a backslash. -/
inductive Filler : List Char → List Char → Prop
  | nil (behind : List Char) : Filler [] behind
  | margin {c : Char} {cs behind : List Char} (hc : Scanner.isMargin c = true)
    (h : Filler cs behind) : Filler (c :: cs) behind
  | lineEnd {c : Char} {cs behind : List Char} (hc : Scanner.isLineEnd c = true)
    (h : Filler cs behind) : Filler (c :: cs) behind
  | comment {words cs behind : List Char} (hwords : ∀ c ∈ words, Scanner.isLineEnd c = false)
    (hend : ∀ c, (cs ++ behind).head? = some c → Scanner.isLineEnd c = true)
    (h : Filler cs behind) : Filler ('#' :: words ++ cs) behind
  | continuation {c : Char} {cs behind : List Char} (hc : Scanner.isLineEnd c = true)
    (h : Filler cs behind) : Filler ('\\' :: c :: cs) behind

namespace Filler

variable {cs ds behind : List Char}

theorem append (h : Filler cs (ds ++ behind)) (h' : Filler ds behind) :
    Filler (cs ++ ds) behind := by
  generalize heq : ds ++ behind = behind' at h
  induction h with
  | nil => exact h'
  | margin hc _ ih => exact .margin hc (ih heq)
  | lineEnd hc _ ih => exact .lineEnd hc (ih heq)
  | @comment words cs _ hwords hend _ ih =>
    have hend' : ∀ c, ((cs ++ ds) ++ behind).head? = some c → Scanner.isLineEnd c = true := by
      rw [List.append_assoc, heq]
      exact hend
    rw [List.append_assoc]
    exact .comment hwords hend' (ih heq)
  | continuation hc _ ih => exact .continuation hc (ih heq)

private theorem of_margins (h : ∀ c ∈ cs, Scanner.isMargin c = true) : Filler cs behind := by
  induction cs with
  | nil => exact .nil behind
  | cons c cs ih =>
    exact .margin (h c List.mem_cons_self) (ih fun d hd => h d (List.mem_cons_of_mem c hd))

private theorem of_lineEnds (h : ∀ c ∈ cs, Scanner.isLineEnd c = true) : Filler cs behind := by
  induction cs with
  | nil => exact .nil behind
  | cons c cs ih =>
    exact .lineEnd (h c List.mem_cons_self) (ih fun d hd => h d (List.mem_cons_of_mem c hd))

end Filler

namespace Lexeme

variable {p : Char → Bool} {cs : List Char}

theorem take_run (p : Char → Bool) (cs : List Char) : cs.take (run p cs) = cs.takeWhile p :=
  (List.prefix_iff_eq_take.mp (List.takeWhile_prefix p)).symm

private theorem drop_run (p : Char → Bool) (cs : List Char) :
    cs.drop (run p cs) = cs.dropWhile p := by
  have h := List.take_append_drop (run p cs) cs
  rw [take_run] at h
  exact List.append_cancel_left (h.trans List.takeWhile_append_dropWhile.symm)

theorem run_le (p : Char → Bool) (cs : List Char) : run p cs ≤ cs.length :=
  (List.takeWhile_sublist p).length_le

theorem number_le (cs : List Char) : (number cs).2 ≤ cs.length :=
  (number_append (.inl rfl : Closed cs [])).2.le

/-- A number is a token of a line and no symbol. -/
theorem number_kind (cs : List Char) :
    (number cs).1.endsLine = false ∧ (∀ mark, (number cs).1 ≠ .symbol mark) ∧
      ¬((number cs).1 = .string ∨ (number cs).1 = .bytes) := by
  simp only [number, decimal]
  repeat' split
  all_goals simp [TokenKind.endsLine]

end Lexeme

namespace Symbol

variable {cs : List Char} {mark : Symbol} {n : Nat}

theorem leading?_le (h : leading? cs = some (mark, n)) : n ≤ cs.length :=
  ((leading?_append (.inl rfl : Lexeme.Closed cs [])).2 mark n h).le

/-- A bracket is one character of one byte. -/
theorem leading?_bracket (h : leading? cs = some (mark, n))
    (hmark : mark.opens = true ∨ mark.closes = true) :
    n = 1 ∧ byteLength (cs.take 1) = 1 := by
  have hspelled : ∀ entry ∈ spellings, entry.2.opens = true ∨ entry.2.closes = true →
      entry.1.length = 1 ∧ byteLength entry.1 = 1 := by decide
  obtain ⟨entry, hentry, heq⟩ := Option.map_eq_some_iff.mp h
  have hfits : entry.1.isPrefixOf cs = true :=
    List.find?_some (p := fun e : List Char × Symbol => e.1.isPrefixOf cs) hentry
  cases heq
  obtain ⟨hlength, hbytes⟩ := hspelled entry (List.mem_of_find?_eq_some hentry) hmark
  have htake := List.prefix_iff_eq_take.mp (List.isPrefixOf_iff_prefix.mp hfits)
  rw [hlength] at htake
  exact ⟨hlength, by rw [← htake]; exact hbytes⟩

end Symbol

namespace Scanner

variable {s t : Scanner} {c : Char} {cs : List Char}

/-! ## Actions -/

/-- What a scan does next, and when. -/
inductive Action (s : Scanner) : Scanner → Prop
  /-- Characters without meaning are taken off the rest. -/
  | skip (n : Nat) (h : Filler (s.rest.take n) (s.rest.drop n)) : Action s (s.skip n)
  /-- A problem with the next characters; an open bracket is none yet. -/
  | note (code n : Nat) (h : code ≠ Code.unclosedBracket) : Action s (s.note code n)
  /-- A line without tokens has ended. -/
  | turn (hbrackets : s.brackets = []) (hline : s.lineHasTokens = false) :
    Action s { s with atLineStart := true }
  /-- A logical line has ended. -/
  | newline (n : Nat) (hbrackets : s.brackets = []) (hline : s.lineHasTokens = true) :
    Action s { s.take .newline n with atLineStart := true }
  /-- A block is opened. -/
  | indent (n here : Nat) (hline : s.atLineStart = true) (h : s.indents.headD 0 < here) :
    Action s { s.take .indent n with indents := here :: s.indents }
  /-- The innermost block is closed. -/
  | dedent (top below : Nat) (indents : List Nat) (hline : s.atLineStart = true)
    (h : s.indents = top :: below :: indents) :
    Action s { s.mark .dedent with indents := below :: indents }
  /-- The first token of a line follows. -/
  | enter : Action s { s with atLineStart := false }
  /-- A token that is neither layout nor a bracket. -/
  | token (kind : TokenKind) (n : Nat) (hline : s.atLineStart = false)
    (hkind : kind.endsLine = false)
    (hmark : ∀ mark, kind = .symbol mark → mark.opens = false ∧ mark.closes = false)
    (hliteral : kind = .string ∨ kind = .bytes → ∃ marks, Lexeme.Literal s.rest marks ∧
      n = marks + (Lexeme.quoted (s.rest.drop marks)).1)
    (hpos : 0 < n) (hle : n ≤ s.rest.length) : Action s (s.take kind n)
  /-- An opening bracket. -/
  | opening (mark : Symbol) (hline : s.atLineStart = false) (hmark : mark.opens = true)
    (hle : 1 ≤ s.rest.length) (hbyte : byteLength (s.rest.take 1) = 1) :
    Action s { s.take mark 1 with brackets := (mark, s.offset) :: s.brackets }
  /-- A closing bracket, whether or not one is open. -/
  | closing (mark : Symbol) (hline : s.atLineStart = false) (hmark : mark.closes = true)
    (hle : 1 ≤ s.rest.length) : Action s { s.take mark 1 with brackets := s.brackets.tail }

/-- Actions one after another. -/
abbrev Acts : Scanner → Scanner → Prop := Relation.ReflTransGen Action

private theorem Action.acts (h : s.Action t) : s.Acts t := .single h

/-! ## What is skipped -/

private theorem isLineEnd_of_mem (cs : List Char) (hc : c ∈ cs.take (lineEnd cs)) :
    isLineEnd c = true := by
  unfold lineEnd at hc
  split at hc
  all_goals simp at hc
  · rcases hc with rfl | rfl <;> rfl
  · subst hc
    rfl
  · subst hc
    rfl

private theorem filler_lineEnd (cs : List Char) :
    Filler (cs.take (lineEnd cs)) (cs.drop (lineEnd cs)) :=
  .of_lineEnds fun _ hc => isLineEnd_of_mem cs hc

private theorem filler_margins (cs : List Char) :
    Filler (cs.take (Lexeme.run isMargin cs)) (cs.drop (Lexeme.run isMargin cs)) := by
  rw [Lexeme.take_run]
  exact .of_margins fun c hc => List.all_eq_true.mp List.all_takeWhile c hc

private theorem filler_comment (cs : List Char) :
    Filler (('#' :: cs).take (comment ('#' :: cs))) (('#' :: cs).drop (comment ('#' :: cs))) := by
  have hend : ∀ c, (cs.dropWhile (!isLineEnd ·)).head? = some c → isLineEnd c = true := by
    intro c hc
    have hnot := List.head?_dropWhile_not (!isLineEnd ·) cs
    rw [hc] at hnot
    simpa using hnot
  have hwords : ∀ c ∈ cs.takeWhile (!isLineEnd ·), isLineEnd c = false := by
    intro c hc
    simpa using List.all_eq_true.mp List.all_takeWhile c hc
  have hcomment := Filler.comment hwords hend (.nil (cs.dropWhile (!isLineEnd ·)))
  rw [List.append_nil] at hcomment
  rw [comment, Lexeme.take_run, Lexeme.drop_run]
  exact hcomment

private theorem Filler.take_add {m n : Nat} (h : Filler (cs.take m) (cs.drop m))
    (h' : Filler ((cs.drop m).take n) ((cs.drop m).drop n)) :
    Filler (cs.take (m + n)) (cs.drop (m + n)) := by
  rw [List.take_add, ← List.drop_drop]
  refine Filler.append ?_ h'
  rwa [List.take_append_drop]

private theorem filler_continuation (h : startsWithLineEnd cs = true) :
    Filler (('\\' :: cs).take (1 + lineEnd cs)) (('\\' :: cs).drop (1 + lineEnd cs)) := by
  cases cs with
  | nil => cases h
  | cons c cs =>
    have hpos : 0 < lineEnd (c :: cs) := lineEnd_pos h
    obtain ⟨n, hn⟩ := Nat.exists_eq_add_one.mpr hpos
    have hends : ∀ d ∈ cs.take n, isLineEnd d = true := by
      intro d hd
      apply isLineEnd_of_mem (c :: cs)
      rw [hn, List.take_succ_cons]
      exact List.mem_cons_of_mem c hd
    rw [hn, Nat.add_comm 1, List.take_succ_cons, List.drop_succ_cons, List.take_succ_cons,
      List.drop_succ_cons]
    exact .continuation h (.of_lineEnds hends)

/-! ## Steps as actions -/

private theorem acts_takeLineEnd (s : Scanner) : s.Acts s.takeLineEnd := by
  have hskip : s.Action (s.skip (lineEnd s.rest)) := .skip _ (filler_lineEnd s.rest)
  simp only [takeLineEnd]
  by_cases hbrackets : s.brackets.isEmpty = true
  · have hnil := List.isEmpty_iff.mp hbrackets
    rw [if_pos hbrackets]
    by_cases hline : s.lineHasTokens = true
    · rw [if_pos hline]
      exact (Action.newline _ hnil hline).acts
    · have hturn : (s.skip (lineEnd s.rest)).Action
          { s.skip (lineEnd s.rest) with atLineStart := true } :=
        .turn hnil (Bool.eq_false_iff.mpr hline)
      rw [if_neg hline]
      exact .tail hskip.acts hturn
  · rw [if_neg hbrackets]
    exact hskip.acts

private theorem acts_takeString (marks : Nat) (hline : s.atLineStart = false)
    (hliteral : Lexeme.Literal s.rest marks) : s.Acts (s.takeString marks) := by
  have hmarks : s.rest.drop marks ≠ [] := by
    obtain ⟨quote, behind, hbehind, -⟩ := hliteral.opened
    simp [hbehind]
  have hquoted := Lexeme.quoted_pos hmarks
  have hle := Lexeme.quoted_le (s.rest.drop marks)
  rw [List.length_drop] at hle
  have htake (r : Scanner) (hr : r.atLineStart = false) (hrest : r.rest = s.rest) (isBytes : Bool) :
      r.Action (r.take (if isBytes then .bytes else .string)
        (marks + (Lexeme.quoted (s.rest.drop marks)).1)) := by
    apply Action.token _ _ hr
    · cases isBytes <;> rfl
    · cases isBytes <;> nofun
    · exact fun _ => ⟨marks, hrest ▸ hliteral, by rw [hrest]⟩
    · omega
    · rw [hrest]
      omega
  simp only [takeString]
  split
  · exact (htake s hline rfl _).acts
  · have hnote (n : Nat) : s.Action (s.note Code.unterminatedString n) := .note _ n (by decide)
    exact .head (hnote _) (htake (s.note _ _) hline rfl _).acts

private theorem acts_takeUnknown (hline : s.atLineStart = false) (hrest : s.rest ≠ []) :
    s.Acts s.takeUnknown := by
  have hnote : s.Action (s.note Code.invalidCharacter 1) := .note _ _ (by decide)
  have htake : (s.note Code.invalidCharacter 1).Action s.takeUnknown :=
    .token .unknown 1 hline rfl nofun (by simp) Nat.one_pos (List.length_pos_iff.mpr hrest)
  exact .tail hnote.acts htake

private theorem acts_takeName (hline : s.atLineStart = false) (hrest : s.rest ≠ []) :
    s.Acts s.takeName := by
  have hpos := List.length_pos_iff.mpr hrest
  have hle := Lexeme.run_le Lexeme.continuesName (s.rest.drop 1)
  rw [List.length_drop] at hle
  have htake (kind : TokenKind) (hkind : kind.endsLine = false) (hmark : ∀ mark, kind ≠ .symbol mark)
      (hliteral : ¬(kind = .string ∨ kind = .bytes)) :
      s.Acts (s.take kind (1 + Lexeme.run Lexeme.continuesName (s.rest.drop 1))) := by
    apply Action.acts
    apply Action.token kind _ hline hkind (fun mark h => absurd h (hmark mark))
      (fun h => absurd h hliteral)
    · omega
    · omega
  simp only [takeName]
  split
  · exact htake _ rfl (by simp) (by simp)
  · exact htake _ rfl (by simp) (by simp)

private theorem acts_takeSymbol (hline : s.atLineStart = false) (hrest : s.rest ≠ []) :
    s.Acts s.takeSymbol := by
  simp only [takeSymbol]
  split
  case h_2 => exact acts_takeUnknown hline hrest
  case h_1 mark n hmark =>
    have hle := Symbol.leading?_le hmark
    by_cases hopens : mark.opens = true
    · obtain ⟨rfl, hbyte⟩ := Symbol.leading?_bracket hmark (.inl hopens)
      rw [if_pos hopens]
      exact (Action.opening mark hline hopens hle hbyte).acts
    rw [if_neg hopens]
    by_cases hcloses : mark.closes = true
    · obtain ⟨rfl, -⟩ := Symbol.leading?_bracket hmark (.inr hcloses)
      rw [if_pos hcloses]
      exact (Action.closing mark hline hcloses hle).acts
    · rw [if_neg hcloses]
      apply Action.acts
      apply Action.token _ n hline rfl _ (by simp) (Symbol.leading?_pos hmark) hle
      intro other hother
      cases hother
      exact ⟨Bool.eq_false_iff.mpr hopens, Bool.eq_false_iff.mpr hcloses⟩

private theorem acts_takeToken (hline : s.atLineStart = false) (hs : s.rest = c :: cs) :
    s.Acts (s.takeToken c) := by
  have hrest : s.rest ≠ [] := by simp [hs]
  have hskip (n : Nat) (h : Filler ((c :: cs).take n) ((c :: cs).drop n)) : s.Acts (s.skip n) :=
    (Action.skip n (hs ▸ h)).acts
  have hbehind : s.rest.drop 1 = cs := by simp [hs]
  simp only [takeToken, hbehind]
  by_cases hmargin : isMargin c = true
  · rw [if_pos hmargin]
    exact hskip 1 (.margin hmargin (.nil cs))
  rw [if_neg hmargin]
  by_cases hhash : c = '#'
  · subst hhash
    rw [hs]
    exact hskip _ (filler_comment cs)
  rw [if_neg (by simpa using hhash)]
  by_cases hend : isLineEnd c = true
  · rw [if_pos hend]
    exact acts_takeLineEnd s
  rw [if_neg hend]
  split
  case isTrue hjoin =>
    rw [Bool.and_eq_true, beq_iff_eq] at hjoin
    obtain ⟨rfl, hjoin⟩ := hjoin
    exact hskip _ (filler_continuation hjoin)
  split
  case isTrue hnumber =>
    rw [Bool.or_eq_true, Bool.and_eq_true, beq_iff_eq] at hnumber
    have hpos : 0 < (Lexeme.number s.rest).2 := by
      rw [hs]
      exact Lexeme.number_pos (hnumber.imp_right And.left)
    obtain ⟨hkind, hmark, hliteral⟩ := Lexeme.number_kind s.rest
    exact (Action.token _ _ hline hkind (fun mark h => absurd h (hmark mark))
      (fun h => absurd h hliteral) hpos
      (Lexeme.number_le s.rest)).acts
  split
  case isTrue hquote => exact acts_takeString 0 hline (hs ▸ Lexeme.literal_of_isQuote hquote)
  split
  · split
    case h_1 marks hmarks => exact acts_takeString marks hline (Lexeme.literal_of_stringMarks? hmarks)
    split
    · exact acts_takeName hline hrest
    · exact acts_takeUnknown hline hrest
  · exact acts_takeSymbol hline hrest

/-! ## Layout as actions -/

private theorem closeBlocks_indents (here : Nat) (indents other : List Nat) (s : Scanner) :
    closeBlocks here indents { s with indents := other } = closeBlocks here indents s := by
  match indents with
  | [] | [_] => rfl
  | top :: below :: indents =>
    rw [closeBlocks, closeBlocks]
    split
    · exact closeBlocks_indents here (below :: indents) other (s.mark .dedent)
    · rfl

theorem closeBlocks_findings (here : Nat) (indents : List Nat) (findings : Array Finding)
    (s : Scanner) : closeBlocks here indents { s with findings := findings } =
      { closeBlocks here indents s with findings := findings } := by
  match indents with
  | [] | [_] => rfl
  | top :: below :: indents =>
    rw [closeBlocks, closeBlocks]
    split
    · exact closeBlocks_findings here (below :: indents) findings (s.mark .dedent)
    · rfl

private theorem findings_closeBlocks (here : Nat) (indents : List Nat) (s : Scanner) :
    (closeBlocks here indents s).findings = s.findings := by
  fun_induction closeBlocks here indents s with
  | case1 top below rest s _ ih => exact ih
  | case2 | case3 => rfl

private theorem acts_closeBlocks (here : Nat) (hline : s.atLineStart = true) :
    s.Acts (closeBlocks here s.indents s) := by
  generalize hindents : s.indents = indents
  have heq : { s with indents := indents } = s := by rw [← hindents]
  induction indents generalizing s with
  | nil => exact (congrArg s.Acts heq).mpr .refl
  | cons top indents ih =>
    have hsame : s.Acts { s with indents := top :: indents } := (congrArg s.Acts heq).mpr .refl
    cases indents with
    | nil => exact hsame
    | cons below indents =>
      rw [closeBlocks]
      split
      · have hdedent : s.Action { s.mark .dedent with indents := below :: indents } :=
          .dedent top below indents hline hindents
        rw [← closeBlocks_indents here _ (below :: indents) (s.mark .dedent)]
        exact .head hdedent (ih hline rfl rfl)
      · exact hsame

private theorem acts_layOut (here : Nat) (hline : s.atLineStart = true) :
    s.Acts (s.layOut (Lexeme.run isMargin s.rest) here) := by
  have hskip (r : Scanner) (hr : r.rest = s.rest) :
      r.Action (r.skip (Lexeme.run isMargin s.rest)) := .skip _ (hr ▸ filler_margins s.rest)
  generalize Lexeme.run isMargin s.rest = margin at hskip
  simp only [layOut]
  by_cases hdeeper : s.indents.headD 0 < here
  · rw [if_pos hdeeper]
    exact (Action.indent margin here hline hdeeper).acts
  rw [if_neg hdeeper]
  split
  case isFalse => exact (hskip s rfl).acts
  split
  · exact .head (hskip s rfl) (acts_closeBlocks (s := s.skip margin) here hline)
  · -- The problem with the margin may as well be noted before the blocks are closed.
    have hnote : s.Action (s.note Code.inconsistentDedent margin) := .note _ _ (by decide)
    have hclose := acts_closeBlocks (s := (s.note Code.inconsistentDedent margin).skip margin) here
      hline
    have heq : closeBlocks here s.indents ((s.note Code.inconsistentDedent margin).skip margin) =
        { closeBlocks here s.indents (s.skip margin) with
          findings := (closeBlocks here s.indents (s.skip margin)).findings.push
            ⟨Code.inconsistentDedent,
              ⟨s.offset, (closeBlocks here s.indents (s.skip margin)).offset⟩, none⟩ } := by
      rw [findings_closeBlocks, closeBlocks_offset]
      exact closeBlocks_findings here s.indents _ (s.skip margin)
    rw [← heq]
    exact .head hnote (.head (hskip (s.note _ _) rfl) hclose)

private theorem acts_takeLineStart (hline : s.atLineStart = true) : s.Acts s.takeLineStart := by
  have hmargin := filler_margins s.rest
  simp only [takeLineStart]
  split
  · exact (Action.skip _ hmargin).acts
  case h_2 c behind hrest =>
    rw [hrest] at hmargin
    by_cases hhash : c = '#'
    · subst hhash
      rw [if_pos (by rfl)]
      apply Action.acts
      apply Action.skip
      apply Filler.take_add
      · apply Filler.take_add
        · rwa [hrest]
        · rw [hrest]
          exact filler_comment behind
      · rw [← List.drop_drop, hrest]
        exact filler_lineEnd _
    rw [if_neg (by simpa using hhash)]
    by_cases hend : isLineEnd c = true
    · rw [if_pos hend]
      apply Action.acts
      apply Action.skip
      apply Filler.take_add
      · rwa [hrest]
      · rw [hrest]
        exact filler_lineEnd _
    rw [if_neg hend]
    generalize (s.rest.take (Lexeme.run isMargin s.rest)).foldl column 0 = here
    have hlaid := (s.rest_layOut (Lexeme.run isMargin s.rest) here).trans hrest
    have htoken := acts_takeToken
      (s := { s.layOut (Lexeme.run isMargin s.rest) here with atLineStart := false }) rfl hlaid
    exact (acts_layOut here hline).trans (.head .enter htoken)

private theorem acts_advance (hrests : s.Rests) (hs : s.rest = c :: cs) : s.Acts (s.advance c) := by
  rw [advance]
  cases hline : s.atLineStart with
  | false => exact acts_takeToken hline hs
  | true =>
    rw [(hrests hline).1]
    exact acts_takeLineStart hline

/-- A scan is a sequence of actions. -/
theorem acts_run (hrests : s.Rests) : s.Acts s.run := by
  fun_induction run s with
  | case1 s _ => exact .refl
  | case2 s c cs hs ih => exact (acts_advance hrests hs).trans (ih (rests_advance hrests))

/-! ## The moments of a scan -/

/-- The second state is `n` steps behind the first. -/
inductive Steps : Nat → Scanner → Scanner → Prop
  | refl (s : Scanner) : Steps 0 s s
  | tail {n : Nat} {s t : Scanner} {c : Char} {cs : List Char} (h : Steps n s t)
    (hs : t.rest = c :: cs) : Steps (n + 1) s (t.advance c)

/-- Each step takes a character. -/
theorem Steps.add_length_le {n : Nat} (h : Steps n s t) :
    n + t.rest.length ≤ s.rest.length := by
  induction h with
  | refl => omega
  | tail _ hs ih =>
    have hlt := advance_lt hs
    omega

private theorem Steps.head {n : Nat} (hs : s.rest = c :: cs) (h : Steps n (s.advance c) t) :
    Steps (n + 1) s t := by
  generalize hr : s.advance c = r at h
  induction h with
  | refl => exact hr ▸ .tail (.refl s) hs
  | tail _ hs' ih => exact .tail (ih hr) hs'

/-- The run is some number of steps. -/
theorem exists_steps_run (s : Scanner) : ∃ n, Steps n s s.run := by
  fun_induction run s with
  | case1 s _ => exact ⟨0, .refl s⟩
  | case2 s c cs hs ih =>
    obtain ⟨n, hn⟩ := ih
    exact ⟨n + 1, hn.head hs⟩

theorem Steps.acts {n : Nat} (hrests : s.Rests) (h : Steps n s t) : s.Acts t ∧ t.Rests := by
  induction h with
  | refl => exact ⟨.refl, hrests⟩
  | tail _ hs ih =>
    obtain ⟨hacts, hrests'⟩ := ih hrests
    exact ⟨hacts.trans (acts_advance hrests' hs), rests_advance hrests'⟩

end Scanner
end LiveCheck
