import LiveCheck.Proofs.RepeatedScans

/-!
# Where a string ends

The scanner follows a string from its opening quote to its closing quote, or finds that there is
none. The decoder of a string looks at the last characters of its text only. They agree on what
stands between the quotes, except for a string that is not closed and ends with a quote that a
backslash hides: the decoder takes this quote for the closing one.
-/

/-!
## Two ways to find the end

What the scanner finds out going from the left, compared with the end of the text.
-/

namespace LiveCheck.Lexeme

variable {quote : Char} {cs : List Char}

private theorem exists_of_singleBody (h : singleBody quote cs = (cs.length, true)) :
    ∃ content, cs = content ++ [quote] := by
  fun_induction singleBody quote cs with
  | case1 | case2 | case5 => cases congrArg Prod.snd h
  | case3 d cs size closed hbody ih =>
    obtain ⟨hsize, rfl⟩ := Prod.mk.inj h
    obtain ⟨content, heq⟩ := ih (by rw [hbody, Nat.add_right_cancel hsize])
    exact ⟨'\\' :: d :: content, by rw [heq]; rfl⟩
  | case4 c cs hlast hnext hquote =>
    have hnil : cs = [] := List.eq_nil_of_length_eq_zero (Nat.succ.inj (congrArg Prod.fst h)).symm
    exact ⟨[], by rw [hnil, beq_iff_eq.mp hquote]; rfl⟩
  | case6 c cs hlast hnext hquote hline size closed hbody ih =>
    obtain ⟨hsize, rfl⟩ := Prod.mk.inj h
    obtain ⟨content, heq⟩ := ih (by rw [hbody, Nat.add_right_cancel hsize])
    exact ⟨c :: content, by rw [heq]; rfl⟩

private theorem suffix_of_singleBody (hquote : quote ≠ '\\')
    (h : singleBody quote cs = (cs.length, false)) (hend : [quote] <:+ cs) :
    ['\\', quote] <:+ cs := by
  fun_induction singleBody quote cs with
  | case1 => cases List.suffix_nil.mp hend
  | case2 =>
    rcases List.suffix_cons_iff.mp hend with heq | hend
    · exact absurd (List.cons.inj heq).1 hquote
    · cases List.suffix_nil.mp hend
  | case3 d cs size closed hbody ih =>
    obtain ⟨hsize, rfl⟩ := Prod.mk.inj h
    rcases List.suffix_cons_iff.mp hend with heq | hend
    · exact absurd (List.cons.inj heq).1 hquote
    rcases List.suffix_cons_iff.mp hend with heq | hend
    · obtain ⟨rfl, rfl⟩ := List.cons.inj heq
      exact List.suffix_refl _
    · exact ((ih (by rw [hbody, Nat.add_right_cancel hsize]) hend).trans
        (List.suffix_cons d cs)).trans (List.suffix_cons _ _)
  | case4 => cases congrArg Prod.snd h
  | case5 c cs => cases congrArg Prod.fst h
  | case6 c cs hlast hnext hnot hline size closed hbody ih =>
    obtain ⟨hsize, rfl⟩ := Prod.mk.inj h
    rcases List.suffix_cons_iff.mp hend with heq | hend
    · exact absurd (beq_iff_eq.mpr (List.cons.inj heq).1.symm) hnot
    · exact (ih (by rw [hbody, Nat.add_right_cancel hsize]) hend).trans (List.suffix_cons c cs)

private theorem exists_of_tripleBody (h : tripleBody quote cs = (cs.length, true)) :
    ∃ content, cs = content ++ [quote, quote, quote] := by
  fun_induction tripleBody quote cs with
  | case1 | case2 => cases congrArg Prod.snd h
  | case3 d cs size closed hbody ih =>
    obtain ⟨hsize, rfl⟩ := Prod.mk.inj h
    obtain ⟨content, heq⟩ := ih (by rw [hbody, Nat.add_right_cancel hsize])
    exact ⟨'\\' :: d :: content, by rw [heq]; rfl⟩
  | case4 c cs hlast hnext hquote =>
    obtain ⟨hc, hprefix⟩ := (Bool.and_eq_true _ _).mp hquote
    have htwo : [quote, quote] = cs :=
      (List.isPrefixOf_iff_prefix.mp hprefix).eq_of_length (Nat.succ.inj (congrArg Prod.fst h))
    exact ⟨[], by rw [← htwo, beq_iff_eq.mp hc]; rfl⟩
  | case5 c cs hlast hnext hquote size closed hbody ih =>
    obtain ⟨hsize, rfl⟩ := Prod.mk.inj h
    obtain ⟨content, heq⟩ := ih (by rw [hbody, Nat.add_right_cancel hsize])
    exact ⟨c :: content, by rw [heq]; rfl⟩

private theorem suffix_of_tripleBody (hquote : quote ≠ '\\')
    (h : tripleBody quote cs = (cs.length, false)) (hend : [quote, quote, quote] <:+ cs) :
    ['\\', quote, quote, quote] <:+ cs := by
  fun_induction tripleBody quote cs with
  | case1 => cases List.suffix_nil.mp hend
  | case2 =>
    rcases List.suffix_cons_iff.mp hend with heq | hend
    · cases heq
    · cases List.suffix_nil.mp hend
  | case3 d cs size closed hbody ih =>
    obtain ⟨hsize, rfl⟩ := Prod.mk.inj h
    rcases List.suffix_cons_iff.mp hend with heq | hend
    · exact absurd (List.cons.inj heq).1 hquote
    rcases List.suffix_cons_iff.mp hend with heq | hend
    · obtain ⟨rfl, rfl⟩ := List.cons.inj heq
      exact List.suffix_refl _
    · exact ((ih (by rw [hbody, Nat.add_right_cancel hsize]) hend).trans
        (List.suffix_cons d cs)).trans (List.suffix_cons _ _)
  | case4 => cases congrArg Prod.snd h
  | case5 c cs hlast hnext hnot size closed hbody ih =>
    obtain ⟨hsize, rfl⟩ := Prod.mk.inj h
    rcases List.suffix_cons_iff.mp hend with heq | hend
    · obtain ⟨rfl, rfl⟩ := List.cons.inj heq
      simp at hnot
    · exact (ih (by rw [hbody, Nat.add_right_cancel hsize]) hend).trans (List.suffix_cons c cs)

/-- The quotes that open a string: three of them if two more follow the first one. -/
def opening (quote : Char) (behind : List Char) : List Char :=
  if [quote, quote].isPrefixOf behind then [quote, quote, quote] else [quote]

private theorem quoteSize_cons (hquote : isQuote quote = true) :
    StringLiteral.quoteSize (quote :: cs) = (opening quote cs).length := by
  rcases isQuote_iff.mp hquote with rfl | rfl
  all_goals
    simp only [StringLiteral.quoteSize, opening]
    split <;> simp_all

private theorem exists_content (hquote : isQuote quote = true)
    (hwhole : (quoted (quote :: cs)).1 = (quote :: cs).length) :
    ∃ content,
      ((quoted (quote :: cs)).2 = true →
        quote :: cs = opening quote cs ++ (content ++ opening quote cs)) ∧
      ((quoted (quote :: cs)).2 = false → quote :: cs = opening quote cs ++ content ∧
        (opening quote cs <:+ content → '\\' :: opening quote cs <:+ content)) := by
  have hne : quote ≠ '\\' := by rcases isQuote_iff.mp hquote with rfl | rfl <;> decide
  cases hmark : [quote, quote].isPrefixOf cs with
  | true =>
    have hopening : opening quote cs = [quote, quote, quote] := if_pos hmark
    obtain ⟨behind, rfl⟩ := List.isPrefixOf_iff_prefix.mp hmark
    have heq : quoted (quote :: ([quote, quote] ++ behind)) =
        ((tripleBody quote behind).1 + 3, (tripleBody quote behind).2) := quoted_triple quote behind
    rw [heq] at hwhole ⊢
    rw [hopening]
    have hlength : (tripleBody quote behind).1 = behind.length := Nat.add_right_cancel hwhole
    cases hclosed : (tripleBody quote behind).2 with
    | true =>
      obtain ⟨content, rfl⟩ := exists_of_tripleBody (Prod.ext hlength hclosed)
      exact ⟨content, fun _ => rfl, fun hopen => Bool.noConfusion hopen⟩
    | false =>
      exact ⟨behind, fun hopen => Bool.noConfusion hopen,
        fun _ => ⟨rfl, suffix_of_tripleBody hne (Prod.ext hlength hclosed)⟩⟩
  | false =>
    have hopening : opening quote cs = [quote] := if_neg (by simp [hmark])
    rw [quoted_single hmark] at hwhole ⊢
    rw [hopening]
    have hlength : (singleBody quote cs).1 = cs.length := Nat.succ.inj hwhole
    cases hclosed : (singleBody quote cs).2 with
    | true =>
      obtain ⟨content, rfl⟩ := exists_of_singleBody (Prod.ext hlength hclosed)
      exact ⟨content, fun _ => rfl, fun hopen => Bool.noConfusion hopen⟩
    | false =>
      exact ⟨cs, fun hopen => Bool.noConfusion hopen,
        fun _ => ⟨rfl, suffix_of_singleBody hne (Prod.ext hlength hclosed)⟩⟩

end LiveCheck.Lexeme

namespace LiveCheck.StringLiteral

open Lexeme (isQuote isRawMark)

variable {text : String} {marks opening content inner behind cs : List Char} {quote : Char}

/-- The value of what stands between the quotes, behind the given marks. -/
def value (marks content : List Char) : String :=
  String.ofList (if marks.any isRawMark then content else unescape content)

private theorem decode_eq (htext : text.toList = marks ++ quote :: behind)
    (hmarks : ∀ c ∈ marks, isQuote c = false) (hquote : isQuote quote = true) :
    decode text = value marks (body (quote :: behind)) := by
  have htake : (marks ++ quote :: behind).takeWhile (fun c => !isQuote c) = marks := by
    rw [List.takeWhile_append_of_pos (by simpa using hmarks), List.takeWhile_cons_of_neg
      (by simpa using hquote), List.append_nil]
  simp only [decode, htext, htake, List.drop_left, value]

private theorem cut_iff : (decide (2 * opening.length ≤ (opening ++ inner).length) &&
    (opening ++ inner).drop ((opening ++ inner).length - opening.length) == opening) = true ↔
      opening <:+ inner := by
  rw [Bool.and_eq_true, decide_eq_true_iff, beq_iff_eq, List.length_append, Nat.add_sub_cancel_left,
    List.drop_append, List.suffix_iff_eq_drop]
  constructor
  · rintro ⟨hlong, hdrop⟩
    rw [List.drop_eq_nil_of_le (by omega), List.nil_append] at hdrop
    exact hdrop.symm
  · intro hdrop
    have hlong : opening.length ≤ inner.length := by
      have hlength := congrArg List.length hdrop
      rw [List.length_drop] at hlength
      omega
    rw [List.drop_eq_nil_of_le hlong, List.nil_append]
    exact ⟨by omega, hdrop.symm⟩

private theorem body_eq (heq : cs = opening ++ inner) (hsize : quoteSize cs = opening.length) :
    body cs = if opening <:+ inner then inner.take (inner.length - opening.length) else inner := by
  rw [heq] at hsize ⊢
  simp only [body, hsize, List.take_left, List.drop_left, cut_iff]

private theorem body_closed (heq : cs = opening ++ (content ++ opening))
    (hsize : quoteSize cs = opening.length) : body cs = content := by
  rw [body_eq heq hsize, if_pos (List.suffix_append _ _), List.length_append, Nat.add_sub_cancel,
    List.take_left]

private theorem body_open (heq : cs = opening ++ inner) (hsize : quoteSize cs = opening.length)
    (hend : ¬ opening <:+ inner) : body cs = inner := by
  rw [body_eq heq hsize, if_neg hend]

end LiveCheck.StringLiteral

/-!
## Strings in a scan

A string that is not closed is reported with its own place, and nothing else is reported so. What
the scanner does apart from strings has no part in this.
-/

namespace LiveCheck

/-- The token is a string. -/
def Token.IsString (token : Token) : Prop := token.kind = .string ∨ token.kind = .bytes

/-- A problem says that the token is not closed. -/
def Token.Unclosed (findings : Array Finding) (token : Token) : Prop :=
  ∃ f ∈ findings, f.code = Code.unterminatedString ∧ f.span = token.span

namespace Scanner

open Text Lexeme

variable {s t : Scanner} {c : Char} {cs : List Char} {marks : Nat} {token : Token}
  {findings found : Array Finding}

private theorem not_isString_of_endsLine (hk : token.kind.endsLine = true) :
    ¬ token.IsString := by
  rintro (hkind | hkind) <;>
    · rw [hkind] at hk
      cases hk

private theorem Skips.offset_le (h : s.Skips t) : s.offset ≤ t.offset := by
  obtain ⟨n, -, hoffset⟩ := h
  rw [hoffset]
  exact Nat.le_add_right _ _

/-- No string is taken on the way, and none is reported. -/
private structure Silent (s t : Scanner) : Prop where
  tokens : t.Holds fun token => token.IsString → token ∈ s.tokens
  findings : ∀ f : Finding, f.code = Code.unterminatedString → (f ∈ t.findings ↔ f ∈ s.findings)
  skips : s.Skips t

private theorem Silent.same (hskips : s.Skips t) (htokens : t.tokens = s.tokens)
    (hfindings : t.findings = s.findings) : s.Silent t :=
  ⟨fun _ htoken _ => htokens ▸ htoken, fun _ _ => hfindings ▸ Iff.rfl, hskips⟩

private theorem Silent.push (hskips : s.Skips t) (hkind : ¬ token.IsString)
    (htokens : t.tokens = s.tokens.push token) (hfindings : t.findings = s.findings) :
    s.Silent t := by
  refine ⟨Holds.push (fun _ htoken _ => htoken) htokens fun hstring => absurd hstring hkind,
    fun _ _ => hfindings ▸ Iff.rfl, hskips⟩

private theorem mem_push_iff {f g : Finding} (hf : f.code = Code.unterminatedString)
    (hg : g.code ≠ Code.unterminatedString) :
    f ∈ findings.push g ↔ f ∈ findings := by
  rw [Array.mem_push]
  refine ⟨fun h => h.resolve_right ?_, .inl⟩
  rintro rfl
  exact hg hf

private theorem holds_own (s : Scanner) : s.Holds fun token => token.IsString → token ∈ s.tokens :=
  fun _ htoken _ => htoken

private theorem holds_layout (s : Scanner) (token : Token) (hk : token.kind.endsLine = true) :
    token.IsString → token ∈ s.tokens :=
  fun hstring => absurd hstring (not_isString_of_endsLine hk)

private theorem silent_layOut (s : Scanner) (margin here : Nat) :
    s.Silent (s.layOut margin here) where
  tokens := holds_layOut s.holds_layout s.holds_own margin here
  findings f hf := by
    simp only [layOut]
    repeat' split
    · exact Iff.rfl
    · rw [closeBlocks_findings]
      exact Iff.rfl
    · rw [mem_push_iff hf (show Code.inconsistentDedent ≠ _ by decide), closeBlocks_findings]
      exact Iff.rfl
    · exact Iff.rfl
  skips := s.skips_layOut margin here

private theorem silent_takeLineEnd (s : Scanner) : s.Silent s.takeLineEnd where
  tokens := holds_takeLineEnd s.holds_layout s.holds_own
  findings f hf := by
    simp only [takeLineEnd]
    repeat' split
    all_goals exact Iff.rfl
  skips := s.skips_takeLineEnd

private theorem silent_finish (s : Scanner) :
    s.finish.Holds (fun token => token.IsString → token ∈ s.tokens) ∧
      ∀ f : Finding, f.code = Code.unterminatedString →
        (f ∈ s.finish.findings ↔ f ∈ s.findings) := by
  refine ⟨holds_finish s.holds_layout s.holds_own, fun f hf => ?_⟩
  rw [findings_finish, Array.mem_append]
  refine ⟨fun h => h.resolve_right fun hmem => ?_, .inl⟩
  obtain ⟨bracket, -, rfl⟩ := List.mem_map.mp (List.mem_toArray.mp hmem)
  cases hf

private theorem silent_number (s : Scanner) :
    s.Silent (s.take (number s.rest).1 (number s.rest).2) :=
  .push ((s.skips_skip _).congr rfl rfl)
    (show ¬ Token.IsString ⟨(number s.rest).1, _, _⟩ from (number_kind s.rest).2.2) rfl rfl

private theorem silent_takeName (s : Scanner) : s.Silent s.takeName := by
  have hskips := s.skips_takeName
  simp only [takeName] at hskips ⊢
  split at hskips
  all_goals exact .push hskips (by rintro (h | h) <;> cases h) rfl rfl

private theorem silent_takeUnknown (s : Scanner) : s.Silent s.takeUnknown where
  tokens := s.holds_own.push rfl fun hstring => by rcases hstring with h | h <;> cases h
  findings f hf := mem_push_iff hf (show Code.invalidCharacter ≠ _ by decide)
  skips := s.skips_takeUnknown

private theorem silent_takeSymbol (s : Scanner) : s.Silent s.takeSymbol := by
  have hskips := s.skips_takeSymbol
  simp only [takeSymbol] at hskips ⊢
  split at hskips
  · repeat' split
    all_goals exact .push ((s.skips_skip _).congr rfl rfl) (by rintro (h | h) <;> cases h) rfl rfl
  · exact s.silent_takeUnknown

private def Told (findings : Array Finding) (token : Token) : Prop :=
  ∃ marks quote behind, token.text.toList = marks ++ quote :: behind ∧
    (∀ c ∈ marks, isQuote c = false) ∧ isQuote quote = true ∧
    (quoted (quote :: behind)).1 = (quote :: behind).length ∧
    (token.Unclosed findings ↔ (quoted (quote :: behind)).2 = false)

/-- All strings so far, with the problems so far. -/
private structure Tells (s : Scanner) : Prop where
  told : ∀ token ∈ s.tokens, token.IsString → Told s.findings token
  tokens_lt : ∀ token ∈ s.tokens, token.IsString → token.span.start < s.offset
  findings_lt : ∀ f ∈ s.findings, f.code = Code.unterminatedString → f.span.start < s.offset

private theorem Told.congr (h : Told findings token)
    (hsame : token.Unclosed found ↔ token.Unclosed findings) : Told found token := by
  obtain ⟨marks, quote, behind, htext, hmarks, hquote, hwhole, htold⟩ := h
  exact ⟨marks, quote, behind, htext, hmarks, hquote, hwhole, hsame.trans htold⟩

private theorem unclosed_congr
    (h : ∀ f : Finding, f.code = Code.unterminatedString → (f ∈ found ↔ f ∈ findings))
    (token : Token) : token.Unclosed found ↔ token.Unclosed findings := by
  constructor
  · rintro ⟨f, hf, hcode, hspan⟩
    exact ⟨f, (h f hcode).mp hf, hcode, hspan⟩
  · rintro ⟨f, hf, hcode, hspan⟩
    exact ⟨f, (h f hcode).mpr hf, hcode, hspan⟩

private theorem Tells.silent (h : s.Tells) (hsilent : s.Silent t) : t.Tells where
  told token htoken hstring := (h.told token (hsilent.tokens token htoken hstring) hstring).congr
    (unclosed_congr hsilent.findings token)
  tokens_lt token htoken hstring := Nat.lt_of_lt_of_le
    (h.tokens_lt token (hsilent.tokens token htoken hstring) hstring) hsilent.skips.offset_le
  findings_lt f hf hcode := Nat.lt_of_lt_of_le
    (h.findings_lt f ((hsilent.findings f hcode).mp hf) hcode) hsilent.skips.offset_le

private theorem tokens_takeString (s : Scanner) (marks : Nat) :
    (s.takeString marks).tokens = s.tokens.push ⟨stringKind marks s.rest,
      ⟨s.offset, s.offset +
        byteLength (s.rest.take (marks + (quoted (s.rest.drop marks)).1))⟩,
      String.ofList (s.rest.take (marks + (quoted (s.rest.drop marks)).1))⟩ := by
  obtain ⟨findings, heq⟩ := s.takeString_eq marks
  rw [heq]
  rfl

private theorem findings_takeString (s : Scanner) (marks : Nat) :
    (s.takeString marks).findings =
      if (quoted (s.rest.drop marks)).2 then s.findings
      else s.findings.push ⟨Code.unterminatedString, ⟨s.offset, s.offset +
        byteLength (s.rest.take (marks + (quoted (s.rest.drop marks)).1))⟩, none⟩ := by
  simp only [takeString]
  split <;> rfl

private theorem unclosed_takeString (s : Scanner) (marks : Nat) (token : Token) :
    token.Unclosed (s.takeString marks).findings ↔ token.Unclosed s.findings ∨
      (quoted (s.rest.drop marks)).2 = false ∧ token.span = ⟨s.offset, s.offset +
        byteLength (s.rest.take (marks + (quoted (s.rest.drop marks)).1))⟩ := by
  rw [findings_takeString, Token.Unclosed]
  cases (quoted (s.rest.drop marks)).2 with
  | true => simp [Token.Unclosed]
  | false =>
    simp only [Bool.false_eq_true, if_false, Array.mem_push, true_and]
    constructor
    · rintro ⟨f, hf | rfl, hcode, hspan⟩
      · exact .inl ⟨f, hf, hcode, hspan⟩
      · exact .inr hspan.symm
    · rintro (⟨f, hf, hcode, hspan⟩ | hspan)
      · exact ⟨f, .inl hf, hcode, hspan⟩
      · exact ⟨_, .inr rfl, rfl, hspan.symm⟩

private theorem exists_takeString (hliteral : Lexeme.Literal s.rest marks) :
    ∃ quote behind, s.rest.take (marks + (quoted (s.rest.drop marks)).1) =
        s.rest.take marks ++ quote :: behind ∧
      (∀ c ∈ s.rest.take marks, isQuote c = false) ∧ isQuote quote = true ∧
      (quoted (quote :: behind)).1 = (quote :: behind).length ∧
      (quoted (quote :: behind)).2 = (quoted (s.rest.drop marks)).2 := by
  obtain ⟨quote, behind, hbehind, hquote⟩ := hliteral.opened
  rw [List.take_add, hbehind]
  obtain ⟨m, hm⟩ := Nat.exists_eq_add_one.mpr (quoted_pos (List.cons_ne_nil quote behind))
  have hwhole : quoted (quote :: behind.take m) = quoted (quote :: behind) := by
    rw [← List.take_succ_cons]
    exact quoted_take (Nat.le_of_eq hm)
  have hlength : (quote :: behind.take m).length = m + 1 := by
    have hle := quoted_le (quote :: behind)
    rw [hm, List.length_cons] at hle
    rw [List.length_cons, List.length_take_of_le (Nat.le_of_succ_le_succ hle)]
  refine ⟨quote, behind.take m, by rw [hm, List.take_succ_cons],
    fun c hc => (hliteral.letters c hc).1, hquote, ?_, by rw [hwhole]⟩
  rw [hwhole, hlength, hm]

private theorem Tells.takeString (h : s.Tells) (hliteral : Lexeme.Literal s.rest marks) :
    (s.takeString marks).Tells := by
  obtain ⟨quote, behind, htext, hmarks, hquote, hwhole, hclosed⟩ := exists_takeString hliteral
  have hlt : s.offset < (s.takeString marks).offset := by
    obtain ⟨_, _, hbehind, -⟩ := hliteral.opened
    exact (s.skips_takeString marks).offset_lt (takeString_lt (by rw [hbehind]; simp))
  constructor
  · intro token htoken hstring
    rw [tokens_takeString] at htoken
    rcases Array.mem_push.mp htoken with htoken | rfl
    · refine (h.told token htoken hstring).congr ?_
      rw [unclosed_takeString]
      refine ⟨fun hnew => ?_, .inl⟩
      rcases hnew with hbefore | ⟨-, hspan⟩
      · exact hbefore
      · have hlt := h.tokens_lt token htoken hstring
        rw [hspan] at hlt
        exact absurd hlt (Nat.lt_irrefl _)
    · refine ⟨_, quote, behind, by rw [String.toList_ofList, htext], hmarks, hquote, hwhole, ?_⟩
      rw [unclosed_takeString, hclosed]
      refine ⟨fun hnew => ?_, fun hopen => .inr ⟨hopen, rfl⟩⟩
      rcases hnew with ⟨f, hf, hcode, hspan⟩ | ⟨hopen, -⟩
      · have hbefore := h.findings_lt f hf hcode
        rw [hspan] at hbefore
        exact absurd hbefore (Nat.lt_irrefl _)
      · exact hopen
  · intro token htoken hstring
    rw [tokens_takeString] at htoken
    rcases Array.mem_push.mp htoken with htoken | rfl
    · exact Nat.lt_trans (h.tokens_lt token htoken hstring) hlt
    · exact hlt
  · intro f hf hcode
    rw [findings_takeString] at hf
    split at hf
    · exact Nat.lt_trans (h.findings_lt f hf hcode) hlt
    · rcases Array.mem_push.mp hf with hf | rfl
      · exact Nat.lt_trans (h.findings_lt f hf hcode) hlt
      · exact hlt

private theorem Tells.takeToken (h : s.Tells) (hs : s.rest = c :: cs) : (s.takeToken c).Tells := by
  unfold Scanner.takeToken
  dsimp only
  split
  · exact h.silent (.same (s.skips_skip _) rfl rfl)
  split
  · exact h.silent (.same (s.skips_skip _) rfl rfl)
  split
  · exact h.silent s.silent_takeLineEnd
  split
  · exact h.silent (.same (s.skips_skip _) rfl rfl)
  split
  · exact h.silent s.silent_number
  split
  · rename_i hquote
    exact h.takeString (hs ▸ literal_of_isQuote hquote)
  split
  · split
    · rename_i marks hmarks
      exact h.takeString (literal_of_stringMarks? hmarks)
    split
    · exact h.silent s.silent_takeName
    · exact h.silent s.silent_takeUnknown
  · exact h.silent s.silent_takeSymbol

private theorem Tells.takeLineStart (h : s.Tells) : s.takeLineStart.Tells := by
  simp only [Scanner.takeLineStart]
  split
  · exact h.silent (.same (s.skips_skip _) rfl rfl)
  · rename_i c behind hrest
    repeat' split
    · exact h.silent (.same (s.skips_skip _) rfl rfl)
    · exact h.silent (.same (s.skips_skip _) rfl rfl)
    · have hlaid := h.silent (s.silent_layOut (Lexeme.run isMargin s.rest)
        ((s.rest.take (Lexeme.run isMargin s.rest)).foldl column 0))
      exact Tells.takeToken ⟨hlaid.told, hlaid.tokens_lt, hlaid.findings_lt⟩
        ((s.rest_layOut _ _).trans hrest)

private theorem Tells.run (h : s.Tells) : s.run.Tells := by
  fun_induction Scanner.run s with
  | case1 s _ => exact h
  | case2 s c cs hs ih =>
    refine ih ?_
    rw [advance]
    split
    · exact h.takeLineStart
    · exact h.takeToken hs

private theorem tells_start (text : String) : (start text).Tells :=
  ⟨fun _ htoken => by simp [start] at htoken, fun _ htoken => by simp [start] at htoken,
    fun _ hf => by simp [start] at hf⟩

private theorem told_scan {text : String} (htoken : token ∈ (scan text).tokens)
    (hstring : token.IsString) :
    Told (scan text).findings token := by
  obtain ⟨htokens, hfindings⟩ := (start text).run.silent_finish
  exact ((tells_start text).run.told token (htokens token htoken hstring) hstring).congr
    (unclosed_congr hfindings token)

end Scanner

/-! ## The value of a string -/

open Lexeme (isQuote opening)
open StringLiteral (value decode)

/-- **Scanner and decoder agree on where a string ends,** unless a string that is not closed ends
with its opening quotes all the same. The value of a string is what the scanner found between its
quotes, read behind its marks; where the two do not agree, the decoder leaves out hidden quotes that
the scanner has taken for a part of the string. -/
theorem decode_scan {text : String} {token : Token} (htoken : token ∈ (scan text).tokens)
    (hstring : token.IsString) :
    ∃ marks quote behind content, token.text.toList = marks ++ quote :: behind ∧
      (∀ c ∈ marks, isQuote c = false) ∧ isQuote quote = true ∧
      (¬ token.Unclosed (scan text).findings →
        quote :: behind = opening quote behind ++ (content ++ opening quote behind) ∧
          decode token.text = value marks content) ∧
      (token.Unclosed (scan text).findings →
        quote :: behind = opening quote behind ++ content ∧
          (¬ opening quote behind <:+ content → decode token.text = value marks content) ∧
          ∀ front, content = front ++ opening quote behind →
            decode token.text = value marks front ∧ front.getLast? = some '\\') := by
  obtain ⟨marks, quote, behind, htext, hmarks, hquote, hwhole, htold⟩ :=
    Scanner.told_scan htoken hstring
  obtain ⟨content, hclosed, hopen⟩ := Lexeme.exists_content hquote hwhole
  have hsize : StringLiteral.quoteSize (quote :: behind) = (opening quote behind).length :=
    Lexeme.quoteSize_cons hquote
  have hdecode := StringLiteral.decode_eq htext hmarks hquote
  refine ⟨marks, quote, behind, content, htext, hmarks, hquote, fun hnot => ?_, fun hunclosed => ?_⟩
  · have heq := hclosed (Bool.not_eq_false _ ▸ fun hfalse => hnot (htold.mpr hfalse))
    refine ⟨heq, ?_⟩
    rw [hdecode, StringLiteral.body_closed heq hsize]
  · obtain ⟨heq, hhidden⟩ := hopen (htold.mp hunclosed)
    refine ⟨heq, fun hend => by rw [hdecode, StringLiteral.body_open heq hsize hend], ?_⟩
    rintro front rfl
    refine ⟨by rw [hdecode, StringLiteral.body_closed heq hsize], ?_⟩
    obtain ⟨before, hbefore⟩ := hhidden (List.suffix_append _ _)
    have hfront : before ++ ['\\'] = front :=
      List.append_cancel_right (by rw [List.append_assoc]; exact hbefore)
    rw [← hfront, List.getLast?_concat]

/-- A quote that a backslash hides does not close the string, the quote behind it does. -/
theorem decode_scan_escaped :
    (⟨.string, ⟨4, 9⟩, "'a\\''"⟩ : Token) ∈ (scan "x = 'a\\''").tokens ∧
      ∃ marks quote behind content, "'a\\''".toList = marks ++ quote :: behind ∧
        quote :: behind = opening quote behind ++ (content ++ opening quote behind) ∧
        decode "'a\\''" = value marks content := by
  have htoken : (⟨.string, ⟨4, 9⟩, "'a\\''"⟩ : Token) ∈ (scan "x = 'a\\''").tokens := by
    decide +kernel
  have hfindings : (scan "x = 'a\\''").findings = #[] := by decide +kernel
  obtain ⟨marks, quote, behind, content, htext, -, -, hclosed, -⟩ :=
    decode_scan htoken (.inl rfl)
  refine ⟨htoken, marks, quote, behind, content, htext, hclosed ?_⟩
  rintro ⟨f, hf, -, -⟩
  rw [hfindings] at hf
  exact absurd hf (Array.not_mem_empty f)

/-- The scanner says that the string is not closed, and the decoder leaves its last quote out. -/
theorem decode_hidden_quote :
    (⟨.string, ⟨0, 4⟩, "'a\\'"⟩ : Token) ∈ (scan "'a\\'").tokens ∧
      Token.Unclosed (scan "'a\\'").findings ⟨.string, ⟨0, 4⟩, "'a\\'"⟩ ∧
      value [] ['a', '\\', '\''] = "a'" ∧ decode "'a\\'" = "a\\" := by
  refine ⟨by decide +kernel, ⟨⟨Code.unterminatedString, ⟨0, 4⟩, none⟩, ?_, rfl, rfl⟩, ?_, ?_⟩
  all_goals decide +kernel

end LiveCheck
