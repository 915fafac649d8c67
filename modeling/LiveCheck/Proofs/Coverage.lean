import LiveCheck.Proofs.Scanning.Places

/-!
# The scan covers the text

Every character of a text belongs to a token or carries no meaning, whatever the text is: the tokens
stand in order, each shows its own characters, and between one token and the next there is nothing
but blanks, line ends, comments and joined lines. Problems have places in the text as well.
-/

/-!
## Literals read byte by byte

The end of a string can be found without decoding its characters: a backslash hides the byte behind
it, and every other byte is compared with the quote and with the line ends. The byte that is hidden
may be the first of a longer character, so that the reader stands inside a character; still it stops
where one begins, since no byte of a longer character is a quote, a backslash or a line end.
-/

namespace LiveCheck.Lexeme

open Text

/-- The encoding of some characters. -/
def bytes (cs : List Char) : List UInt8 := cs.flatMap String.utf8EncodeChar

/-- The byte of a character that has only one. -/
def byte (c : Char) : UInt8 := .ofNat c.toNat

/-- The number of bytes of a string behind its opening quote or its three opening quotes, and
whether it is closed. -/
def bodyBytes (triple : Bool) (quote : UInt8) : List UInt8 → Nat × Bool
  | [] => (0, false)
  | b :: bs =>
    if b == byte '\\' then
      let (size, closed) := bodyBytes triple quote (bs.drop 1)
      (1 + (bs.take 1).length + size, closed)
    else if b == quote && !triple then (1, true)
    else if b == quote && [quote, quote].isPrefixOf bs then (3, true)
    else if !triple && (b == byte '\n' || b == byte '\r') then (0, false)
    else
      let (size, closed) := bodyBytes triple quote bs
      (1 + size, closed)
termination_by bs => bs.length

/-- The number of bytes of a string that begins with its opening quote, and whether it is closed. -/
def quotedBytes : List UInt8 → Nat × Bool
  | [] => (0, false)
  | quote :: bs =>
    let triple := [quote, quote].isPrefixOf bs
    let (size, closed) := bodyBytes triple quote (if triple then bs.drop 2 else bs)
    ((if triple then 3 else 1) + size, closed)

variable {c d quote : Char} {cs : List Char} {b : UInt8} {bs more : List UInt8} {triple : Bool}

/-! ### Bytes of characters -/

private theorem utf8EncodeChar_eq (h : c.toNat < 128) : String.utf8EncodeChar c = [byte c] := by
  have hle : c.val.toNat ≤ 127 := Nat.le_of_lt_succ h
  simp only [String.utf8EncodeChar, if_pos hle]
  rfl

private theorem le_of_mem_utf8EncodeChar (h : 128 ≤ c.toNat) (hb : b ∈ String.utf8EncodeChar c) :
    128 ≤ b.toNat := by
  have hlt : ¬ c.val.toNat ≤ 127 := Nat.not_le.mpr h
  simp only [String.utf8EncodeChar, if_neg hlt] at hb
  repeat' split at hb
  all_goals
    simp only [List.mem_cons, List.not_mem_nil, or_false] at hb
    rcases hb with rfl | rfl | rfl | rfl <;> simp only [UInt8.toNat_ofNat'] <;> omega

private theorem bytes_cons : bytes (c :: cs) = String.utf8EncodeChar c ++ bytes cs := rfl

private theorem bytes_cons_of_lt (h : c.toNat < 128) : bytes (c :: cs) = byte c :: bytes cs := by
  rw [bytes_cons, utf8EncodeChar_eq h]
  rfl

private theorem toNat_byte (h : c.toNat < 128) : (byte c).toNat = c.toNat := by
  rw [byte, UInt8.toNat_ofNat', Nat.mod_eq_of_lt (by omega)]

private theorem byte_beq (hc : c.toNat < 128) (hd : d.toNat < 128) :
    (byte c == byte d) = (c == d) := by
  apply Bool.eq_iff_iff.mpr
  rw [beq_iff_eq, beq_iff_eq]
  constructor
  · intro h
    apply Char.toNat_inj.mp
    rw [← toNat_byte hc, ← toNat_byte hd, h]
  · rintro rfl
    rfl

private theorem beq_byte_of_le (hb : 128 ≤ b.toNat) (hd : d.toNat < 128) :
    (b == byte d) = false := by
  apply beq_eq_false_iff_ne.mpr
  rintro rfl
  rw [toNat_byte hd] at hb
  omega

private theorem isPrefixOf_bytes {marks : List Char} (h : ∀ c ∈ marks, c.toNat < 128) :
    (marks.map byte).isPrefixOf (bytes cs) = marks.isPrefixOf cs := by
  induction marks generalizing cs with
  | nil => simp
  | cons m marks ih =>
    have hm := h m List.mem_cons_self
    have hmarks : ∀ c ∈ marks, c.toNat < 128 := fun c hc => h c (List.mem_cons_of_mem m hc)
    cases cs with
    | nil => rfl
    | cons c cs =>
      by_cases hc : c.toNat < 128
      · rw [bytes_cons_of_lt hc, List.map_cons, List.isPrefixOf, List.isPrefixOf, byte_beq hm hc,
          ih hmarks]
      · have hne : (m == c) = false := by
          apply beq_eq_false_iff_ne.mpr
          rintro rfl
          exact hc hm
        obtain ⟨b, more, henc⟩ := List.exists_cons_of_ne_nil (String.utf8EncodeChar_ne_nil (c := c))
        have hb : 128 ≤ b.toNat :=
          le_of_mem_utf8EncodeChar (Nat.not_lt.mp hc) (henc ▸ List.mem_cons_self)
        rw [bytes_cons, henc, List.cons_append, List.map_cons, List.isPrefixOf, List.isPrefixOf, hne,
          BEq.comm, beq_byte_of_le hb hm, Bool.false_and, Bool.false_and]

/-! ### Strings -/

private theorem bodyBytes_append (hquote : quote.toNat < 128) (h : ∀ b ∈ more, 128 ≤ b.toNat) :
    bodyBytes triple (byte quote) (more ++ bs) =
      (more.length + (bodyBytes triple (byte quote) bs).1,
        (bodyBytes triple (byte quote) bs).2) := by
  induction more with
  | nil => simp
  | cons b more ih =>
    have hb := h b List.mem_cons_self
    have hmore : ∀ b ∈ more, 128 ≤ b.toNat := fun b hb => h b (List.mem_cons_of_mem _ hb)
    rw [List.cons_append, bodyBytes, beq_byte_of_le hb (by decide), beq_byte_of_le hb hquote,
      beq_byte_of_le hb (d := '\n') (by decide), beq_byte_of_le hb (d := '\r') (by decide)]
    simp only [Bool.false_and, Bool.or_false, Bool.and_false, Bool.false_eq_true, if_false,
      ih hmore, List.length_cons]
    rw [Nat.add_comm 1, Nat.add_right_comm]

private theorem ne_of_le (hc : 128 ≤ c.toNat) (hd : d.toNat < 128) : (c == d) = false := by
  apply beq_eq_false_iff_ne.mpr
  rintro rfl
  omega

private theorem bodyBytes_cons (hquote : quote.toNat < 128) (hc : c ≠ '\\') :
    bodyBytes triple (byte quote) (bytes (c :: cs)) =
      if c == quote && !triple then (1, true)
      else if c == quote && [quote, quote].isPrefixOf cs then (3, true)
      else if !triple && (c == '\n' || c == '\r') then (0, false)
      else (c.utf8Size + (bodyBytes triple (byte quote) (bytes cs)).1,
        (bodyBytes triple (byte quote) (bytes cs)).2) := by
  have hmarks : ∀ d ∈ [quote, quote], d.toNat < 128 := by simp [hquote]
  have hprefix : [byte quote, byte quote].isPrefixOf (bytes cs) = [quote, quote].isPrefixOf cs :=
    isPrefixOf_bytes hmarks
  by_cases hlt : c.toNat < 128
  · have hsize : c.utf8Size = 1 := by
      rw [← String.length_utf8EncodeChar, utf8EncodeChar_eq hlt]
      rfl
    rw [bytes_cons_of_lt hlt, bodyBytes, byte_beq hlt (by decide), byte_beq hlt hquote,
      byte_beq hlt (d := '\n') (by decide), byte_beq hlt (d := '\r') (by decide), hprefix, hsize,
      if_neg (by simpa using hc)]
  · have hle := Nat.not_lt.mp hlt
    rw [bytes_cons, bodyBytes_append hquote fun b hb => le_of_mem_utf8EncodeChar hle hb,
      String.length_utf8EncodeChar, ne_of_le hle hquote, ne_of_le hle (d := '\n') (by decide),
      ne_of_le hle (d := '\r') (by decide)]
    simp

private theorem le_of_mem_tail (hb : b ∈ (String.utf8EncodeChar c).tail) : 128 ≤ b.toNat := by
  by_cases hlt : c.toNat < 128
  · rw [utf8EncodeChar_eq hlt] at hb
    cases hb
  · exact le_of_mem_utf8EncodeChar (Nat.not_lt.mp hlt) (List.mem_of_mem_tail hb)

private theorem bodyBytes_backslash (hquote : quote.toNat < 128) :
    bodyBytes triple (byte quote) (bytes ('\\' :: c :: cs)) =
      (1 + c.utf8Size + (bodyBytes triple (byte quote) (bytes cs)).1,
        (bodyBytes triple (byte quote) (bytes cs)).2) := by
  obtain ⟨b, more, henc⟩ := List.exists_cons_of_ne_nil (String.utf8EncodeChar_ne_nil (c := c))
  have hsize : c.utf8Size = more.length + 1 := by
    rw [← String.length_utf8EncodeChar, henc]
    rfl
  have hmore : ∀ b ∈ more, 128 ≤ b.toNat := fun b hb => le_of_mem_tail (c := c) (by rwa [henc])
  rw [bytes_cons_of_lt (by decide), bytes_cons, henc, bodyBytes, if_pos (by rfl)]
  simp only [List.cons_append, List.drop_succ_cons, List.drop_zero, List.take_succ_cons,
    List.take_zero, List.length_cons, List.length_nil, bodyBytes_append hquote hmore, hsize]
  rw [Prod.mk.injEq]
  exact ⟨by omega, rfl⟩

private theorem bodyBytes_single (hquote : quote.toNat < 128) :
    bodyBytes false (byte quote) (bytes cs) =
      (byteLength (cs.take (singleBody quote cs).1), (singleBody quote cs).2) := by
  fun_induction singleBody quote cs with
  | case1 =>
    rw [bytes, List.flatMap_nil, bodyBytes]
    rfl
  | case2 =>
    rw [bytes_cons_of_lt (by decide), bodyBytes, if_pos (by rfl)]
    simp only [bytes, List.flatMap_nil, List.drop_nil, List.take_nil, bodyBytes]
    rfl
  | case3 d cs size closed hbody ih =>
    rw [hbody] at ih
    rw [bodyBytes_backslash hquote, ih]
    simp only [List.take_succ_cons, byteLength, Nat.add_assoc]
    rfl
  | case4 c cs hlast hnext hq =>
    obtain rfl := beq_iff_eq.mp hq
    have hsize : c.utf8Size = 1 := by
      rw [← String.length_utf8EncodeChar, utf8EncodeChar_eq hquote]
      rfl
    rw [bodyBytes_cons hquote (ne_backslash hlast hnext)]
    simp [byteLength, hsize]
  | case5 c cs hlast hnext hq hline =>
    rw [bodyBytes_cons hquote (ne_backslash hlast hnext)]
    simp [hq, hline, byteLength]
  | case6 c cs hlast hnext hq hline size closed hbody ih =>
    rw [hbody] at ih
    rw [bodyBytes_cons hquote (ne_backslash hlast hnext), ih]
    simp [hq, hline, byteLength]

private theorem bodyBytes_triple (hquote : quote.toNat < 128) :
    bodyBytes true (byte quote) (bytes cs) =
      (byteLength (cs.take (tripleBody quote cs).1), (tripleBody quote cs).2) := by
  fun_induction tripleBody quote cs with
  | case1 =>
    rw [bytes, List.flatMap_nil, bodyBytes]
    rfl
  | case2 =>
    rw [bytes_cons_of_lt (by decide), bodyBytes, if_pos (by rfl)]
    simp only [bytes, List.flatMap_nil, List.drop_nil, List.take_nil, bodyBytes]
    rfl
  | case3 d cs size closed hbody ih =>
    rw [hbody] at ih
    rw [bodyBytes_backslash hquote, ih]
    simp only [List.take_succ_cons, byteLength, Nat.add_assoc]
    rfl
  | case4 c cs hlast hnext hmark =>
    rw [Bool.and_eq_true, beq_iff_eq] at hmark
    obtain ⟨rfl, hmark⟩ := hmark
    obtain ⟨ds, rfl⟩ := List.isPrefixOf_iff_prefix.mp hmark
    have hsize : c.utf8Size = 1 := by
      rw [← String.length_utf8EncodeChar, utf8EncodeChar_eq hquote]
      rfl
    rw [bodyBytes_cons hquote (ne_backslash hlast hnext)]
    simp [byteLength, hsize]
  | case5 c cs hlast hnext hmark size closed hbody ih =>
    rw [hbody] at ih
    rw [bodyBytes_cons hquote (ne_backslash hlast hnext), ih]
    simp [hmark, byteLength]

private theorem quotedBytes_bytes (hquote : isQuote quote = true) :
    quotedBytes (bytes (quote :: cs)) =
      (byteLength ((quote :: cs).take (quoted (quote :: cs)).1), (quoted (quote :: cs)).2) := by
  have hlt : quote.toNat < 128 := by
    rcases isQuote_iff.mp hquote with rfl | rfl <;> decide
  have hsize : quote.utf8Size = 1 := by
    rw [← String.length_utf8EncodeChar, utf8EncodeChar_eq hlt]
    rfl
  have hmarks : ∀ d ∈ [quote, quote], d.toNat < 128 := by simp [hlt]
  have hprefix : [byte quote, byte quote].isPrefixOf (bytes cs) = [quote, quote].isPrefixOf cs :=
    isPrefixOf_bytes hmarks
  rw [bytes_cons_of_lt hlt, quotedBytes, quoted, hprefix]
  cases hmark : [quote, quote].isPrefixOf cs with
  | false =>
    simp only [Bool.false_eq_true, if_false, bodyBytes_single hlt, List.take_succ_cons, byteLength,
      hsize]
  | true =>
    obtain ⟨ds, rfl⟩ := List.isPrefixOf_iff_prefix.mp hmark
    have hdrop : (bytes ([quote, quote] ++ ds)).drop 2 = bytes ds := by
      rw [List.cons_append, List.cons_append, bytes_cons_of_lt hlt, bytes_cons_of_lt hlt]
      rfl
    have hbehind : ([quote, quote] ++ ds).drop 2 = ds := rfl
    simp only [if_true, hdrop, hbehind, bodyBytes_triple hlt]
    simp only [List.cons_append, List.take_succ_cons, List.nil_append, byteLength, hsize,
      Prod.mk.injEq, and_true]
    omega

end LiveCheck.Lexeme

/-! ## Places of characters -/

namespace LiveCheck

namespace Text

variable {a b c d text : List Char}

private theorem splitAt?_append (before behind : List Char) :
    splitAt? (before ++ behind) (byteLength before) = some (before, behind) := by
  induction before with
  | nil =>
    cases behind
    all_goals rfl
  | cons c cs ih =>
    obtain ⟨n, hn⟩ := Nat.exists_eq_add_one.mpr c.utf8Size_pos
    have hlength : byteLength (c :: cs) = n + byteLength cs + 1 := by
      simp only [byteLength, hn]
      omega
    have hle : c.utf8Size ≤ n + byteLength cs + 1 := by omega
    have hsub : n + byteLength cs + 1 - c.utf8Size = byteLength cs := by omega
    rw [List.cons_append, hlength, splitAt?, if_pos hle, hsub, ih]
    rfl

/-- The slice between two parts of a text is what stands there. -/
theorem slice?_append (before middle behind : List Char) :
    slice? (before ++ (middle ++ behind)) (byteLength before)
      (byteLength before + byteLength middle) = some middle := by
  rw [slice?, if_pos (Nat.le_add_right _ _), splitAt?_append]
  simp [splitAt?_append]

/-- Texts that begin at the same place of a text are equal. -/
theorem eq_of_byteLength_eq (h : a ++ b = c ++ d) (hlength : byteLength a = byteLength c) :
    a = c ∧ b = d := by
  have hsplit := splitAt?_append a b
  rw [h, hlength, splitAt?_append] at hsplit
  simpa [eq_comm] using hsplit

private theorem byteLength_of_splitAt? {n : Nat} (h : splitAt? a n = some (b, c)) :
    byteLength b = n := by
  fun_induction splitAt? a n generalizing b c with
  | case1 cs =>
    cases h
    rfl
  | case2 => cases h
  | case3 d cs n hle ih =>
    obtain ⟨⟨before, after⟩, hsplit, heq⟩ := Option.map_eq_some_iff.mp h
    cases heq
    have hbefore := ih hsplit
    simp only [byteLength]
    omega
  | case4 => cases h

/-- A slice is a part of the text. -/
theorem exists_of_slice? {start stop : Nat} (h : slice? text start stop = some a) :
    ∃ before behind, text = before ++ (a ++ behind) ∧ byteLength before = start ∧
      start + byteLength a = stop := by
  rw [slice?] at h
  split at h
  case isFalse => cases h
  case isTrue hle =>
    obtain ⟨⟨before, after⟩, hsplit, h⟩ := Option.bind_eq_some_iff.mp h
    obtain ⟨⟨middle, behind⟩, hsplit', heq⟩ := Option.bind_eq_some_iff.mp h
    cases heq
    refine ⟨before, behind, ?_, byteLength_of_splitAt? hsplit, ?_⟩
    · rw [append_eq_of_splitAt? hsplit', append_eq_of_splitAt? hsplit]
    · rw [byteLength_of_splitAt? hsplit']
      omega

private theorem le_of_slice? {start stop : Nat} (h : slice? text start stop = some a) :
    stop ≤ byteLength text := by
  obtain ⟨before, behind, rfl, hstart, hstop⟩ := exists_of_slice? h
  simp only [byteLength_append]
  omega

/-- Nothing but filler stands between two places of a text. -/
def Between (text : List Char) (start stop : Nat) : Prop :=
  ∃ before gap behind, text = before ++ (gap ++ behind) ∧ byteLength before = start ∧
    byteLength before + byteLength gap = stop ∧ Filler gap behind

private theorem Between.trans {l m n : Nat} (h : Between text l m) (h' : Between text m n) :
    Between text l n := by
  obtain ⟨before, gap, behind, htext, hstart, hstop, hgap⟩ := h
  obtain ⟨before', gap', behind', htext', hstart', hstop', hgap'⟩ := h'
  have hlength : byteLength (before ++ gap) = byteLength before' := by
    rw [byteLength_append]
    omega
  have hboth : (before ++ gap) ++ behind = before' ++ (gap' ++ behind') := by
    rw [List.append_assoc, ← htext, htext']
  obtain ⟨rfl, rfl⟩ := eq_of_byteLength_eq hboth hlength
  refine ⟨before, gap ++ gap', behind', ?_, hstart, ?_, hgap.append hgap'⟩
  · rw [htext, List.append_assoc]
  · rw [byteLength_append] at hstop' ⊢
    omega

end Text

open Text

/-- The span begins and ends between two characters of the text, in this order. -/
def Span.Lies (text : List Char) (span : Span) : Prop :=
  (slice? text span.start span.stop).isSome = true

/-- The characters of the token are those at its place in the text. -/
def Token.Shows (text : List Char) (token : Token) : Prop :=
  slice? text token.span.start token.span.stop = some token.text.toList

/-- The place behind the last of some tokens. -/
def Token.reached (tokens : Array Token) : Nat := tokens.back?.elim 0 (·.span.stop)

namespace Scanner

/-- What has been scanned of a text is covered. -/
structure Covers (text : List Char) (s : Scanner) : Prop where
  rest : ∃ before, text = before ++ s.rest ∧ byteLength before = s.offset
  tokens : ∀ token ∈ s.tokens, token.Shows text
  first : ∀ token, s.tokens[0]? = some token → Between text 0 token.span.start
  gaps : ∀ i x y, s.tokens[i]? = some x → s.tokens[i + 1]? = some y →
    Between text x.span.stop y.span.start
  last : Between text (Token.reached s.tokens) s.offset
  findings : ∀ finding ∈ s.findings, finding.span.Lies text
  brackets : ∀ bracket ∈ s.brackets, Span.Lies text ⟨bracket.2, bracket.2 + 1⟩

namespace Covers

variable {text : List Char} {s t : Scanner} {n : Nat}

section

variable (h : s.Covers text)
include h

private theorem congr (hrest : t.rest = s.rest) (hoffset : t.offset = s.offset)
    (htokens : t.tokens = s.tokens) (hfindings : t.findings = s.findings)
    (hbrackets : t.brackets = s.brackets) : t.Covers text := by
  obtain ⟨rest, offset, tokens, findings, indents, brackets, atLineStart⟩ := t
  cases hrest
  cases hoffset
  cases htokens
  cases hfindings
  cases hbrackets
  exact { h with }

private theorem rest_skip (n : Nat) :
    ∃ before, text = before ++ (s.skip n).rest ∧ byteLength before = (s.skip n).offset := by
  obtain ⟨before, htext, hoffset⟩ := h.rest
  refine ⟨before ++ s.rest.take n, ?_, ?_⟩
  · rw [htext, Scanner.rest_skip, List.append_assoc, List.take_append_drop]
  · rw [byteLength_append, hoffset]
    rfl

private theorem slice?_take (n : Nat) :
    slice? text s.offset (s.skip n).offset = some (s.rest.take n) := by
  obtain ⟨before, htext, hoffset⟩ := h.rest
  have hslice := slice?_append before (s.rest.take n) (s.rest.drop n)
  rw [List.take_append_drop, ← htext, hoffset] at hslice
  exact hslice

private theorem skip (hfiller : Filler (s.rest.take n) (s.rest.drop n)) :
    (s.skip n).Covers text := by
  obtain ⟨before, htext, hoffset⟩ := h.rest
  have hgap : Between text s.offset (s.skip n).offset := by
    refine ⟨before, s.rest.take n, s.rest.drop n, ?_, hoffset, ?_, hfiller⟩
    · rw [htext, List.take_append_drop]
    · rw [hoffset]
      rfl
  exact ⟨h.rest_skip n, h.tokens, h.first, h.gaps, h.last.trans hgap, h.findings, h.brackets⟩

private theorem note (code n : Nat) : (s.note code n).Covers text := by
  refine ⟨h.rest, h.tokens, h.first, h.gaps, h.last, fun finding hfinding => ?_, h.brackets⟩
  rcases Array.mem_push.mp hfinding with hfinding | rfl
  · exact h.findings finding hfinding
  · have hslice := h.slice?_take n
    exact Option.isSome_of_mem hslice

private theorem take (kind : TokenKind) (n : Nat) : (s.take kind n).Covers text := by
  have hsize : (s.take kind n).tokens = s.tokens.push
      ⟨kind, ⟨s.offset, (s.skip n).offset⟩, String.ofList (s.rest.take n)⟩ := rfl
  have hback (i : Nat) (hi : i + 1 = s.tokens.size) (x : Token) (hx : s.tokens[i]? = some x) :
      Token.reached s.tokens = x.span.stop := by
    have hlast : s.tokens.back? = some x := by
      rw [Array.back?_eq_getElem?, ← hi, Nat.add_sub_cancel, hx]
    rw [Token.reached, hlast]
    rfl
  refine ⟨h.rest_skip n, fun token htoken => ?_, fun token htoken => ?_,
    fun i x y hx hy => ?_, ?_, h.findings, h.brackets⟩
  · rw [hsize] at htoken
    rcases Array.mem_push.mp htoken with htoken | rfl
    · exact h.tokens token htoken
    · rw [Token.Shows, String.toList_ofList]
      exact h.slice?_take n
  · rw [hsize, Array.getElem?_push] at htoken
    split at htoken
    · next hzero =>
      have hnone : s.tokens.back? = none := by
        rw [Array.back?_eq_getElem?, ← hzero]
        simpa using hzero.symm
      cases htoken
      have hlast := h.last
      rw [Token.reached, hnone] at hlast
      exact hlast
    · exact h.first token htoken
  · rw [hsize, Array.getElem?_push] at hx hy
    split at hy
    · next hi =>
      cases hy
      rw [if_neg (by omega)] at hx
      rw [← hback i hi x hx]
      exact h.last
    · next hi =>
      have hlt := (Array.getElem?_eq_some_iff.mp hy).1
      rw [if_neg (by omega)] at hx
      exact h.gaps i x y hx hy
  · obtain ⟨before, htext, hoffset⟩ := h.rest_skip n
    rw [Token.reached, hsize, Array.back?_push]
    exact ⟨before, [], (s.skip n).rest, htext, hoffset, hoffset, .nil _⟩

private theorem mark (kind : TokenKind) : (s.mark kind).Covers text := by
  have heq : s.mark kind = s.take kind 0 := by
    simp [Scanner.mark, Scanner.take, Scanner.skip, byteLength]
  rw [heq]
  exact h.take kind 0

private theorem action (hact : s.Action t) : t.Covers text := by
  cases hact with
  | skip n hfiller => exact h.skip hfiller
  | note code n => exact h.note code n
  | turn | enter => exact h.congr rfl rfl rfl rfl rfl
  | newline n => exact (h.take .newline n).congr rfl rfl rfl rfl rfl
  | indent n here => exact (h.take .indent n).congr rfl rfl rfl rfl rfl
  | dedent => exact (h.mark .dedent).congr rfl rfl rfl rfl rfl
  | token kind n => exact h.take kind n
  | opening mark _ _ _ hbyte =>
    have htake := h.take mark 1
    refine ⟨htake.rest, htake.tokens, htake.first, htake.gaps, htake.last, htake.findings,
      fun bracket hbracket => ?_⟩
    rcases List.mem_cons.mp hbracket with rfl | hbracket
    · have hslice := h.slice?_take 1
      rw [Scanner.skip, hbyte] at hslice
      exact Option.isSome_of_mem hslice
    · exact h.brackets bracket hbracket
  | closing mark =>
    have htake := h.take mark 1
    exact ⟨htake.rest, htake.tokens, htake.first, htake.gaps, htake.last, htake.findings,
      fun bracket hbracket => h.brackets bracket (List.mem_of_mem_tail hbracket)⟩

private theorem acts (hacts : s.Acts t) : t.Covers text := by
  induction hacts with
  | refl => exact h
  | tail _ hact ih => exact ih.action hact

end

private theorem start (text : String) : (Scanner.start text).Covers text.toList := by
  refine ⟨⟨[], rfl, rfl⟩, ?_, ?_, ?_, ⟨[], [], text.toList, rfl, rfl, rfl, .nil _⟩, ?_, ?_⟩
  all_goals simp [Scanner.start]

private theorem dedents (h : s.Covers text) (indents : List Nat) :
    (indents.foldl (fun s _ => s.mark .dedent) s).Covers text := by
  induction indents generalizing s with
  | nil => exact h
  | cons _ indents ih => exact ih (h.mark .dedent)

private theorem finish (h : s.Covers text) : s.finish.Covers text := by
  have hunclosed : Covers text { s with
      findings := s.findings ++ (s.brackets.map fun entry =>
        (⟨Code.unclosedBracket, ⟨entry.2, entry.2 + 1⟩, some entry.1.text⟩ : Finding)).toArray } := by
    refine ⟨h.rest, h.tokens, h.first, h.gaps, h.last, fun finding hfinding => ?_, h.brackets⟩
    rcases Array.mem_append.mp hfinding with hfinding | hfinding
    · exact h.findings finding hfinding
    · obtain ⟨entry, hentry, rfl⟩ := List.mem_map.mp (List.mem_toArray.mp hfinding)
      exact h.brackets entry hentry
  simp only [Scanner.finish]
  apply Covers.mark
  apply Covers.dedents
  split
  · exact hunclosed.mark .newline
  · exact hunclosed

end Covers

private theorem offset_dedents (indents : List Nat) (s : Scanner) :
    (indents.foldl (fun s _ => s.mark .dedent) s).offset = s.offset := by
  induction indents generalizing s with
  | nil => rfl
  | cons _ indents ih => exact ih (s.mark .dedent)

/-- The last token stands where the scan has ended. -/
theorem back?_finish (s : Scanner) :
    s.finish.tokens.back? = some ⟨.endOfFile, ⟨s.offset, s.offset⟩, ""⟩ := by
  have hmark (r : Scanner) : (r.mark .endOfFile).tokens.back? =
      some ⟨.endOfFile, ⟨r.offset, r.offset⟩, ""⟩ := Array.back?_push
  simp only [finish]
  rw [hmark, offset_dedents]
  split
  · rfl
  · rfl

theorem covers_scan (text : String) : (start text).run.finish.Covers text.toList :=
  ((Covers.start text).acts (acts_run (rests_start text))).finish

end Scanner

/-- The scan of a text comes to an end and gives an account of all its characters. -/
structure Coverage (text : String) : Prop where
  /-- No scan takes more steps than the text has characters. -/
  bounded : ∀ n s, Scanner.Steps n (Scanner.start text) s → n ≤ text.toList.length
  /-- The scan goes on until nothing is left. -/
  ends : ∃ n, Scanner.Steps n (Scanner.start text) (Scanner.start text).run ∧
    (Scanner.start text).run.rest = []
  /-- No token begins before the one before it has ended. -/
  ordered : (scan text).tokens.toList.Pairwise Token.Precedes
  /-- A token stands in the text where its span says. -/
  shown : ∀ token ∈ (scan text).tokens, token.span.start ≤ token.span.stop ∧
    token.span.stop ≤ text.utf8ByteSize ∧ token.Shows text.toList
  /-- Only layout and the end of the text have no characters. -/
  size : ∀ token ∈ (scan text).tokens, token.kind.endsLine = false → token.text ≠ ""
  /-- Nothing of meaning stands before the first token. -/
  first : ∀ token, (scan text).tokens[0]? = some token → Between text.toList 0 token.span.start
  /-- Nothing of meaning stands between one token and the next. -/
  gaps : ∀ i x y, (scan text).tokens[i]? = some x → (scan text).tokens[i + 1]? = some y →
    Between text.toList x.span.stop y.span.start
  /-- The last token stands at the end of the text. -/
  last : ∃ token, (scan text).tokens.back? = some token ∧
    token.span = ⟨text.utf8ByteSize, text.utf8ByteSize⟩
  /-- A problem has a place in the text. -/
  findings : ∀ finding ∈ (scan text).findings, finding.span.Lies text.toList ∧
    finding.span.stop ≤ text.utf8ByteSize
  /-- Wherever a string may begin, a reader of bytes stops between two characters and takes the
  same string, although a backslash may hide part of a character from it. -/
  strings : ∀ before quote behind, text.toList = before ++ quote :: behind →
    Lexeme.isQuote quote = true → Lexeme.quotedBytes (Lexeme.bytes (quote :: behind)) =
      (byteLength ((quote :: behind).take (Lexeme.quoted (quote :: behind)).1),
        (Lexeme.quoted (quote :: behind)).2)


/-- **The tokens of a text cover it**, whatever the text is. -/
theorem coverage_scan (text : String) : Coverage text := by
  have hcovers := Scanner.covers_scan text
  have hordered := ordered_scan text
  have hbytes : byteLength text.toList = text.utf8ByteSize := by
    rw [← utf8ByteSize_ofList, String.ofList_toList]
  have hends := Scanner.exists_steps_run (Scanner.start text)
  refine ⟨fun n s hsteps => ?_, ?_, hordered.ordered, fun token htoken => ?_,
    fun token htoken hline => ?_, hcovers.first, hcovers.gaps, ?_, fun finding hfinding => ?_,
    fun _ _ _ _ hquote => Lexeme.quotedBytes_bytes hquote⟩
  · have hlength := hsteps.add_length_le
    exact Nat.le_trans (Nat.le_add_right _ _) hlength
  · obtain ⟨n, hn⟩ := hends
    exact ⟨n, hn, Scanner.rest_run _⟩
  · have hshows := hcovers.tokens token htoken
    exact ⟨hordered.order token htoken, hbytes ▸ le_of_slice? hshows, hshows⟩
  · intro hempty
    obtain ⟨before, behind, -, -, hstop⟩ := exists_of_slice? (hcovers.tokens token htoken)
    have hlt := hordered.size token htoken hline
    rw [hempty] at hstop
    simp [byteLength] at hstop
    omega
  · refine ⟨_, Scanner.back?_finish _, ?_⟩
    rw [Scanner.CompleteLines.offset]
  · have hlies := hcovers.findings finding hfinding
    obtain ⟨cs, hslice⟩ := Option.isSome_iff_exists.mp hlies
    exact ⟨hlies, hbytes ▸ le_of_slice? hslice⟩

end LiveCheck
