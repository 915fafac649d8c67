import LiveCheck.Diagnostic
import LiveCheck.Token.Lexeme

/-!
# Scanning

A text becomes a list of tokens in which the layout of the lines is explicit: `newline` ends a
logical line, `indent` and `dedent` open and close a block, `endOfFile` closes the text. Inside
brackets lines are joined and layout does not count. Scanning never fails: a character that begins
no token is a token of its own and a finding.

One step (`Scanner.advance`) takes at least one character off the text (`Scanner.advance_lt`), and
the scan repeats it until nothing is left.
-/

namespace LiveCheck

/-- A token with its place and its spelling. -/
structure Token where
  kind : TokenKind
  span : Span
  text : String
deriving Repr, DecidableEq, Inhabited

/-- The state of a scan. -/
structure Scanner where
  rest : List Char
  /-- The bytes that were taken; they fit into 32 bits if the text is shorter than 2^32 bytes. -/
  offset : Nat
  tokens : Array Token
  findings : Array Finding
  /-- The columns of the open blocks, the innermost first; the last one is zero. -/
  indents : List Nat
  /-- The open brackets with their offsets, the innermost first. -/
  brackets : List (Symbol × Nat)
  /-- Whether the next character begins a line whose layout counts. -/
  atLineStart : Bool
deriving Repr, Inhabited

namespace Scanner

open Text

/-- The scan of a text before its first character. -/
def start (text : String) : Scanner := ⟨text.toList, 0, #[], #[], [0], [], true⟩

/-- Takes the next `count` characters off the rest. -/
def skip (s : Scanner) (count : Nat) : Scanner :=
  { s with
    rest := s.rest.drop count
    offset := s.offset + byteLength (s.rest.take count) }

/-- Adds a token without characters at the current offset. -/
def mark (s : Scanner) (kind : TokenKind) : Scanner :=
  { s with tokens := s.tokens.push ⟨kind, ⟨s.offset, s.offset⟩, ""⟩ }

/-- Takes the next `count` characters off the rest as one token. -/
def take (s : Scanner) (kind : TokenKind) (count : Nat) : Scanner :=
  let after := s.skip count
  { after with
    tokens :=
      s.tokens.push ⟨kind, ⟨s.offset, after.offset⟩, String.ofList (s.rest.take count)⟩ }

/-- Records a problem with the next `count` characters. -/
def note (s : Scanner) (code : Nat) (count : Nat) : Scanner :=
  let stop := s.offset + byteLength (s.rest.take count)
  { s with findings := s.findings.push ⟨code, ⟨s.offset, stop⟩, none⟩ }

/-- Whether the current logical line has a token that is not layout. -/
def lineHasTokens (s : Scanner) : Bool :=
  match s.tokens.back? with
  | some token => !token.kind.isLayout
  | none => false

/-! ## Layout -/

/-- What may stand before the first token of a line. -/
def isMargin (c : Char) : Bool := c == ' ' || c == '\t' || c == '\x0c'

/-- The column behind one more margin character: tabs go to the next multiple of eight and a form
feed starts over. -/
def column (here : Nat) (c : Char) : Nat :=
  if c == '\t' then (here / 8 + 1) * 8 else if c == '\x0c' then 0 else here + 1

def isLineEnd (c : Char) : Bool := c == '\n' || c == '\r'

/-- The length of the line end at the beginning of a text: a carriage return, a line feed, or the
one followed by the other. -/
def lineEnd : List Char → Nat
  | '\r' :: '\n' :: _ => 2
  | '\r' :: _ => 1
  | '\n' :: _ => 1
  | _ => 0

/-- The length of a comment, its line end not included. -/
def comment (cs : List Char) : Nat := Lexeme.run (fun c => !isLineEnd c) cs

/-- Closes the blocks that are deeper than `here`; the outermost stays. -/
def closeBlocks (here : Nat) : List Nat → Scanner → Scanner
  | top :: below :: rest, s =>
    if here < top then closeBlocks here (below :: rest) (s.mark .dedent)
    else { s with indents := top :: below :: rest }
  | indents, s => { s with indents := indents }

/-- Opens or closes blocks for a line whose margin is the next `margin` characters and whose first
token is in column `here`; the margin is taken off the rest. -/
def layOut (s : Scanner) (margin here : Nat) : Scanner :=
  let top := s.indents.headD 0
  if top < here then
    { s.take .indent margin with indents := here :: s.indents }
  else if here < top then
    let closed := closeBlocks here s.indents (s.skip margin)
    if closed.indents.headD 0 = here then closed
    else
      { closed with
        findings := closed.findings.push
          ⟨Code.inconsistentDedent, ⟨s.offset, closed.offset⟩, none⟩ }
  else s.skip margin

/-! ## Tokens -/

/-- Takes a line end: it ends the logical line unless a bracket is open. -/
def takeLineEnd (s : Scanner) : Scanner :=
  let count := lineEnd s.rest
  if s.brackets.isEmpty then
    let after := if s.lineHasTokens then s.take .newline count else s.skip count
    { after with atLineStart := true }
  else s.skip count

/-- Takes a string whose opening quote stands behind `marks` letters. -/
def takeString (s : Scanner) (marks : Nat) : Scanner :=
  let (size, closed) := Lexeme.quoted (s.rest.drop marks)
  let count := marks + size
  let kind := if (s.rest.take marks).any Lexeme.isBytesMark then .bytes else .string
  let noted := if closed then s else s.note Code.unterminatedString count
  noted.take kind count

/-- Takes a character that begins no token. -/
def takeUnknown (s : Scanner) : Scanner := (s.note Code.invalidCharacter 1).take .unknown 1

def takeName (s : Scanner) : Scanner :=
  let count := 1 + Lexeme.run Lexeme.continuesName (s.rest.drop 1)
  match Keyword.ofText? (String.ofList (s.rest.take count)) with
  | some word => s.take word count
  | none => s.take .name count

/-- Takes a symbol and keeps track of the open brackets. -/
def takeSymbol (s : Scanner) : Scanner :=
  match Symbol.leading? s.rest with
  | some (mark, count) =>
    let taken := s.take mark count
    if mark.opens then { taken with brackets := (mark, s.offset) :: s.brackets }
    else if mark.closes then { taken with brackets := s.brackets.tail }
    else taken
  | none => s.takeUnknown

/-- Whether the text begins with a decimal digit. -/
def startsWithDigit : List Char → Bool
  | c :: _ => Lexeme.isDigit c
  | [] => false

/-- Whether the text begins with a line end. -/
def startsWithLineEnd : List Char → Bool
  | c :: _ => isLineEnd c
  | [] => false

/-- Takes one token, blank, comment or line end; `c` is the next character. -/
def takeToken (s : Scanner) (c : Char) : Scanner :=
  let behind := s.rest.drop 1
  if isMargin c then s.skip 1
  else if c == '#' then s.skip (comment s.rest)
  else if isLineEnd c then s.takeLineEnd
  else if c == '\\' && startsWithLineEnd behind then s.skip (1 + lineEnd behind)
  else if Lexeme.isDigit c || (c == '.' && startsWithDigit behind) then
    let (kind, count) := Lexeme.number s.rest
    s.take kind count
  else if Lexeme.isQuote c then s.takeString 0
  else if c == '_' || c.isAlpha || 127 < c.toNat then
    match Lexeme.stringMarks? s.rest with
    | some marks => s.takeString marks
    | none => if Lexeme.startsName c then s.takeName else s.takeUnknown
  else s.takeSymbol

/-- Takes the beginning of a line: a line without tokens as a whole, else the margin and the first
token. -/
def takeLineStart (s : Scanner) : Scanner :=
  let margin := Lexeme.run isMargin s.rest
  match s.rest.drop margin with
  | [] => s.skip margin
  | c :: behind =>
    if c == '#' then
      let note := comment (c :: behind)
      s.skip (margin + note + lineEnd ((c :: behind).drop note))
    else if isLineEnd c then s.skip (margin + lineEnd (c :: behind))
    else
      let here := (s.rest.take margin).foldl column 0
      { s.layOut margin here with atLineStart := false }.takeToken c

/-- One step of a scan that has characters left; `c` is the next one. -/
def advance (s : Scanner) (c : Char) : Scanner :=
  if s.atLineStart && s.brackets.isEmpty then s.takeLineStart else s.takeToken c

/-! ## Progress -/

@[simp] theorem rest_skip (s : Scanner) (n : Nat) : (s.skip n).rest = s.rest.drop n := rfl

@[simp] theorem rest_mark (s : Scanner) (kind : TokenKind) : (s.mark kind).rest = s.rest := rfl

@[simp] theorem rest_take (s : Scanner) (kind : TokenKind) (n : Nat) :
    (s.take kind n).rest = s.rest.drop n := rfl

@[simp] theorem rest_note (s : Scanner) (code n : Nat) : (s.note code n).rest = s.rest := rfl

@[simp] theorem rest_closeBlocks (here : Nat) (indents : List Nat) (s : Scanner) :
    (closeBlocks here indents s).rest = s.rest := by
  fun_induction closeBlocks here indents s <;> simp_all

@[simp] theorem rest_layOut (s : Scanner) (margin here : Nat) :
    (s.layOut margin here).rest = s.rest.drop margin := by
  simp only [layOut]
  repeat' split
  all_goals simp

private theorem drop_lt {c : Char} {cs rest : List Char} (h : rest = c :: cs) {n : Nat}
    (hn : 0 < n) : (rest.drop n).length < rest.length := by
  subst h
  simp only [List.length_drop, List.length_cons]
  omega

theorem lineEnd_pos {c : Char} {cs : List Char} (h : isLineEnd c = true) :
    0 < lineEnd (c :: cs) := by
  simp only [isLineEnd, Bool.or_eq_true, beq_iff_eq] at h
  rcases h with rfl | rfl
  · simp [lineEnd]
  · cases cs with
    | nil => simp [lineEnd]
    | cons d ds =>
      simp only [lineEnd]
      split <;> simp_all

theorem takeString_lt {s : Scanner} {marks : Nat} (h : s.rest.drop marks ≠ []) :
    (s.takeString marks).rest.length < s.rest.length := by
  have hq := Lexeme.quoted_pos h
  have hl : 0 < (s.rest.drop marks).length := List.length_pos_iff.2 h
  simp only [List.length_drop] at hl
  unfold takeString
  simp only
  split <;> simp only [rest_take, rest_note, List.length_drop] <;> omega

theorem drop_ne_nil_of_stringMarks? {cs : List Char} {n : Nat}
    (h : Lexeme.stringMarks? cs = some n) : cs.drop n ≠ [] := by
  unfold Lexeme.stringMarks? at h
  simp only at h
  split at h
  · next hd =>
    split at h
    · simp only [Option.some.injEq] at h
      subst h
      simp [hd]
    · simp at h
  · simp at h

/-- A token takes at least one character. -/
theorem takeToken_lt {s : Scanner} {c : Char} {cs : List Char} (h : s.rest = c :: cs) :
    (s.takeToken c).rest.length < s.rest.length := by
  have lt : ∀ n, 0 < n → (s.rest.drop n).length < s.rest.length := fun n hn => drop_lt h hn
  unfold takeToken
  simp only
  split
  · exact lt 1 (by omega)
  split
  · next hc =>
    refine lt _ ?_
    rw [h, comment]
    exact Lexeme.run_pos (by simp_all [isLineEnd])
  split
  · next hc =>
    have hp : 0 < lineEnd s.rest := by rw [h]; exact lineEnd_pos hc
    unfold takeLineEnd
    simp only
    repeat' split
    all_goals exact lt _ hp
  split
  · exact lt _ (by omega)
  split
  · next hc =>
    refine lt _ ?_
    rw [h]
    refine Lexeme.number_pos ?_
    simp only [Bool.or_eq_true, Bool.and_eq_true, beq_iff_eq] at hc
    exact hc.imp_right And.left
  split
  · exact takeString_lt (by simp [h])
  split
  · split
    · next hm => exact takeString_lt (drop_ne_nil_of_stringMarks? hm)
    · split
      · unfold takeName
        simp only
        split <;> exact lt _ (by omega)
      · exact lt 1 (by omega)
  · unfold takeSymbol
    split
    · next hm =>
      have := Symbol.leading?_pos hm
      repeat' split
      all_goals exact lt _ this
    · exact lt 1 (by omega)

theorem takeLineStart_lt {s : Scanner} {c : Char} {cs : List Char} (h : s.rest = c :: cs) :
    s.takeLineStart.rest.length < s.rest.length := by
  have hl : s.rest.length = (s.rest.drop (Lexeme.run isMargin s.rest)).length
      + Lexeme.run isMargin s.rest := by
    have : Lexeme.run isMargin s.rest ≤ s.rest.length :=
      (List.takeWhile_sublist isMargin).length_le
    simp only [List.length_drop]
    omega
  unfold takeLineStart
  simp only
  split
  · next hd =>
    rw [hd, h] at hl
    simp only [List.length_nil, List.length_cons] at hl
    refine drop_lt h ?_
    rw [h]
    omega
  · next d behind hd =>
    split
    · next hc =>
      refine drop_lt h ?_
      have : 0 < comment (d :: behind) := by
        rw [comment]
        exact Lexeme.run_pos (by simp_all [isLineEnd])
      omega
    · split
      · next hc =>
        have : 0 < lineEnd (d :: behind) := lineEnd_pos hc
        exact drop_lt h (by omega)
      · have hd' : ∀ t : Scanner, t.rest = s.rest.drop (Lexeme.run isMargin s.rest) →
            (t.takeToken d).rest.length < s.rest.length := by
          intro t ht
          have := takeToken_lt (ht.trans hd)
          rw [ht] at this
          omega
        exact hd' _ (by simp)

theorem advance_lt {s : Scanner} {c : Char} {cs : List Char} (h : s.rest = c :: cs) :
    (s.advance c).rest.length < s.rest.length := by
  unfold advance
  split
  · exact takeLineStart_lt h
  · exact takeToken_lt h

/-! ## The whole scan -/

/-- Steps until no character is left. -/
def run (s : Scanner) : Scanner :=
  match _h : s.rest with
  | [] => s
  | c :: _ => (s.advance c).run
termination_by s.rest.length
decreasing_by exact advance_lt _h

/-- Ends a scan: brackets still open are findings, the innermost first; the last logical line and
the open blocks are closed. -/
def finish (s : Scanner) : Scanner :=
  let unclosed := s.brackets.map fun (bracket, offset) =>
    (⟨Code.unclosedBracket, ⟨offset, offset + 1⟩, some bracket.text⟩ : Finding)
  let s := { s with findings := s.findings ++ unclosed.toArray }
  let s := if s.lineHasTokens then s.mark .newline else s
  let s := s.indents.dropLast.foldl (fun s _ => s.mark .dedent) s
  s.mark .endOfFile

end Scanner

/-- The tokens of a text and the problems met on the way. -/
structure Scan where
  /-- The tokens; the last one is the end of the text. -/
  tokens : Array Token
  findings : Array Finding
deriving Repr, Inhabited

def scan (text : String) : Scan :=
  let done := (Scanner.start text).run.finish
  ⟨done.tokens, done.findings⟩

end LiveCheck
