import LiveCheck.Text.CharacterClass
import LiveCheck.Token.Kind

/-!
# Lexemes

How many characters at the beginning of a text make up one name, number or string literal. The
functions that scan look at the text behind the first character and answer with a count.
-/

namespace LiveCheck.Lexeme

open Text

/-- Whether an identifier may begin with the character. -/
def startsName (c : Char) : Bool := c == '_' || isAlphabetic c

/-- Whether an identifier may go on with the character. -/
def continuesName (c : Char) : Bool := c == '_' || isAlphanumeric c

/-- The number of leading characters that satisfy `p`. -/
def run (p : Char → Bool) (cs : List Char) : Nat := (cs.takeWhile p).length

theorem run_pos {p : Char → Bool} {c : Char} {cs : List Char} (h : p c = true) :
    0 < run p (c :: cs) := by
  simp [run, h]

/-! ## Numbers -/

/-- A decimal digit of the ASCII range. -/
def isDigit (c : Char) : Bool := '0' ≤ c && c ≤ '9'

/-- A hexadecimal digit of the ASCII range. -/
def isHexDigit (c : Char) : Bool :=
  isDigit c || ('a' ≤ c && c ≤ 'f') || ('A' ≤ c && c ≤ 'F')

/-- What may stand among the digits of a decimal numeral. -/
def inDigits (c : Char) : Bool := isDigit c || c == '_'

/-- What may stand among the digits behind the mark of a base. -/
def inHexDigits (c : Char) : Bool := isHexDigit c || c == '_'

/-- Whether the text begins with the mark of a base: `0x`, `0o` or `0b`. -/
def hasBase : List Char → Bool
  | '0' :: c :: _ => c == 'x' || c == 'X' || c == 'o' || c == 'O' || c == 'b' || c == 'B'
  | _ => false

/-- The length of an exponent: a letter, an optional sign, and digits of which there is at least
one. -/
def exponent : List Char → Nat
  | e :: d :: cs =>
    if e == 'e' || e == 'E' then
      if isDigit d then 2 + run inDigits cs
      else if d == '+' || d == '-' then
        match cs with
        | x :: _ => if isDigit x then 2 + run inDigits cs else 0
        | [] => 0
      else 0
    else 0
  | _ => 0

/-- The length of a fraction: a point and any digits. -/
def fraction : List Char → Nat
  | '.' :: cs => 1 + run inDigits cs
  | _ => 0

/-- Whether the text begins with the mark of an imaginary number. -/
def hasImaginaryMark : List Char → Bool
  | c :: _ => c == 'j' || c == 'J'
  | [] => false

/-- The kind and the length of a number without the mark of a base. -/
def decimal (cs : List Char) : TokenKind × Nat :=
  let whole := run inDigits cs
  let size := whole + fraction (cs.drop whole)
  let size := size + exponent (cs.drop size)
  if hasImaginaryMark (cs.drop size) then (.complex, size + 1)
  else if size = whole then (.int, size)
  else (.float, size)

/-- The kind and the length of a number. -/
def number (cs : List Char) : TokenKind × Nat :=
  if hasBase cs then (.int, 2 + run inHexDigits (cs.drop 2)) else decimal cs

/-- A number that begins with a digit or with a point is not empty. -/
theorem number_pos {c : Char} {cs : List Char} (h : isDigit c = true ∨ c = '.') :
    0 < (number (c :: cs)).2 := by
  have hw : 0 < run inDigits (c :: cs) + fraction ((c :: cs).drop (run inDigits (c :: cs))) := by
    rcases h with h | rfl
    · exact Nat.add_pos_left (run_pos (by simp [inDigits, h])) _
    · have h0 : run inDigits ('.' :: cs) = 0 := by simp [run, inDigits, isDigit]
      simp only [h0, List.drop_zero, fraction]
      omega
  unfold number
  split
  · simp only; omega
  · unfold decimal
    simp only
    repeat' split
    all_goals simp only; omega

/-! ## Strings -/

/-- Whether a character is one of two letters. -/
def isLetter (lower upper c : Char) : Bool := c == lower || c == upper

/-- Letters that mark a raw string. -/
def isRawMark (c : Char) : Bool := isLetter 'r' 'R' c

def isBytesMark (c : Char) : Bool := isLetter 'b' 'B' c

def isFormatMark (c : Char) : Bool := isLetter 'f' 'F' c

/-- The number of letters that could mark a string before its quote. -/
def marks : List Char → Nat
  | c :: d :: _ =>
    if (isRawMark c && (isBytesMark d || isFormatMark d))
        || ((isBytesMark c || isFormatMark c) && isRawMark d) then 2
    else if isRawMark c || isBytesMark c || isLetter 'u' 'U' c || isFormatMark c then 1
    else 0
  | [c] => if isRawMark c || isBytesMark c || isLetter 'u' 'U' c || isFormatMark c then 1 else 0
  | [] => 0

/-- The length of the rest of a string behind its opening quote, and whether the closing quote was
found. A backslash hides the character behind it, in raw strings too; a string in single quotes
ends before a line end. -/
def singleBody (quote : Char) : List Char → Nat × Bool
  | [] => (0, false)
  | ['\\'] => (1, false)
  | '\\' :: _ :: cs =>
    let (size, closed) := singleBody quote cs
    (size + 2, closed)
  | c :: cs =>
    if c == quote then (1, true)
    else if c == '\n' || c == '\r' then (0, false)
    else
      let (size, closed) := singleBody quote cs
      (size + 1, closed)

/-- The same for a string in three quotes, which may run over several lines. -/
def tripleBody (quote : Char) : List Char → Nat × Bool
  | [] => (0, false)
  | ['\\'] => (1, false)
  | '\\' :: _ :: cs =>
    let (size, closed) := tripleBody quote cs
    (size + 2, closed)
  | c :: cs =>
    if c == quote && [quote, quote].isPrefixOf cs then (3, true)
    else
      let (size, closed) := tripleBody quote cs
      (size + 1, closed)

/-- The length of a string that begins with its opening quote, and whether it is closed. -/
def quoted : List Char → Nat × Bool
  | [] => (0, false)
  | quote :: cs =>
    if [quote, quote].isPrefixOf cs then
      let (size, closed) := tripleBody quote (cs.drop 2)
      (size + 3, closed)
    else
      let (size, closed) := singleBody quote cs
      (size + 1, closed)

/-- Whether a character opens a string. -/
def isQuote (c : Char) : Bool := c == '"' || c == '\''

/-- The number of marks before a string that begins here; `none` when no string does. -/
def stringMarks? (cs : List Char) : Option Nat :=
  let n := marks cs
  match cs.drop n with
  | c :: _ => if isQuote c then some n else none
  | [] => none

/-- A string is at least as long as its opening quote. -/
theorem quoted_pos {cs : List Char} (h : cs ≠ []) : 0 < (quoted cs).1 := by
  cases cs with
  | nil => exact absurd rfl h
  | cons quote cs =>
    simp only [quoted]
    split <;> simp

end LiveCheck.Lexeme

/-!
## The value of a string literal

A literal is written with optional marks, an opening quote, its body and a closing quote. In a body
that is not raw, a backslash and the character behind it stand for another character; pairs without
a meaning stay as they are.
-/

namespace LiveCheck.StringLiteral

/-- What a backslash and the given character stand for. -/
def escape : Char → List Char
  | 'n' => ['\n']
  | 't' => ['\t']
  | 'r' => ['\r']
  | '0' => ['\x00']
  | '\\' => ['\\']
  | '\'' => ['\'']
  | '"' => ['"']
  | '\n' => []
  | c => ['\\', c]

/-- The body of a literal with its escapes resolved. -/
def unescape : List Char → List Char
  | [] => []
  | ['\\'] => ['\\']
  | '\\' :: c :: cs => escape c ++ unescape cs
  | c :: cs => c :: unescape cs

/-- The number of characters in the quote at the beginning of a text. -/
def quoteSize (cs : List Char) : Nat :=
  if ['"', '"', '"'].isPrefixOf cs || ['\'', '\'', '\''].isPrefixOf cs then 3 else 1

/-- What stands between the quotes of a text that begins with one. A text that does not end with
the same quote goes on to its end. -/
def body (cs : List Char) : List Char :=
  let size := quoteSize cs
  let inner := cs.drop size
  if 2 * size ≤ cs.length && cs.drop (cs.length - size) == cs.take size then
    inner.take (inner.length - size)
  else inner

/-- The value of a literal, marks and quotes included in its text. -/
def decode (text : String) : String :=
  let cs := text.toList
  let marks := cs.takeWhile fun c => !Lexeme.isQuote c
  let inner := body (cs.drop marks.length)
  String.ofList (if marks.any Lexeme.isRawMark then inner else unescape inner)

end LiveCheck.StringLiteral
