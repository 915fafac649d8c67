import LiveCheck.Text.Split

/-!
# Texts and numbers in documents

The two kinds of values in a document that are read character by character.
-/

namespace LiveCheck.Quoted

/-!
## Quoted texts in documents

Inside quotes a backslash begins an escape. The escape `\u` stands for a code unit of sixteen bits;
two of them may make up one character.
-/

/-- Splits what follows an opening quote at the closing one. Escapes are left as they are; control
characters are not admitted. -/
def takeRaw? : List Char → Option (List Char × List Char)
  | [] => none
  | '"' :: rest => some ([], rest)
  | '\\' :: c :: rest => (takeRaw? rest).map fun (raw, rest) => ('\\' :: c :: raw, rest)
  | c :: rest =>
    if c.toNat < 0x20 then none else (takeRaw? rest).map fun (raw, rest) => (c :: raw, rest)

def hexDigit? (c : Char) : Option Nat :=
  if c.isDigit then some (c.toNat - 48)
  else if 'a' ≤ c && c ≤ 'f' then some (c.toNat - 87)
  else if 'A' ≤ c && c ≤ 'F' then some (c.toNat - 55)
  else none

/-- The value of four hexadecimal digits. -/
def hexUnit? (a b c d : Char) : Option Nat := do
  return (((← hexDigit? a) * 16 + (← hexDigit? b)) * 16 + (← hexDigit? c)) * 16 + (← hexDigit? d)

/-- What a backslash before a character stands for. -/
def escape? : Char → Option Nat
  | '"' => some 0x22
  | '\\' => some 0x5C
  | '/' => some 0x2F
  | 'b' => some 0x08
  | 'f' => some 0x0C
  | 'n' => some 0x0A
  | 'r' => some 0x0D
  | 't' => some 0x09
  | _ => none

/-- The code points of the characters and the code units of the escapes. -/
def units? : List Char → Option (List Nat)
  | [] => some []
  | '\\' :: 'u' :: a :: b :: c :: d :: rest => do return (← hexUnit? a b c d) :: (← units? rest)
  | '\\' :: c :: rest => do return (← escape? c) :: (← units? rest)
  | c :: rest => do return c.toNat :: (← units? rest)

/-- Whether a unit is the first half of a character. -/
def isHigh (n : Nat) : Bool := 0xD800 ≤ n && n < 0xDC00

/-- Whether a unit is the second half of a character. -/
def isLow (n : Nat) : Bool := 0xDC00 ≤ n && n < 0xE000

/-- Puts halves together; a half that stands alone is not admitted. -/
def join? : List Nat → Option (List Char)
  | [] => some []
  | [n] => if isHigh n || isLow n then none else some [Char.ofNat n]
  | m :: n :: rest =>
    if isHigh m && isLow n then
      (join? rest).map (Char.ofNat (0x10000 + (m - 0xD800) * 0x400 + (n - 0xDC00)) :: ·)
    else if isHigh m || isLow m then none
    else (join? (n :: rest)).map (Char.ofNat m :: ·)

/-- Takes a text from behind its opening quote. -/
def take? (cs : List Char) : Option (String × List Char) := do
  let (raw, rest) ← takeRaw? cs
  return (String.ofList (← join? (← units? raw)), rest)

/-- Passes over a text from behind its opening quote; halves of characters may stand alone. -/
def skip? (cs : List Char) : Option (List Char) := do
  let (raw, rest) ← takeRaw? cs
  let _ ← units? raw
  return rest

end LiveCheck.Quoted

/-!
## Numerals in documents

A number is read as it is written: a sign, digits, a fraction and a power of ten. What is written
with a fraction or a power is not a whole number, whatever its value.
-/

namespace LiveCheck

structure Numeral where
  negative : Bool
  whole : List Char
  fraction : Option (List Char)
  /-- The power of ten. -/
  power : Option Int
deriving Repr, DecidableEq, Inhabited

namespace Numeral

def digitsValue (digits : List Char) : Nat := (Text.digitsFrom? 0 digits).getD 0

/-- Takes at least one digit. -/
def takeDigits? (cs : List Char) : Option (List Char × List Char) :=
  match cs.takeWhile Char.isDigit with
  | [] => none
  | digits => some (digits, cs.dropWhile Char.isDigit)

/-- Takes the digits before the point; a zero stands alone. -/
def takeWhole? (cs : List Char) : Option (List Char × List Char) := do
  let (digits, rest) ← takeDigits? cs
  if digits.length > 1 && digits.head? == some '0' then none else return (digits, rest)

def takeFraction? : List Char → Option (Option (List Char) × List Char)
  | '.' :: cs => do
    let (digits, rest) ← takeDigits? cs
    return (some digits, rest)
  | cs => some (none, cs)

/-- Takes a sign, if there is one; the answer is whether it is a minus sign. -/
def takeSign : List Char → Bool × List Char
  | '-' :: cs => (true, cs)
  | '+' :: cs => (false, cs)
  | cs => (false, cs)

def takePower? : List Char → Option (Option Int × List Char)
  | 'e' :: cs | 'E' :: cs => do
    let (isNegative, cs) := takeSign cs
    let (digits, rest) ← takeDigits? cs
    let n := (digitsValue digits : Int)
    return (some (if isNegative then -n else n), rest)
  | cs => some (none, cs)

def take? (cs : List Char) : Option (Numeral × List Char) := do
  let (negative, cs) := match cs with
    | '-' :: cs => (true, cs)
    | cs => (false, cs)
  let (whole, cs) ← takeWhole? cs
  let (fraction, cs) ← takeFraction? cs
  let (power, cs) ← takePower? cs
  return (⟨negative, whole, fraction, power⟩, cs)

/-- The natural number that is written, if it is one. -/
def natural? (n : Numeral) : Option Nat :=
  if n.negative || n.fraction.isSome || n.power.isSome then none else some (digitsValue n.whole)

/-- The least number that rounds to no binary number of double precision. -/
def doubleBound : Nat := Nat.pow 2 1024 - Nat.pow 2 970

/-- Whether the size of the number is in the range of double precision. Far from the bound the
number of digits decides. -/
def isInRange (n : Numeral) : Bool :=
  let fraction := n.fraction.getD []
  let digits := (n.whole ++ fraction).dropWhile (· == '0')
  let power := n.power.getD 0 - fraction.length
  let magnitude : Int := digits.length + power
  if digits.isEmpty || magnitude < 309 then true
  else if magnitude > 309 then false
  else
    digitsValue digits * Nat.pow 10 power.toNat < doubleBound * Nat.pow 10 (-power).toNat

end Numeral
end LiveCheck
