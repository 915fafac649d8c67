/-!
# Reading texts

A text is cut into pieces, and a piece may be a number.

## Splitting

A text is cut at every occurrence of a separating character. The pieces, joined by the separator,
give the text back, and no piece holds the separator.
-/

namespace LiveCheck.Text

def consPiece (c : Char) : List (List Char) → List (List Char)
  | [] => [[c]]
  | piece :: pieces => (c :: piece) :: pieces

/-- The pieces between the separators; there is always at least one. -/
def splitChars (separator : Char) : List Char → List (List Char)
  | [] => [[]]
  | c :: cs =>
    if c = separator then [] :: splitChars separator cs else consPiece c (splitChars separator cs)

def split (separator : Char) (text : String) : List String :=
  (splitChars separator text.toList).map String.ofList

/-- The pieces of a text that are not empty. -/
def parts (separator : Char) (text : String) : List String :=
  (split separator text).filter (!·.isEmpty)

theorem splitChars_ne_nil (separator : Char) (cs : List Char) : splitChars separator cs ≠ [] := by
  cases cs with
  | nil => simp [splitChars]
  | cons c cs =>
    simp only [splitChars]
    split
    · simp
    · cases splitChars separator cs <;> simp [consPiece]

theorem intercalate_splitChars (separator : Char) (cs : List Char) :
    [separator].intercalate (splitChars separator cs) = cs := by
  induction cs with
  | nil => rfl
  | cons c cs ih =>
    have hne := splitChars_ne_nil separator cs
    cases h : splitChars separator cs with
    | nil => exact absurd h hne
    | cons piece pieces =>
      rw [h] at ih
      by_cases hc : c = separator
      · simp [splitChars, hc, h, ih]
      · have : [separator].intercalate ((c :: piece) :: pieces) =
            c :: [separator].intercalate (piece :: pieces) := by
          cases pieces <;> simp
        simp [splitChars, hc, h, consPiece, this, ih]

/-!
## Lines of a text for display

Lines are divided by line feeds. A carriage return directly before a line feed belongs to the end of
the line; any other is part of the line.
-/

/-- Takes a carriage return off the end of a line. -/
def withoutReturn (line : String) : String :=
  match line.toList.reverse with
  | '\r' :: rest => String.ofList rest.reverse
  | _ => line

/-- The lines of a text. What follows the last line feed is a line unless it is empty. -/
def lines (text : String) : List String :=
  let pieces := split '\n' text
  pieces.dropLast.map withoutReturn ++ (pieces.getLast?.filter (!·.isEmpty)).toList

/-!
## Decimal numbers in texts

Reading a number that must fit below a bound. A leading plus sign is allowed, nothing else is.
-/

def digit? (c : Char) : Option Nat := if c.isDigit then some (c.toNat - 48) else none

/-- The value of digits that follow others of value `acc`. -/
def digitsFrom? : Nat → List Char → Option Nat
  | acc, [] => some acc
  | acc, c :: cs => (digit? c).bind fun d => digitsFrom? (10 * acc + d) cs

/-- The value of digits, of which there must be one. -/
def digits? : List Char → Option Nat
  | [] => none
  | cs => digitsFrom? 0 cs

/-- The number a text stands for, if it is at most `limit`. -/
def natUpTo? (limit : Nat) (text : String) : Option Nat :=
  let digits := match text.toList with
    | '+' :: cs => cs
    | cs => cs
  (digits? digits).filter (· ≤ limit)

end LiveCheck.Text
