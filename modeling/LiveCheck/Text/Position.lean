/-!
# Places in texts

Places are given by byte offsets, and to people by lines and columns.

## Spans

A span is a half-open range of byte offsets into a source text. Its ends are plain numbers: a span
whose `stop` lies before its `start` is empty and has length zero.
-/

namespace LiveCheck

/-- A half-open range of byte offsets, `start` included and `stop` excluded. The offsets are meant to
fit into 32 bits, as they do for every text of less than 2^32 bytes; there is no bound on them here. -/
structure Span where
  start : Nat
  /-- The offset after the last one. -/
  stop : Nat
deriving Repr, DecidableEq, Inhabited

namespace Span

def length (s : Span) : Nat := s.stop - s.start

def isEmpty (s : Span) : Bool := s.stop ≤ s.start

def contains (s : Span) (offset : Nat) : Bool := s.start ≤ offset && offset < s.stop

/-- Whether a cursor at `offset` is in the span or directly behind it. -/
def touches (s : Span) (offset : Nat) : Bool := s.start ≤ offset && offset ≤ s.stop

/-- The smallest span that covers both. -/
def cover (s t : Span) : Span := ⟨min s.start t.start, max s.stop t.stop⟩

theorem isEmpty_iff_length_eq_zero (s : Span) : s.isEmpty = true ↔ s.length = 0 := by
  simp only [isEmpty, length, decide_eq_true_eq]
  omega

theorem contains_start_iff (s : Span) : s.contains s.start = true ↔ s.isEmpty = false := by
  simp [contains, isEmpty]

end Span
end LiveCheck

/-!
## Byte offsets in a text

A text is a list of characters; offsets count the bytes of its UTF-8 encoding. Cutting a text at an
offset is possible exactly at the boundaries between characters.
-/

namespace LiveCheck.Text

/-- The number of bytes that encode the characters. -/
def byteLength : List Char → Nat
  | [] => 0
  | c :: cs => c.utf8Size + byteLength cs

/-- The number of UTF-16 code units that encode one character. -/
def units16 (c : Char) : Nat := if c.toNat < 0x10000 then 1 else 2

/-- The number of UTF-16 code units that encode the characters. -/
def length16 : List Char → Nat
  | [] => 0
  | c :: cs => units16 c + length16 cs

/-- The characters before and from `offset` on; `none` inside a character or behind the end. -/
def splitAt? : List Char → Nat → Option (List Char × List Char)
  | cs, 0 => some ([], cs)
  | [], _ + 1 => none
  | c :: cs, n + 1 =>
    if c.utf8Size ≤ n + 1 then
      (splitAt? cs (n + 1 - c.utf8Size)).map fun (before, after) => (c :: before, after)
    else none

/-- The characters from byte `start` up to byte `stop`; `none` unless both are boundaries in
order. -/
def slice? (cs : List Char) (start stop : Nat) : Option (List Char) :=
  if start ≤ stop then do
    let (_, after) ← splitAt? cs start
    let (middle, _) ← splitAt? after (stop - start)
    return middle
  else none

/-- The characters of a slice, none at all where the slice does not exist. -/
def slice (cs : List Char) (start stop : Nat) : List Char := (slice? cs start stop).getD []

/-- Two texts take the bytes of both. -/
theorem byteLength_append (cs ds : List Char) :
    byteLength (cs ++ ds) = byteLength cs + byteLength ds := by
  induction cs with
  | nil => simp [byteLength]
  | cons c cs ih => simp only [List.cons_append, byteLength, ih]; omega

/-- The two parts of a cut put the text together again. -/
theorem append_eq_of_splitAt? {cs before after : List Char} {n : Nat}
    (h : splitAt? cs n = some (before, after)) : before ++ after = cs := by
  fun_induction splitAt? cs n generalizing before after with
  | case1 cs => simp_all
  | case2 => simp at h
  | case3 c cs n hc ih =>
    obtain ⟨⟨b, a⟩, hb, he⟩ := Option.map_eq_some_iff.1 h
    simp only [Prod.mk.injEq] at he
    obtain ⟨rfl, rfl⟩ := he
    simp [ih hb]
  | case4 => simp at h

end LiveCheck.Text

/-!
## Lines and positions

Editors speak of a line and a character in it, both counted from zero, the character in UTF-16 code
units. A `LineMap` holds the byte offset at which each line begins. A line ends with a line feed, a
carriage return, or the two together.
-/

namespace LiveCheck

/-- A place in a text by line and by UTF-16 column, both counted from zero. -/
structure Position where
  line : Nat
  /-- The column in UTF-16 code units. -/
  character : Nat
deriving Repr, DecidableEq, Inhabited

/-- The byte offsets at which the lines of a text begin, in ascending order. -/
structure LineMap where
  /-- The first entry is zero. -/
  starts : List Nat
deriving Repr, DecidableEq, Inhabited

namespace LineMap

open Text

/-- The offsets directly behind each line end, for a text that begins at `offset`. -/
def startsAfter : Nat → List Char → List Nat
  | _, [] => []
  | offset, '\r' :: '\n' :: cs => (offset + 2) :: startsAfter (offset + 2) cs
  | offset, c :: cs =>
    if c = '\n' ∨ c = '\r' then (offset + 1) :: startsAfter (offset + 1) cs
    else startsAfter (offset + c.utf8Size) cs

def ofText (text : String) : LineMap := ⟨0 :: startsAfter 0 text.toList⟩

/-- The number of lines; an empty text has one. -/
def lineCount (m : LineMap) : Nat := m.starts.length

def lineStart? (m : LineMap) (line : Nat) : Option Nat := m.starts[line]?

/-- The line that holds the byte at `offset`: the last one that begins at or before it. -/
def lineOf (m : LineMap) (offset : Nat) : Nat := m.starts.countP (· ≤ offset) - 1

/-- The position of an offset. An offset behind the end counts as the end; one inside a character
counts as the beginning of its line. -/
def position (m : LineMap) (text : String) (offset : Nat) : Position :=
  let line := m.lineOf offset
  let stop := min offset text.utf8ByteSize
  let start := min ((m.lineStart? line).getD 0) stop
  ⟨line, length16 (slice text.toList start stop)⟩

/-- The bytes from the beginning of a line to the given column: the column stops at the line end,
and one that falls inside a character stops before that character. -/
def columnBytes : List Char → Nat → Nat
  | [], _ => 0
  | c :: cs, column =>
    if c = '\n' ∨ c = '\r' then 0
    else if column < units16 c then 0
    else c.utf8Size + columnBytes cs (column - units16 c)

/-- The offset of a position; `none` when the line does not exist. -/
def offset? (m : LineMap) (text : String) (p : Position) : Option Nat := do
  let start ← m.lineStart? p.line
  let stop := (m.lineStart? (p.line + 1)).getD text.utf8ByteSize
  return start + columnBytes (slice text.toList start stop) p.character

/-- The positions of the two ends of a span. -/
def range (m : LineMap) (text : String) (s : Span) : Position × Position :=
  (m.position text s.start, m.position text s.stop)

theorem lineCount_pos (text : String) : 0 < (ofText text).lineCount := by
  simp [lineCount, ofText]

theorem lineStart?_zero (text : String) : (ofText text).lineStart? 0 = some 0 := by
  simp [lineStart?, ofText]

end LineMap
end LiveCheck
