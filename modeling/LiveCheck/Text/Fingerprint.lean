/-!
# Fingerprints

A fingerprint is a word of 64 bits computed from all bytes of a text. Texts with different
fingerprints are different; that equal fingerprints mean equal texts is very likely but not certain.
-/

namespace LiveCheck.Text

/-- The exclusive or of the two halves of the product of two words. -/
def foldedProduct (x y : UInt64) : UInt64 :=
  let product := x.toNat * y.toNat
  UInt64.ofNat product ^^^ UInt64.ofNat (product >>> 64)

/-- The word that bytes make, the lowest first. -/
def wordOf (bytes : List UInt8) : UInt64 :=
  bytes.foldr (fun byte word => (word <<< 8) ||| byte.toUInt64) 0

/-- The state of the computation before the first byte. -/
def seeds : UInt64 × UInt64 := (0x243f6a8885a308d3, 0x13198a2e03707344)

/-- Mixes the blocks of sixteen bytes, the last one apart, into the state. -/
def absorb (s : UInt64 × UInt64) : List UInt8 → UInt64 × UInt64
  | b0 :: b1 :: b2 :: b3 :: b4 :: b5 :: b6 :: b7 ::
      c0 :: c1 :: c2 :: c3 :: c4 :: c5 :: c6 :: c7 :: rest =>
    if rest.isEmpty then s
    else
      let x := wordOf [b0, b1, b2, b3, b4, b5, b6, b7]
      let y := wordOf [c0, c1, c2, c3, c4, c5, c6, c7]
      absorb (s.2, foldedProduct (s.1 ^^^ x) (0xa4093822299f31d0 ^^^ y)) rest
  | _ => s

/-- Mixes the last bytes into the state: the first and the last word of sixteen bytes, which overlap
if there are fewer. -/
def absorbLast (s : UInt64 × UInt64) (bytes : List UInt8) : UInt64 × UInt64 :=
  let n := bytes.length
  if 8 ≤ n then
    (s.1 ^^^ wordOf (bytes.take 8), s.2 ^^^ wordOf (bytes.drop (n - 8)))
  else if 4 ≤ n then
    (s.1 ^^^ wordOf (bytes.take 4), s.2 ^^^ wordOf (bytes.drop (n - 4)))
  else
    match bytes with
    | [] => s
    | first :: _ =>
      let middle := bytes.getD (n / 2) 0
      let last := bytes.getD (n - 1) 0
      (s.1 ^^^ first.toUInt64, s.2 ^^^ ((last.toUInt64 <<< 8) ||| middle.toUInt64))

/-- The word of a sequence of bytes. -/
def hashBytes (bytes : List UInt8) : UInt64 :=
  let n := bytes.length
  let s := absorbLast (absorb seeds bytes) (bytes.drop (n - 16))
  foldedProduct s.1 s.2 ^^^ UInt64.ofNat n

def addWord (fingerprint word : UInt64) : UInt64 := (fingerprint + word) * 0xf1357aea2e62a9c5

/-- The fingerprint of a text: its bytes, then their number. -/
def fingerprint (text : String) : UInt64 :=
  addWord (addWord 0 (hashBytes text.toUTF8.toList)) (UInt64.ofNat text.utf8ByteSize)

end LiveCheck.Text
