/-!
# Bytes in base 64

Three bytes are written as four of sixty-four signs, six bits each; equality signs fill up
the last group. The signs are written in lines of a fixed length. A reader passes over
everything that is no sign.
-/

namespace Conjunctive

namespace Text

namespace Base64

/-- The signs in the order of their values. -/
def signs : List Char :=
  "ABCDEFGHIJKLMNOPQRSTUVWXYZabcdefghijklmnopqrstuvwxyz0123456789+/".toList

/-- The sign with a value. -/
def sign (n : Nat) : Char := signs.getD n 'A'

/-- How many bytes a line holds. -/
def bytesPerLine : Nat := 57

/-- Bytes as signs. -/
def encode : List UInt8 → List Char
  | [] => []
  | [a] => [sign (a.toNat / 4), sign (a.toNat % 4 * 16), '=', '=']
  | [a, b] =>
    [sign (a.toNat / 4), sign (a.toNat % 4 * 16 + b.toNat / 16), sign (b.toNat % 16 * 4), '=']
  | a :: b :: c :: rest =>
    sign (a.toNat / 4) :: sign (a.toNat % 4 * 16 + b.toNat / 16)
      :: sign (b.toNat % 16 * 4 + c.toNat / 64) :: sign (c.toNat % 64) :: encode rest

/-- Bytes as lines of signs, so many lines at most. -/
def linesWithin : Nat → List UInt8 → List (List Char)
  | 0, _ => []
  | _, [] => []
  | bound + 1, bs => encode (bs.take bytesPerLine) :: linesWithin bound (bs.drop bytesPerLine)

/-- Bytes as lines of signs. -/
def lines (bs : List UInt8) : List (List Char) := linesWithin bs.length bs

/-- What was read of a group of four signs: how many signs, the bits that make no byte yet,
and how many equality signs came last. -/
structure Group where
  count : Nat
  bits : Nat
  fillers : Nat

/-- Read signs, of a group that is begun. Enough equality signs end the text. There are no
bytes if the last group is not complete. -/
def decodeFrom (g : Group) : List Char → Option (List UInt8)
  | [] => if g.count = 0 then some [] else none
  | c :: cs =>
    if c = '=' then
      if g.count < 2 then decodeFrom g cs
      else if 4 ≤ g.count + g.fillers + 1 then some []
      else decodeFrom { g with fillers := g.fillers + 1 } cs
    else
      match signs.findIdx? (· == c) with
      | none => decodeFrom g cs
      | some n =>
        let bits := g.bits * 64 + n
        match g.count with
        | 0 => decodeFrom ⟨1, bits, 0⟩ cs
        | 1 => (decodeFrom ⟨2, bits % 16, 0⟩ cs).map (UInt8.ofNat (bits / 16) :: ·)
        | 2 => (decodeFrom ⟨3, bits % 4, 0⟩ cs).map (UInt8.ofNat (bits / 4) :: ·)
        | _ => (decodeFrom ⟨0, 0, 0⟩ cs).map (UInt8.ofNat bits :: ·)

/-- The bytes that signs stand for. -/
def decode? (cs : List Char) : Option (List UInt8) := decodeFrom ⟨0, 0, 0⟩ cs

end Base64

end Text

end Conjunctive
