/-!
# Bytes in base 64

Each of the sixty-four digits stands for six bits, so that four digits stand for three bytes. Other
characters between the digits count for nothing. Equals signs stand for the digits that the last
group of four lacks; once it is full, all that follows is left out.
-/

set_option autoImplicit false

namespace LatexLogic.Text.Base64

/-- The six bits of a digit. -/
def digitValue? (c : Char) : Option Nat :=
  if 'A' ≤ c && c ≤ 'Z' then some (c.toNat - 'A'.toNat)
  else if 'a' ≤ c && c ≤ 'z' then some (c.toNat - 'a'.toNat + 26)
  else if '0' ≤ c && c ≤ '9' then some (c.toNat - '0'.toNat + 52)
  else if c = '+' then some 62
  else if c = '/' then some 63
  else none

/-- Decodes the rest of a text. Given are the place in the group of four, the bits that no byte has
got yet, and how many equals signs came before. -/
def decodeFrom (place bits signs : Nat) : List Char → Option (List UInt8)
  | [] => if place = 0 then some [] else none
  | '=' :: cs =>
    if place < 2 then decodeFrom place bits signs cs
    else if 4 ≤ place + signs + 1 then some []
    else decodeFrom place bits (signs + 1) cs
  | c :: cs =>
    match digitValue? c with
    | none => decodeFrom place bits signs cs
    | some v =>
      match place with
      | 0 => decodeFrom 1 v 0 cs
      | 1 => (decodeFrom 2 (v % 16) 0 cs).map ((bits * 4 + v / 16).toUInt8 :: ·)
      | 2 => (decodeFrom 3 (v % 4) 0 cs).map ((bits * 16 + v / 4).toUInt8 :: ·)
      | _ => (decodeFrom 0 0 0 cs).map ((bits * 64 + v).toUInt8 :: ·)

/-- The bytes that a text stands for, if its last group is full. -/
def decode? (text : List Char) : Option (List UInt8) :=
  decodeFrom 0 0 0 text

end LatexLogic.Text.Base64
