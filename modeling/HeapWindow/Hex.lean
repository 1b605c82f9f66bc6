/-!
# Hexadecimal text

Addresses are shown with eight digits, sizes with as many as they need, and bytes with two
digits each in memory order. All digits are lower case.
-/

namespace HeapWindow
namespace Hex

def digits (n : Nat) : String := String.ofList (Nat.toDigits 16 n)

def size (n : UInt32) : String := "0x" ++ digits n.toNat

/-- An address: its digits behind `0x`, filled up with zeros to eight. -/
def address (a : UInt32) : String :=
  "0x" ++ String.ofList (List.replicate (8 - (digits a.toNat).length) '0') ++ digits a.toNat

def byte (b : UInt8) : List Char := [(b.toNat / 16).digitChar, (b.toNat % 16).digitChar]

def encode (bs : List UInt8) : List Char := bs.flatMap byte

def digit? (c : Char) : Option Nat :=
  if '0' ≤ c ∧ c ≤ '9' then some (c.toNat - '0'.toNat)
  else if 'a' ≤ c ∧ c ≤ 'f' then some (c.toNat - 'a'.toNat + 10)
  else none

/-- Reads pairs of digits behind the bytes read so far. A lone digit is refused. -/
def decodeOnto (seen : Array UInt8) : List Char → Option (Array UInt8)
  | [] => some seen
  | [_] => none
  | hi :: lo :: cs =>
    match digit? hi, digit? lo with
    | some h, some l => decodeOnto (seen.push (.ofNat (16 * h + l))) cs
    | _, _ => none

def decode (cs : List Char) : Option (Array UInt8) := decodeOnto #[] cs

end Hex
end HeapWindow
