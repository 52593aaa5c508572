import ConfidentialTx.Bytes
import ConfidentialTx.Text.Quoted

namespace ConfidentialTx

inductive HexError
  | oddLength
  | invalidStringLength
  | invalidCharacter (byte : UInt8) (index : Nat)
  deriving DecidableEq, Repr

namespace HexError

/-- An offending byte is shown as the character of that code. -/
def message : HexError → String
  | oddLength => "Odd number of digits"
  | invalidStringLength => "Invalid string length"
  | invalidCharacter byte index =>
    s!"Invalid character {Text.quoteChar (Char.ofNat byte.toNat)} at position {index}"

end HexError

namespace Hex

def digit (n : Nat) : Char :=
  if n < 10 then Char.ofNat (48 + n) else Char.ofNat (87 + n)

def encode (bs : Bytes) : String :=
  String.ofList (bs.flatMap fun b ↦ [digit (b.toNat / 16), digit (b.toNat % 16)])

def digitValue? (b : UInt8) : Option Nat :=
  if 48 ≤ b ∧ b ≤ 57 then some (b.toNat - 48)
  else if 97 ≤ b ∧ b ≤ 102 then some (b.toNat - 87)
  else if 65 ≤ b ∧ b ≤ 70 then some (b.toNat - 55)
  else none

def decodePairs (index : Nat) : Bytes → Except HexError Bytes
  | hi :: lo :: rest =>
    match digitValue? hi, digitValue? lo with
    | some h, some l => (decodePairs (index + 2) rest).map (UInt8.ofNat (16 * h + l) :: ·)
    | none, _ => .error (.invalidCharacter hi index)
    | some _, none => .error (.invalidCharacter lo (index + 1))
  | _ => .ok []

def textBytes (s : String) : Bytes :=
  s.toUTF8.data.toList

/-- The length is looked at before the digits. -/
def decode (s : String) : Except HexError Bytes :=
  if (textBytes s).length % 2 = 1 then .error .oddLength else decodePairs 0 (textBytes s)

def decodeFixed (size : Nat) (s : String) : Except HexError (FixedBytes size) :=
  if (textBytes s).length % 2 = 1 then .error .oddLength
  else if (textBytes s).length ≠ 2 * size then .error .invalidStringLength
  else (decodePairs 0 (textBytes s)).map FixedBytes.fit

end Hex

namespace FixedBytes

def toHex {size : Nat} (b : FixedBytes size) : String :=
  Hex.encode b.toList

end FixedBytes

end ConfidentialTx
