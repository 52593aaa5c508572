import ConfidentialTx.Hash.Blake2b
import ConfidentialTx.Hex

namespace ConfidentialTx

structure ContentHash where
  bytes : FixedBytes 32
  deriving DecidableEq

namespace ContentHash

def zero : ContentHash := ⟨FixedBytes.zero⟩

def toHex (h : ContentHash) : String :=
  h.bytes.toHex

def ofHex (s : String) : Except HexError ContentHash :=
  (Hex.decodeFixed 32 s).map mk

def describe (h : ContentHash) : String :=
  "Hash(" ++ h.toHex ++ ")"

end ContentHash

inductive Write
  | u8 (n : UInt8)
  | u32 (n : UInt32)
  | u64 (n : UInt64)
  | i64 (n : Int64)
  | raw (bs : Bytes)
  | bytes (bs : Bytes)
  | fixed (size : Nat) (bs : Bytes)
  deriving DecidableEq

/-- A string that should be of a declared length is not. -/
structure SizeMismatch where
  found : Nat
  declared : Nat
  deriving DecidableEq

def SizeMismatch.message (e : SizeMismatch) : String :=
  s!"assertion `left == right` failed: fixed-size write of {e.found} bytes, expected {e.declared}\n" ++
    s!"  left: {e.found}\n right: {e.declared}"

namespace Write

/-- Numbers are written with the most significant byte first. -/
def encode : Write → Except SizeMismatch Bytes
  | u8 n => .ok [n]
  | u32 n => .ok (Bytes.bigEndian 4 n.toNat)
  | u64 n => .ok (Bytes.bigEndian 8 n.toNat)
  | i64 n => .ok (Bytes.bigEndian 8 n.toUInt64.toNat)
  | raw bs => .ok bs
  | bytes bs => .ok (Bytes.bigEndian 8 bs.length ++ bs)
  | fixed size bs => if bs.length = size then .ok bs else .error ⟨bs.length, size⟩

end Write

structure HashWriter where
  hasher : Blake2b.Hasher

namespace HashWriter

def empty : HashWriter := ⟨Blake2b.Hasher.init 32 0⟩

def raw (w : HashWriter) (bs : Bytes) : HashWriter :=
  ⟨w.hasher.update bs⟩

def write (w : HashWriter) (a : Write) : Except SizeMismatch HashWriter :=
  a.encode.map w.raw

def finish (w : HashWriter) : ContentHash :=
  ⟨w.hasher.finish 32⟩

end HashWriter

class Canonical (α : Type) where
  encode : α → Bytes

export Canonical (encode)

namespace Canonical

instance : Canonical UInt64 := ⟨fun n ↦ Bytes.bigEndian 8 n.toNat⟩
instance : Canonical UInt32 := ⟨fun n ↦ Bytes.bigEndian 4 n.toNat⟩
instance {size : Nat} : Canonical (FixedBytes size) := ⟨FixedBytes.toList⟩
instance : Canonical ContentHash := ⟨fun h ↦ h.bytes.toList⟩

instance {α : Type} [Canonical α] : Canonical (List α) :=
  ⟨fun items ↦ Bytes.bigEndian 8 items.length ++ items.flatMap encode⟩

def sized (bs : Bytes) : Bytes :=
  Bytes.bigEndian 8 bs.length ++ bs

def hash {α : Type} [Canonical α] (a : α) : ContentHash :=
  (HashWriter.empty.raw (encode a)).finish

def hashWith {α β : Type} [Canonical α] [Canonical β] (a : α) (b : β) : ContentHash :=
  ((HashWriter.empty.raw (encode a)).raw (encode b)).finish

end Canonical

end ConfidentialTx
