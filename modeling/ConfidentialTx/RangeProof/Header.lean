import ConfidentialTx.Bytes

namespace ConfidentialTx.RangeProof

structure Header where
  exponent : Nat
  mantissa : Nat
  min : Nat
  deriving DecidableEq

namespace Header

def full : Header := ⟨0, 64, 0⟩

def scale (h : Header) : Nat :=
  Nat.pow 10 h.exponent

def max (h : Header) : Nat :=
  h.min + (1 <<< h.mantissa - 1) * h.scale

/-- The number of keys in each ring, the lowest digit first. An exact value takes one ring of one
key, and an odd mantissa leaves one bit for the last ring. -/
def ringSizes (h : Header) : List Nat :=
  if h.mantissa = 0 then [1]
  else List.replicate (h.mantissa / 2) 4 ++ (if h.mantissa % 2 = 1 then [2] else [])

def encode (h : Header) : Bytes :=
  let flag : Nat := if h.min = 0 then 0 else 32
  (if h.mantissa = 0 then [UInt8.ofNat flag]
    else [UInt8.ofNat (64 + flag + h.exponent), UInt8.ofNat (h.mantissa - 1)]) ++
    (if h.min = 0 then [] else Bytes.bigEndian 8 h.min)

def takeShape (flags : UInt8) (rest : Bytes) : Option (Nat × Nat × Bytes) :=
  if flags &&& 64 = 0 then some (0, 0, rest)
  else
    match rest with
    | [] => none
    | m :: rest => some ((flags &&& 31).toNat, m.toNat + 1, rest)

def takeMin (flags : UInt8) (rest : Bytes) : Option (Nat × Bytes) :=
  if flags &&& 32 = 0 then some (0, rest)
  else if rest.length < 8 then none
  else some (Bytes.toNat (rest.take 8), rest.drop 8)

/-- Reads a header, with the bytes after it. No proven value may exceed 64 bits. -/
def decode : Bytes → Option (Header × Bytes)
  | [] => none
  | flags :: rest => do
    let (exponent, mantissa, rest) ← takeShape flags rest
    let (min, rest) ← takeMin flags rest
    let h : Header := ⟨exponent, mantissa, min⟩
    guard (flags &&& 128 = 0 ∧ exponent ≤ 18 ∧ mantissa ≤ 64 ∧ h.max < UInt64.size)
    return (h, rest)

end Header

end ConfidentialTx.RangeProof
