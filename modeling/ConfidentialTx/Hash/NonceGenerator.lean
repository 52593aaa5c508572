import ConfidentialTx.Hash.Sha256

namespace ConfidentialTx

namespace Sha256

def hmac (key message : Bytes) : FixedBytes 32 :=
  let short := if key.length ≤ blockSize then key else (digest key).toList
  let block := Bytes.padTake blockSize short
  let inner := digest (block.map (· ^^^ 0x36) ++ message)
  digest (block.map (· ^^^ 0x5c) ++ inner.toList)

end Sha256

structure NonceGenerator where
  key : FixedBytes 32
  value : FixedBytes 32
  drawn : Bool

namespace NonceGenerator

/-- Replaces the key by one that also depends on `input`, and the value with it. -/
def rekey (g : NonceGenerator) (input : Bytes) : NonceGenerator :=
  let key := Sha256.hmac g.key.toList (g.value.toList ++ input)
  { g with key, value := Sha256.hmac key.toList g.value.toList }

def init (seed : Bytes) : NonceGenerator :=
  let start : NonceGenerator :=
    ⟨FixedBytes.zero, ⟨List.replicate 32 1, List.length_replicate⟩, false⟩
  (start.rekey (0 :: seed)).rekey (1 :: seed)

/-- The next 32 bytes. Every draw but the first changes the key before it. -/
def draw (g : NonceGenerator) : FixedBytes 32 × NonceGenerator :=
  let g := if g.drawn then g.rekey [0] else g
  let value := Sha256.hmac g.key.toList g.value.toList
  (value, { g with value, drawn := true })

/-- How often a draw is repeated. A draw is refused with a chance of less than `2 ^ (-127)`. -/
def drawLimit : Nat := UInt32.size

def search {α : Type} (accept : FixedBytes 32 → Option α) :
    Nat → NonceGenerator → Option (α × NonceGenerator)
  | 0, _ => none
  | limit + 1, g =>
    match accept g.draw.1 with
    | some a => some (a, g.draw.2)
    | none => search accept limit g.draw.2

end NonceGenerator

end ConfidentialTx
