import ConfidentialTx.Commitment
import ConfidentialTx.Hash.NonceGenerator
import ConfidentialTx.RangeProof.Header

namespace ConfidentialTx.RangeProof

/-- A point inside proofs: 0 or 1, as the second coordinate is a square or not, and the first. -/
def pointBytes : Point → Bytes
  | .infinity => []
  | .affine x y => (if y.isSquare then 0 else 1) :: x.toBytes.toList

structure Draws where
  secrets : List Scalar
  pads : List (List (FixedBytes 32))

namespace Draws

def takePads : Nat → NonceGenerator → List (FixedBytes 32) × NonceGenerator
  | 0, g => ([], g)
  | count + 1, g =>
    let (pad, g) := g.draw
    let (pads, g) := takePads count g
    (pad :: pads, g)

/-- Draws for rings of these sizes; `total` is the sum of the secrets so far. -/
def takeRings (total : Scalar) : List Nat → NonceGenerator → Option Draws
  | [], _ => some ⟨[], []⟩
  | [size], g => some ⟨[-total], [(takePads size g).1]⟩
  | size :: rest, g => do
    let (_, g) := g.draw
    let (secret, g) ← g.search Scalar.ofBytesNonzero? NonceGenerator.drawLimit
    let (pads, g) := takePads size g
    let draws ← takeRings (total + secret) rest g
    return ⟨secret :: draws.secrets, pads :: draws.pads⟩

def make (nonce : SecretKey) (commit : Point) (header : Bytes) (sizes : List Nat) : Option Draws :=
  takeRings 0 sizes (.init
    (nonce.toBytes.toList ++ pointBytes commit ++ pointBytes Generator.value ++ header))

end Draws

def digit (v i : Nat) : Nat :=
  (v >>> (2 * i)) % 4

/-- The block that tells the value: a set bit, zeros, and three copies of the value. -/
def valueMarker (v : Nat) : Bytes :=
  [128, 0, 0, 0, 0, 0, 0, 0] ++ Bytes.bigEndian 8 v ++ Bytes.bigEndian 8 v ++ Bytes.bigEndian 8 v

def markedValue? (block : Bytes) : Option Nat :=
  if block.headD 0 &&& 128 ≠ 0 ∧ (block.drop 8).take 8 = (block.drop 16).take 8 ∧
      (block.drop 16).take 8 = (block.drop 24).take 8 then
    some (Bytes.toNat ((block.drop 24).take 8))
  else none

/-- The key of the last ring that carries the value marker: the last one, or its neighbour when
the last one is the true digit's. -/
def markerPlace (size trueDigit : Nat) : Nat :=
  if trueDigit = size - 1 then size - 2 else size - 1

/-- What a step along each of `count` rings takes off: four times as much as in the ring before. -/
def ringSteps : Nat → Point → List Point
  | 0, _ => []
  | count + 1, step =>
    let twice := step + step
    step :: ringSteps count (twice + twice)

def ringKeys : Nat → Point → Point → List Point
  | 0, _, _ => []
  | size + 1, first, step => first :: ringKeys size (first - step) step

end ConfidentialTx.RangeProof
