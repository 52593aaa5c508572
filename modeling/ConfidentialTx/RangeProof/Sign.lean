import ConfidentialTx.RangeProof.Basic
import ConfidentialTx.RangeProof.Draws
import ConfidentialTx.RangeProof.Ring

namespace ConfidentialTx.RangeProof

/-- What the pads hide: the message from the first key on, and the value marker in the last
ring. -/
def hiddenBlocks (sizes : List Nat) (v : Nat) (message : Bytes) : List (List Bytes) :=
  sizes.zipIdx.map fun (size, ring) ↦
    (List.range size).map fun place ↦
      if ring + 1 = sizes.length ∧ 1 < size ∧ place = markerPlace size (digit v ring) then
        valueMarker v
      else Bytes.padTake 32 (message.drop (32 * (4 * ring + place)))

def maskedResponses (pads : List (List (FixedBytes 32))) (blocks : List (List Bytes)) :
    Option (List (List Scalar)) :=
  (pads.zip blocks).mapM fun (pads, blocks) ↦
    (pads.zip blocks).mapM fun (pad, block) ↦
      Scalar.ofBytesNonzero? (.fit (Bytes.xor pad.toList block))

/-- One bit for each of `count` points, eight to a byte, the first in the lowest place. The bits of
points that are missing are clear. -/
def packSigns (count : Nat) (points : List Point) : Bytes :=
  let signs := points.map fun p ↦ (pointBytes p).headD 0
  (List.range ((count + 7) / 8)).map fun i ↦
    ((signs.drop (8 * i)).take 8).foldr (fun sign byte ↦ (byte <<< 1) ||| sign) 0

def proofDigest (commit : Point) (header : Bytes) (points : List Bytes) : FixedBytes 32 :=
  Sha256.digest (pointBytes commit ++ pointBytes Generator.value ++ header ++ points.flatten)

/-- A signer that cannot go on leaves what it has written. -/
def orLeave {α : Type} (written : Bytes) : Option α → Except Bytes α
  | some a => .ok a
  | none => .error written

/-- A proof for `commit`, which opens to `header.min + v * header.scale` and `blind`. The error holds
the front parts of the proof that were written before the signer failed. -/
def sign (header : Header) (v : Nat) (commit : Point) (blind nonce : SecretKey) (message : Bytes) :
    Except Bytes Bytes := do
  let sizes := header.ringSizes
  let draws ← orLeave header.encode (Draws.make nonce commit header.encode sizes)
  let responses ← orLeave header.encode
    (maskedResponses draws.pads (hiddenBlocks sizes v message))
  let secrets := draws.secrets.modify (sizes.length - 1) (· + blind.scalar)
  if secrets.getLast? = some 0 then throw header.encode
  let steps := ringSteps sizes.length (Generator.value.mul (.reduce header.scale))
  let firsts := secrets.zipIdx.map fun (secret, i) ↦
    Point.mulAdd (.reduce ((digit v i * header.scale) <<< (2 * i))) Generator.value
      secret Generator.base
  let points := firsts.dropLast.takeWhile (· ≠ 0)
  let front := header.encode ++ packSigns (sizes.length - 1) points ++
    (points.map fun p ↦ (pointBytes p).drop 1).flatten
  if firsts.contains 0 then throw front
  let digest := proofDigest commit header.encode (points.map pointBytes)
  let rings := (sizes.zip (firsts.zip (steps.zip (secrets.zip responses)))).zipIdx.map
    fun ((size, first, step, secret, responses), i) ↦
      { keys := ringKeys size first step
        responses
        place := digit v i
        secret
        nonce := responses.getD (digit v i) 0 : OwnedRing }
  let start ← orLeave front (openRings digest rings)
  let responses ← orLeave (front ++ start.toList) (closeRings digest start rings)
  return front ++ start.toList ++ responses.flatten.flatMap fun r ↦ (Scalar.toBytes r).toList

/-- Proves that `commit` opens to a 64-bit value with the blinding factor, which is the nonce too.
A signer that fails is not noticed: what it has written takes the place of the proof, and its size
is that of the whole buffer. -/
def prove (cap : Capability) (value : UInt64) (blind : SecretKey) (commit : Commitment)
    (message : Bytes) : Except CurveError RangeProof := do
  cap.requireCommit
  if message.length > maxMessageSize then throw (.proofMessageTooLong message.length)
  if (← Commitment.commit cap value blind) ≠ commit then throw .commitmentMismatch
  match sign .full value.toNat (.pedersen value blind.scalar) blind blind message with
  | .ok proof => return ⟨FixedBytes.fit proof, proof.length⟩
  | .error written => return ⟨FixedBytes.fit written, maxSize⟩

end ConfidentialTx.RangeProof
