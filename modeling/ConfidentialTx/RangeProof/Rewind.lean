import ConfidentialTx.RangeProof.Verify

namespace ConfidentialTx.RangeProof

/-- What a nonce uncovers: the number in the proof's units, the blinding factor and the message
with the zeros after it. -/
structure Opening where
  number : Nat
  blind : Scalar
  message : Bytes

def recoverSecret (nonce e response : Scalar) : Scalar :=
  (nonce - response) * e.inv

def unmask (response : Scalar) (pad : FixedBytes 32) : Bytes :=
  Bytes.xor response.toBytes.toList pad.toList

/-- The place and the value of the marker, which is in one of the last two places. -/
def findMarker (responses : List Scalar) (pads : List (FixedBytes 32)) : Option (Nat × Nat) :=
  let places := [responses.length - 1, responses.length - 2]
  places.findSome? fun place ↦ do
    let response ← responses[place]?
    let pad ← pads[place]?
    let v ← markedValue? (unmask response pad)
    return (place, v)

/-- The blocks that the pads of one ring hide, but for the places in `skipped`. -/
def ringBlocks (place : Nat) (skipped : List Nat) (secret : Scalar) (responses es : List Scalar)
    (pads : List (FixedBytes 32)) : List Bytes :=
  (responses.zip (es.zip pads)).zipIdx.flatMap fun ((response, e, pad), i) ↦
    if i ∈ skipped then []
    else [unmask (if i = place then response + e * secret else response) pad]

def openParts (parts : Parts) (es : List (List Scalar)) (nonce : SecretKey) (commit : Point) :
    Option Opening := do
  let sizes := parts.ringSizes
  let draws ← Draws.make nonce commit parts.headerBytes sizes
  let last := sizes.length - 1
  let lastResponses ← parts.responses[last]?
  let lastEs ← es[last]?
  let lastPads ← draws.pads[last]?
  let lastSecret ← draws.secrets[last]?
  let recoverAt (place : Nat) : Option Scalar := do
    let pad ← lastPads[place]?
    let e ← lastEs[place]?
    let response ← lastResponses[place]?
    return recoverSecret (.reduce pad.toNat) e response - lastSecret
  if sizes = [1] then
    return ⟨0, ← recoverAt 0, []⟩
  let (marked, v) ← findMarker lastResponses lastPads
  let place := digit v last
  guard (marked ≠ place)
  let blind ← recoverAt place
  let blocks := (parts.responses.zip (es.zip (draws.pads.zip draws.secrets))).zipIdx.flatMap
    fun ((responses, es, pads, secret), i) ↦
      ringBlocks (digit v i) (if i = last then [marked, place] else []) secret responses es pads
  return ⟨v, blind, blocks.flatten.take maxMessageSize⟩

def Parts.valueOf (parts : Parts) (number : Nat) : UInt64 :=
  UInt64.ofNat (number * parts.header.scale + parts.header.min)

def dropTrailingZeros (bs : Bytes) : Bytes :=
  (bs.reverse.dropWhile (· = 0)).reverse

/-- Opens a valid proof; the commitment must be to the value and the blinding factor found. -/
def rewindPoint (point : Point) (nonce : SecretKey) (bs : Bytes) : Option ProofInfo := do
  let parts ← Parts.ofBytes? bs
  let es ← parts.verify point
  let opening ← openParts parts es nonce point
  let value := parts.valueOf opening.number
  guard (Point.pedersen value opening.blind = point)
  return ⟨true, value, dropTrailingZeros opening.message, parts.range.min, parts.range.max⟩

/-- Reads value and message out of a proof. A nonce that does not fit and a proof that does not hold
are no errors. -/
def rewind (cap : Capability) (commit : Commitment) (proof : RangeProof) (nonce : SecretKey) :
    Except CurveError ProofInfo := do
  cap.requireCommit
  let point ← commit.toPoint
  checkSize proof
  return (rewindPoint point nonce proof.bytes).getD .failed

end ConfidentialTx.RangeProof
