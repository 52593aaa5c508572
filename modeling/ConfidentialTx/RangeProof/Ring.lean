import ConfidentialTx.Curve.Keys
import ConfidentialTx.Hash.Sha256

namespace ConfidentialTx.RangeProof

def challenge (digest : FixedBytes 32) (ring place : Nat) (link : Bytes) : Option Scalar :=
  Scalar.ofBytesNonzero? (Sha256.digest
    (link ++ digest.toList ++ Bytes.bigEndian 4 ring ++ Bytes.bigEndian 4 place))

def linkOf : Point → Option Bytes
  | .infinity => none
  | .affine x y => some (PublicKey.compress ⟨x, y⟩).toList

def respond (e : Scalar) (key : Point) (response : Scalar) : Option Bytes :=
  if key = 0 ∨ response = 0 then none
  else linkOf (Point.mulAdd e key response Generator.base)

/-- Goes along keys with their responses from the link in front of the first, which is at `place`.
Gives the challenges on the way and the link after the last key. -/
def follow (digest : FixedBytes 32) (ring : Nat) :
    Nat → Bytes → List (Point × Scalar) → Option (List Scalar × Bytes)
  | _, link, [] => some ([], link)
  | place, link, (key, response) :: rest => do
    let e ← challenge digest ring place link
    let next ← respond e key response
    let (es, last) ← follow digest ring (place + 1) next rest
    return (e :: es, last)

def opening (digest : FixedBytes 32) (ends : List Bytes) : FixedBytes 32 :=
  Sha256.digest (ends.flatten ++ digest.toList)

/-- A ring with the secret key of the key at `place`, the nonce chosen for it, and responses, of
which that at `place` is still to be found. -/
structure OwnedRing where
  keys : List Point
  responses : List Scalar
  place : Nat
  secret : Scalar
  nonce : Scalar

namespace OwnedRing

def finish (digest : FixedBytes 32) (ring : Nat) (r : OwnedRing) : Option Bytes := do
  let start ← linkOf (Generator.base.mul r.nonce)
  let later := (r.keys.zip r.responses).drop (r.place + 1)
  return (← follow digest ring (r.place + 1) start later).2

def close (digest : FixedBytes 32) (start : FixedBytes 32) (ring : Nat) (r : OwnedRing) :
    Option (List Scalar) := do
  let earlier := (r.keys.zip r.responses).take r.place
  let (_, link) ← follow digest ring 0 start.toList earlier
  let e ← challenge digest ring r.place link
  let response := r.nonce - e * r.secret
  guard (response ≠ 0)
  return r.responses.set r.place response

end OwnedRing

def openRings (digest : FixedBytes 32) (rings : List OwnedRing) : Option (FixedBytes 32) := do
  return opening digest (← rings.zipIdx.mapM fun (r, i) ↦ r.finish digest i)

def closeRings (digest : FixedBytes 32) (start : FixedBytes 32) (rings : List OwnedRing) :
    Option (List (List Scalar)) :=
  rings.zipIdx.mapM fun (r, i) ↦ r.close digest start i

/-- The challenges of each ring, if the rings lead back to their opening challenge. -/
def verifyRings (digest : FixedBytes 32) (start : FixedBytes 32)
    (rings : List (List (Point × Scalar))) : Option (List (List Scalar)) := do
  let walks ← rings.zipIdx.mapM fun (r, i) ↦ follow digest i 0 start.toList r
  guard (opening digest (walks.map (·.2)) = start)
  return walks.map (·.1)

end ConfidentialTx.RangeProof
