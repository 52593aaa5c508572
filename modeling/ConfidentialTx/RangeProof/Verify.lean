import ConfidentialTx.RangeProof.Sign

namespace ConfidentialTx.RangeProof

structure Parts where
  header : Header
  headerBytes : Bytes
  pointBytes : List Bytes
  points : List Point
  start : FixedBytes 32
  responses : List (List Scalar)

namespace Parts

def ringSizes (parts : Parts) : List Nat :=
  parts.header.ringSizes

def split? (count : Nat) (bs : Bytes) : Option (Bytes × Bytes) :=
  if bs.length < count then none else some (bs.take count, bs.drop count)

/-- The lowest `count` bits of the bytes, eight of each; the other bits must be zero. -/
def unpackSigns (count : Nat) (bs : Bytes) : Option (List Bool) :=
  let signs := bs.flatMap fun b ↦ (List.range 8).map fun i ↦ b.toNat.testBit i
  if (signs.drop count).any id then none else some (signs.take count)

def takePoints : List Bool → Bytes → Option (List (Bytes × Point) × Bytes)
  | [], bs => some ([], bs)
  | sign :: signs, bs => do
    let (x, bs) ← split? 32 bs
    let p ← (Field.ofBytes? (.fit x)).bind Point.ofSquareY?
    let (points, bs) ← takePoints signs bs
    return (((if sign then 1 else 0) :: x, if sign then -p else p) :: points, bs)

def takeScalars : Nat → Bytes → Option (List Scalar × Bytes)
  | 0, bs => some ([], bs)
  | count + 1, bs => do
    let (b, bs) ← split? 32 bs
    let s ← Scalar.ofBytes? (.fit b)
    let (ss, bs) ← takeScalars count bs
    return (s :: ss, bs)

def takeRings : List Nat → Bytes → Option (List (List Scalar) × Bytes)
  | [], bs => some ([], bs)
  | size :: sizes, bs => do
    let (ring, bs) ← takeScalars size bs
    let (rings, bs) ← takeRings sizes bs
    return (ring :: rings, bs)

def ofBytes? (bs : Bytes) : Option Parts := do
  let (header, rest) ← Header.decode bs
  let sizes := header.ringSizes
  let count := sizes.length - 1
  let (signs, body) ← split? ((count + 7) / 8) rest
  let signs ← unpackSigns count signs
  let (points, body) ← takePoints signs body
  let (start, body) ← split? 32 body
  let (responses, body) ← takeRings sizes body
  guard (body = [])
  return {
    header
    headerBytes := bs.take (bs.length - rest.length)
    pointBytes := points.map (·.1)
    points := points.map (·.2)
    start := .fit start
    responses }

/-- The keys of all rings with their responses. The first key of the last ring is what the
commitment leaves over after the other digits and the smallest value. -/
def rings (parts : Parts) (commit : Point) : List (List (Point × Scalar)) :=
  let sizes := parts.ringSizes
  let steps := ringSteps sizes.length (Generator.value.mul (.reduce parts.header.scale))
  let base := Generator.value.mul (.reduce parts.header.min)
  let firsts := parts.points ++ [commit - parts.points.foldl (· + ·) base]
  (sizes.zip (firsts.zip (steps.zip parts.responses))).map
    fun (size, first, step, responses) ↦ (ringKeys size first step).zip responses

def verify (parts : Parts) (commit : Point) : Option (List (List Scalar)) :=
  verifyRings (proofDigest commit parts.headerBytes parts.pointBytes) parts.start
    (parts.rings commit)

def range (parts : Parts) : ProofRange :=
  ⟨UInt64.ofNat parts.header.min, UInt64.ofNat parts.header.max⟩

end Parts

def checkSize (proof : RangeProof) : Except CurveError Unit :=
  if proof.size = 0 ∨ maxSize < proof.size then .error .invalidRangeProof else .ok ()

def verify (cap : Capability) (commit : Commitment) (proof : RangeProof) :
    Except CurveError ProofRange := do
  cap.requireCommit
  let point ← commit.toPoint
  checkSize proof
  match (Parts.ofBytes? proof.bytes).filter fun parts ↦ (parts.verify point).isSome with
  | some parts => .ok parts.range
  | none => .error .invalidRangeProof

end ConfidentialTx.RangeProof
