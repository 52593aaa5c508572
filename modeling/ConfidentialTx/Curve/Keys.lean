import ConfidentialTx.Curve.Capability
import ConfidentialTx.Curve.Generators

namespace ConfidentialTx

@[ext] structure SecretKey where
  scalar : Scalar
  ne_zero : scalar ≠ 0
  deriving DecidableEq

namespace SecretKey

def ofScalar? (a : Scalar) : Option SecretKey :=
  if h : a = 0 then none else some ⟨a, h⟩

def toBytes (key : SecretKey) : FixedBytes 32 :=
  key.scalar.toBytes

/-- The key whose big-endian form is the string; its length is looked at first. -/
def ofBytes (bs : Bytes) : Except CurveError SecretKey :=
  match (FixedBytes.ofList? bs : Option (FixedBytes 32)) with
  | none => .error (.lengthMismatch bs.length 32)
  | some b =>
    match (Scalar.ofBytes? b).bind ofScalar? with
    | none => .error .invalidSecretKey
    | some key => .ok key

/-- Adds a number below the group order; the sum must be a key again. -/
def tweakAdd (key : SecretKey) (tweak : FixedBytes 32) : Except CurveError SecretKey :=
  match (Scalar.ofBytes? tweak).bind fun t ↦ ofScalar? (key.scalar + t) with
  | none => .error .invalidSecretKey
  | some sum => .ok sum

def blindSum (positive negative : List SecretKey) : Scalar :=
  (positive.map scalar).foldl (· + ·) 0 - (negative.map scalar).foldl (· + ·) 0

theorem ofScalar?_scalar (key : SecretKey) : ofScalar? key.scalar = some key := by
  simp [ofScalar?, key.ne_zero]

theorem ofBytes_toBytes (key : SecretKey) : ofBytes key.toBytes.toList = .ok key := by
  simp [ofBytes, toBytes, FixedBytes.ofList?_toList, Scalar.ofBytes?_toBytes, ofScalar?_scalar]

end SecretKey

structure PublicKey where
  x : Field
  y : Field
  deriving DecidableEq

namespace PublicKey

def toPoint (key : PublicKey) : Point :=
  .affine key.x key.y

def ofPoint? : Point → Option PublicKey
  | .infinity => none
  | .affine x y => some ⟨x, y⟩

def compress (key : PublicKey) : FixedBytes 33 :=
  ⟨(if key.y.isOdd then 3 else 2) :: key.x.toBytes.toList, by
    rw [List.length_cons, key.x.toBytes.length_toList]⟩

def ofCompressed? (head : UInt8) (x : FixedBytes 32) : Option PublicKey :=
  if head = 2 ∨ head = 3 then
    (Field.ofBytes? x).bind fun x ↦ (Point.ofParityY? x (head = 3)).bind ofPoint?
  else none

/-- The leading byte is 4, or 6 or 7 when it also tells the parity of the second coordinate. -/
def ofUncompressed? (head : UInt8) (x y : FixedBytes 32) : Option PublicKey :=
  match Field.ofBytes? x, Field.ofBytes? y with
  | some x, some y =>
    if (head = 4 ∨ (head = 6 ∧ ¬y.isOdd) ∨ (head = 7 ∧ y.isOdd)) ∧ y * y = Point.cubic x then
      some ⟨x, y⟩
    else none
  | _, _ => none

def ofBytes (bs : Bytes) : Except CurveError PublicKey :=
  let key? : Option PublicKey :=
    match bs with
    | [] => none
    | head :: rest =>
      if rest.length = 32 then ofCompressed? head (.fit rest)
      else if rest.length = 64 then
        ofUncompressed? head (.fit (rest.take 32)) (.fit (rest.drop 32))
      else none
  match key? with
  | some key => .ok key
  | none => .error .invalidPublicKey

end PublicKey

def SecretKey.publicKey (cap : Capability) (key : SecretKey) : Except CurveError PublicKey := do
  cap.requireSign
  match PublicKey.ofPoint? (Generator.base.mul key.scalar) with
  | some publicKey => .ok publicKey
  | none => .error .invalidPublicKey

end ConfidentialTx
