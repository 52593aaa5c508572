import ConfidentialTx.Curve.Keys
import ConfidentialTx.Hash.NonceGenerator
import ConfidentialTx.Hex

namespace ConfidentialTx

abbrev Message := FixedBytes 32

namespace Message

def ofBytes (bs : Bytes) : Except CurveError Message :=
  match FixedBytes.ofList? bs with
  | some b => .ok b
  | none => .error .invalidMessage

def toScalar (msg : Message) : Scalar :=
  .reduce msg.toNat

end Message

@[ext] structure Signature where
  r : Scalar
  s : Scalar
  r_ne_zero : r ≠ 0
  s_ne_zero : s ≠ 0

instance : DecidableEq Signature := fun _ _ ↦ decidable_of_iff _ Signature.ext_iff.symm

namespace Signature

def ofScalars? (r s : Scalar) : Option Signature :=
  if h : r ≠ 0 ∧ s ≠ 0 then some ⟨r, s, h.1, h.2⟩ else none

def toCompact (sig : Signature) : Bytes :=
  sig.r.toBytes.toList ++ sig.s.toBytes.toList

def ofCompact? (bs : Bytes) : Option Signature :=
  if bs.length = 64 then do
    let r ← Scalar.ofBytes? (.fit (bs.take 32))
    let s ← Scalar.ofBytes? (.fit (bs.drop 32))
    ofScalars? r s
  else none

def ofCompact (bs : Bytes) : Except CurveError Signature :=
  match ofCompact? bs with
  | some sig => .ok sig
  | none => .error .invalidSignature

theorem ofCompact_toCompact (sig : Signature) : ofCompact sig.toCompact = .ok sig := by
  have hr := FixedBytes.fit_toList sig.r.toBytes
  have hs := FixedBytes.fit_toList sig.s.toBytes
  have hlen := sig.r.toBytes.length_toList
  simp [ofCompact, ofCompact?, toCompact, ofScalars?, hr, hs, hlen, sig.s.toBytes.length_toList,
    Scalar.ofBytes?_toBytes, sig.r_ne_zero, sig.s_ne_zero]

def describe (sig : Signature) : String :=
  "Signature(" ++ Hex.encode sig.toCompact ++ ")"

/-- The signature that a nonce gives, unless one of its halves is zero. -/
def ofNonce? (msg : Message) (key : SecretKey) (nonce : Scalar) : Option Signature :=
  match Generator.base.mul nonce with
  | .infinity => none
  | .affine x _ =>
    let r := Scalar.reduce x.val
    let s : Scalar := nonce.inv * (msg.toScalar + r * key.scalar)
    ofScalars? r (if s.isHigh then -s else s)

def sign (cap : Capability) (msg : Message) (key : SecretKey) : Except CurveError Signature := do
  cap.requireSign
  let seed := key.toBytes.toList ++ msg.toList
  let accept (draw : FixedBytes 32) := (Scalar.ofBytesNonzero? draw).bind (ofNonce? msg key)
  match NonceGenerator.search accept NonceGenerator.drawLimit (.init seed) with
  | some (sig, _) => .ok sig
  | none => .error .invalidSignature

def isValid (msg : Message) (sig : Signature) (key : PublicKey) : Bool :=
  !sig.s.isHigh &&
    let w := sig.s.inv
    match Point.mulAdd (msg.toScalar * w) Generator.base (sig.r * w) key.toPoint with
    | .infinity => false
    | .affine x _ => Scalar.reduce x.val = sig.r

def verify (cap : Capability) (msg : Message) (sig : Signature) (key : PublicKey) :
    Except CurveError Unit := do
  cap.requireVerify
  if isValid msg sig key then .ok () else .error .incorrectSignature

end Signature

end ConfidentialTx
