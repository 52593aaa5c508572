import Mathlib
import ConfidentialTx.Builder.Steps
import ConfidentialTx.Proofs.Commitment.Opening
import ConfidentialTx.Proofs.Results

namespace ConfidentialTx

namespace Commitment

theorem toPoint_eq_ok_iff {c : Commitment} {p : Point} : c.toPoint = .ok p ↔ c.toPoint? = some p := by
  unfold toPoint
  cases c.toPoint? <;> simp

theorem ofPoint_eq_ok_iff {p : Point} {c : Commitment} : ofPoint p = .ok c ↔ ofPoint? p = some c := by
  unfold ofPoint
  cases ofPoint? p <;> simp

end Commitment

namespace Bytewise

/-- What a function that gives up was handed. -/
inductive Abort
  | secretKey (bs : FixedBytes 32)
  | tweak (bs : FixedBytes 32)
  | commitment (c : Commitment)
  /-- A value and a blinding factor that cancel out. -/
  | identity (value : UInt64) (blind : FixedBytes 32)
  | infinity
  | proofSize (size : Nat)
  | messageSize (size : Nat)
  | hashKey (bs : Bytes)
  | fixedWrite (e : SizeMismatch)

/-- Results that may be errors, of functions that may give up. -/
abbrev Trusting (ε α : Type) := ExceptT ε (Except Abort) α

namespace Trusting

variable {ε δ α β : Type}

def ofExcept (r : Except ε α) : Trusting ε α := ExceptT.mk (.ok r)

def abort (a : Abort) : Trusting ε α := ExceptT.mk (.error a)

def mapError (f : ε → δ) (x : Trusting ε α) : Trusting δ α :=
  ExceptT.mk ((·.mapError f) <$> x.run)

theorem pure_eq (a : α) : (pure a : Trusting ε α) = ofExcept (.ok a) := rfl

@[simp] theorem ofExcept_ok_bind (a : α) (f : α → Trusting ε β) :
    (ofExcept (.ok a) >>= f) = f a := rfl

@[simp] theorem ofExcept_error_bind (e : ε) (f : α → Trusting ε β) :
    (ofExcept (.error e) >>= f) = ofExcept (.error e) := rfl

theorem ofExcept_bind (r : Except ε α) (f : α → Except ε β) :
    ofExcept (r >>= f) = ofExcept r >>= fun a ↦ ofExcept (f a) := by
  cases r with
  | ok a => rfl
  | error e => rfl

@[simp] theorem mapError_ofExcept (f : ε → δ) (r : Except ε α) :
    (ofExcept r).mapError f = ofExcept (r.mapError f) := rfl

end Trusting

namespace Library

open Trusting (abort)

variable {ε : Type}

def secretKey (bs : FixedBytes 32) : Trusting ε SecretKey :=
  match (Scalar.ofBytes? bs).bind SecretKey.ofScalar? with
  | some key => pure key
  | none => abort (.secretKey bs)

def point (c : Commitment) : Trusting ε Point :=
  match c.toPoint? with
  | some p => pure p
  | none => abort (.commitment c)

def publicKey (cap : Capability) (secret : FixedBytes 32) : Trusting CurveError PublicKey := do
  let key ← secretKey secret
  .ofExcept (key.publicKey cap)

def tweakAdd (secret tweak : FixedBytes 32) : Trusting CurveError (FixedBytes 32) := do
  let key ← secretKey secret
  if scalarInRange tweak then .ofExcept ((key.tweakAdd tweak).map SecretKey.toBytes)
  else abort (.tweak tweak)

def blindSum (positive negative : List (FixedBytes 32)) : Trusting CurveError (FixedBytes 32) := do
  let plus ← positive.mapM secretKey
  let minus ← negative.mapM secretKey
  match SecretKey.ofScalar? (SecretKey.blindSum plus minus) with
  | some sum => return sum.toBytes
  | none => throw .invalidSecretKey

def commit (value : UInt64) (blind : FixedBytes 32) : Trusting CurveError Commitment := do
  let key ← secretKey blind
  match Commitment.ofPoint? (.pedersen value key.scalar) with
  | some c => return c
  | none => abort (.identity value blind)

def commitValue (value : UInt64) : Trusting CurveError Commitment :=
  match Commitment.ofPoint? (.pedersen value 0) with
  | some c => return c
  | none => abort .infinity

def commitSwitch (blind : FixedBytes 32) : Trusting CurveError Commitment := do
  let key ← secretKey blind
  match Commitment.ofPoint? (Generator.switch.mul key.scalar) with
  | some c => return c
  | none => abort .infinity

def commitSum (positive negative : List Commitment) : Trusting CurveError Commitment := do
  let plus ← positive.mapM point
  let minus ← negative.mapM point
  .ofExcept (Commitment.ofPoint (Point.sum plus - Point.sum minus))

def balance (positive negative : List Commitment) : Trusting ε Bool := do
  let plus ← positive.mapM point
  let minus ← negative.mapM point
  return Point.sum plus = Point.sum minus

def toPublicKey (c : Commitment) : Trusting CurveError PublicKey := do
  let _ ← point c
  .ofExcept c.toPublicKey

def sign (cap : Capability) (msg : Message) (secret : FixedBytes 32) :
    Trusting CurveError Bytes := do
  let key ← secretKey secret
  .ofExcept ((Signature.sign cap msg key).map Signature.toCompact)

def proofSize (size : Nat) : Trusting ε Unit :=
  if size = 0 ∨ RangeProof.maxSize < size then abort (.proofSize size) else pure ()

def prove (value : UInt64) (blind : FixedBytes 32) (c : Commitment) (message : Bytes) :
    Trusting CurveError RangeProof := do
  let key ← secretKey blind
  let _ ← point c
  if RangeProof.maxMessageSize < message.length then abort (.messageSize message.length)
  else
    match RangeProof.sign .full value.toNat (.pedersen value key.scalar) key key message with
    | .ok proof => return ⟨FixedBytes.fit proof, proof.length⟩
    | .error written => return ⟨FixedBytes.fit written, RangeProof.maxSize⟩

def verify (c : Commitment) (proof : RangeProof) : Trusting CurveError ProofRange := do
  let _ ← point c
  proofSize proof.size
  .ofExcept (RangeProof.verify .commit c proof)

def rewind (c : Commitment) (proof : RangeProof) (nonce : FixedBytes 32) :
    Trusting CurveError ProofInfo := do
  let _ ← point c
  proofSize proof.size
  let key ← secretKey nonce
  .ofExcept (RangeProof.rewind .commit c proof key)

def keyedHash (size : Nat) (key : Bytes) (parts : List Bytes) : Trusting ε (FixedBytes size) :=
  match Blake2b.Key.ofBytes? key with
  | some key => return Blake2b.keyedHash size key parts
  | none => abort (.hashKey key)

def write (w : HashWriter) (a : Write) : Trusting ε HashWriter :=
  match w.write a with
  | .ok w => return w
  | .error e => abort (.fixedWrite e)

@[simp] theorem secretKey_toBytes (key : SecretKey) :
    (secretKey key.toBytes : Trusting ε SecretKey) = pure key := by
  rw [secretKey, SecretKey.toBytes, Scalar.ofBytes?_toBytes, Option.bind_some,
    SecretKey.ofScalar?_scalar]

theorem publicKey_toBytes (cap : Capability) (key : SecretKey) :
    publicKey cap key.toBytes = .ofExcept (key.publicKey cap) := by
  simp [publicKey]

theorem sign_toBytes (cap : Capability) (msg : Message) (key : SecretKey) :
    sign cap msg key.toBytes =
      .ofExcept ((Signature.sign cap msg key).map Signature.toCompact) := by
  simp [sign]

theorem tweakAdd_toBytes (key : SecretKey) {tweak : FixedBytes 32}
    (h : scalarInRange tweak = true) :
    tweakAdd key.toBytes tweak = .ofExcept ((key.tweakAdd tweak).map SecretKey.toBytes) := by
  simp [tweakAdd, h]

theorem point_of_toPoint {c : Commitment} {p : Point} (h : c.toPoint = .ok p) :
    (point c : Trusting ε Point) = pure p := by
  rw [point, Commitment.toPoint_eq_ok_iff.mp h]

@[simp] theorem mapM_secretKey (keys : List SecretKey) :
    ((keys.map SecretKey.toBytes).mapM secretKey : Trusting ε (List SecretKey)) = pure keys := by
  induction keys with
  | nil => rfl
  | cons key keys ih => simp [List.mapM_cons, ih]

theorem mapM_point {cs : List Commitment} {ps : List Point} (h : Commitment.points cs = .ok ps) :
    (cs.mapM point : Trusting ε (List Point)) = pure ps := by
  unfold Commitment.points at h
  induction cs generalizing ps with
  | nil =>
    cases h
    rfl
  | cons c cs ih =>
    rw [List.mapM_cons] at h ⊢
    obtain ⟨p, hp, h⟩ := bind_eq_ok_iff.mp h
    obtain ⟨ps', hps, h⟩ := bind_eq_ok_iff.mp h
    cases h
    rw [point_of_toPoint hp, ih hps]
    rfl

theorem proofSize_of_checkSize {proof : RangeProof} (h : RangeProof.checkSize proof = .ok ()) :
    (proofSize proof.size : Trusting ε Unit) = pure () := by
  unfold RangeProof.checkSize at h
  unfold proofSize
  split at h
  · cases h
  · rename_i hsize
    rw [if_neg hsize]

theorem keyedHash_bytes (size : Nat) (key : Blake2b.Key) (parts : List Bytes) :
    (keyedHash size key.bytes parts : Trusting ε (FixedBytes size)) =
      pure (Blake2b.keyedHash size key parts) := by
  rw [keyedHash, Blake2b.Key.ofBytes?, dif_pos key.length_le]

theorem write_of_encode {a : Write} {bs : Bytes} (w : HashWriter) (h : a.encode = .ok bs) :
    (write w a : Trusting ε HashWriter) = pure (w.raw bs) := by
  rw [write, HashWriter.write, h]
  rfl

end Library

end Bytewise

end ConfidentialTx
