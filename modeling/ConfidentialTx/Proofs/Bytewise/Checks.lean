import Mathlib
import ConfidentialTx.Proofs.Bytewise.Library
import ConfidentialTx.Proofs.Signature

namespace ConfidentialTx

theorem Commitment.exists_toPoint_of_commit {value : UInt64} {key : SecretKey} {c : Commitment}
    (h : commit .commit value key = .ok c) : ∃ p, c.toPoint = .ok p :=
  ⟨_, toPoint_of_isPoint ⟨_, commit_eq_ok_iff.mp h⟩⟩

namespace Bytewise

open Trusting

def secretKeyOfBytes (bs : Bytes) : Except CurveError (FixedBytes 32) :=
  match (FixedBytes.ofList? bs : Option (FixedBytes 32)) with
  | none => .error (.lengthMismatch bs.length 32)
  | some b =>
    if b = FixedBytes.zero ∨ scalarInRange b = false then .error .invalidSecretKey else .ok b

/-- Reads the first coordinate as one of a public key. -/
def checkCommitment (c : Commitment) : Except CurveError Unit :=
  match c.bytes.toList with
  | [] => .error .invalidCommitment
  | head :: x =>
    if head &&& 0xfe ≠ 8 then .error .invalidCommitment
    else
      match PublicKey.ofBytes (2 :: x) with
      | .ok _ => .ok ()
      | .error _ => .error .invalidCommitment

def factorOfBytes (bs : Bytes) : Except KeychainError (FixedBytes 32) :=
  match (FixedBytes.ofList? bs : Option (FixedBytes 32)) with
  | none => .error (.invalidSliceSize bs.length 32)
  | some b => if scalarInRange b then .ok b else .error .invalidSecretKey

def factorSecretKey (b : FixedBytes 32) : Except KeychainError (FixedBytes 32) :=
  (secretKeyOfBytes b.toList).mapError fun _ ↦ .invalidSecretKey

namespace Context

/-- The only sum that the library refuses is zero. -/
def blindSum (positive negative : List (FixedBytes 32)) : Trusting CurveError (FixedBytes 32) :=
  if positive = [] ∧ negative = [] then return FixedBytes.zero
  else ExceptT.mk do
    match ← (Library.blindSum positive negative).run with
    | .error .invalidSecretKey => return .ok FixedBytes.zero
    | r => return r

def commit (cap : Capability) (value : UInt64) (blind : FixedBytes 32) :
    Trusting CurveError Commitment := do
  .ofExcept cap.requireCommit
  Library.commit value blind

def commitValue (cap : Capability) (value : UInt64) : Trusting CurveError Commitment := do
  .ofExcept cap.requireCommit
  if value = 0 then throw .pointAtInfinity else Library.commitValue value

def commitSwitch (cap : Capability) (blind : FixedBytes 32) : Trusting CurveError Commitment := do
  .ofExcept cap.requireCommit
  Library.commitSwitch blind

def commitSum (cap : Capability) (positive negative : List Commitment) :
    Trusting CurveError Commitment := do
  .ofExcept cap.requireCommit
  .ofExcept (forM (positive ++ negative) checkCommitment)
  Library.commitSum positive negative

def balance {ε : Type} (cap : Capability) (positive negative : List Commitment) :
    Trusting ε Bool :=
  if cap = .commit ∧ (positive ++ negative).all fun c ↦ (checkCommitment c).isOk then
    Library.balance positive negative
  else return false

def toPublicKey (c : Commitment) : Trusting CurveError PublicKey :=
  match checkCommitment c with
  | .ok _ => Library.toPublicKey c
  | .error _ => throw .invalidPublicKey

def prove (cap : Capability) (value : UInt64) (blind : FixedBytes 32) (c : Commitment)
    (message : Bytes) : Trusting CurveError RangeProof := do
  .ofExcept cap.requireCommit
  if RangeProof.maxMessageSize < message.length then throw (.proofMessageTooLong message.length)
  if (← commit cap value blind) ≠ c then throw .commitmentMismatch
  Library.prove value blind c message

def verify (cap : Capability) (c : Commitment) (proof : RangeProof) :
    Trusting CurveError ProofRange := do
  .ofExcept cap.requireCommit
  .ofExcept (checkCommitment c)
  .ofExcept (RangeProof.checkSize proof)
  Library.verify c proof

def rewind (cap : Capability) (c : Commitment) (proof : RangeProof) (nonce : FixedBytes 32) :
    Trusting CurveError ProofInfo := do
  .ofExcept cap.requireCommit
  .ofExcept (checkCommitment c)
  .ofExcept (RangeProof.checkSize proof)
  Library.rewind c proof nonce

end Context

theorem toBytes_zero : (0 : Scalar).toBytes = FixedBytes.zero := by
  decide

theorem toBytes_eq_zero_iff {a : Scalar} : a.toBytes = FixedBytes.zero ↔ a = 0 := by
  constructor
  · intro h
    ext
    rw [← Scalar.toNat_toBytes, h, ← toBytes_zero, Scalar.toNat_toBytes]
  · intro h
    rw [h, toBytes_zero]

theorem scalarInRange_toBytes (a : Scalar) : scalarInRange a.toBytes = true := by
  rw [scalarInRange, Scalar.ofBytes?_toBytes]
  rfl

theorem secretKeyOfBytes_eq (bs : Bytes) :
    secretKeyOfBytes bs = (SecretKey.ofBytes bs).map SecretKey.toBytes := by
  unfold secretKeyOfBytes SecretKey.ofBytes
  cases (FixedBytes.ofList? bs : Option (FixedBytes 32)) with
  | none => rfl
  | some b =>
    cases ha : Scalar.ofBytes? b with
    | none => simp only [scalarInRange, ha, Option.isSome_none, or_true, if_true, Option.bind_none,
        Except.map]
    | some a =>
      obtain rfl := Scalar.ofBytes?_eq_some_iff.mp ha
      simp only [ha, Option.bind_some, toBytes_eq_zero_iff, scalarInRange_toBytes,
        Bool.true_eq_false, or_false, SecretKey.ofScalar?]
      by_cases hzero : a = 0
      · rw [if_pos hzero, dif_pos hzero]
        rfl
      · rw [if_neg hzero, dif_neg hzero]
        rfl

theorem factorOfBytes_eq (bs : Bytes) :
    factorOfBytes bs = (BlindingFactor.ofBytes bs).map BlindingFactor.toBytes := by
  unfold factorOfBytes BlindingFactor.ofBytes
  cases (FixedBytes.ofList? bs : Option (FixedBytes 32)) with
  | none => rfl
  | some b =>
    cases ha : Scalar.ofBytes? b with
    | none => simp only [scalarInRange, ha, Option.isSome_none, Bool.false_eq_true, if_false,
        Except.map]
    | some a =>
      obtain rfl := Scalar.ofBytes?_eq_some_iff.mp ha
      simp only [ha, scalarInRange_toBytes, if_true]
      rfl

theorem factorSecretKey_toBytes (b : BlindingFactor) :
    factorSecretKey b.toBytes = b.toSecretKey.map SecretKey.toBytes := by
  rw [factorSecretKey, secretKeyOfBytes_eq, SecretKey.ofBytes, FixedBytes.ofList?_toList]
  simp only [BlindingFactor.toBytes, Scalar.ofBytes?_toBytes, Option.bind_some,
    BlindingFactor.toSecretKey]
  cases SecretKey.ofScalar? b.scalar <;> rfl

theorem and_fe_eq_eight_iff (head : UInt8) : head &&& 0xfe = 8 ↔ head = 8 ∨ head = 9 := by
  revert head
  decide +kernel

theorem checkCommitment_eq (c : Commitment) : checkCommitment c = (fun _ ↦ ()) <$> c.toPoint := by
  unfold checkCommitment Commitment.toPoint Commitment.toPoint?
  have hlength := c.bytes.length_toList
  cases hbytes : c.bytes.toList with
  | nil => rfl
  | cons head x =>
    rw [hbytes, List.length_cons, Nat.add_right_cancel_iff] at hlength
    simp only [ne_eq, and_fe_eq_eight_iff, ite_not]
    by_cases hhead : head = 8 ∨ head = 9
    · rw [if_pos hhead, if_pos hhead]
      simp only [PublicKey.ofBytes, PublicKey.ofCompressed?, hlength, if_true, true_or]
      cases (Field.ofBytes? (.fit x)) with
      | none => rfl
      | some x =>
        simp only [Option.bind_some, Point.ofParityY?, Point.ofSquareY?]
        -- A root serves both, whether a square or an even second coordinate is asked for.
        cases (Point.cubic x).sqrt? <;> rfl
    · rw [if_neg hhead, if_neg hhead]
      rfl

theorem forM_checkCommitment (cs : List Commitment) :
    forM cs checkCommitment = (fun _ ↦ ()) <$> Commitment.points cs := by
  unfold Commitment.points
  induction cs with
  | nil => rfl
  | cons c cs ih =>
    rw [List.forM_cons, List.mapM_cons, checkCommitment_eq, ih]
    cases c.toPoint with
    | error e => rfl
    | ok p => cases cs.mapM Commitment.toPoint <;> rfl

theorem all_checkCommitment (cs : List Commitment) :
    (cs.all fun c ↦ (checkCommitment c).isOk) = (Commitment.points cs).isOk := by
  unfold Commitment.points
  induction cs with
  | nil => rfl
  | cons c cs ih =>
    rw [List.all_cons, List.mapM_cons, checkCommitment_eq, ih]
    cases c.toPoint with
    | error e => rfl
    | ok p => cases cs.mapM Commitment.toPoint <;> rfl

namespace Context

variable {cap : Capability}

theorem blindSum_toBytes (positive negative : List SecretKey) :
    blindSum (positive.map SecretKey.toBytes) (negative.map SecretKey.toBytes) =
      .ofExcept (.ok (SecretKey.blindSum positive negative).toBytes) := by
  unfold blindSum
  simp only [List.map_eq_nil_iff]
  by_cases hnil : positive = [] ∧ negative = []
  · obtain ⟨rfl, rfl⟩ := hnil
    rw [if_pos ⟨rfl, rfl⟩]
    have hzero : SecretKey.blindSum [] [] = 0 := by decide
    rw [hzero, toBytes_zero]
    rfl
  · rw [if_neg hnil]
    simp only [Library.blindSum, Library.mapM_secretKey, pure_bind, SecretKey.ofScalar?]
    by_cases hzero : SecretKey.blindSum positive negative = 0
    · rw [dif_pos hzero, hzero, toBytes_zero]
      rfl
    · rw [dif_neg hzero]
      rfl

theorem commitValue_eq (cap : Capability) (value : UInt64) :
    commitValue cap value = .ofExcept (Commitment.commitValue cap value) := by
  unfold commitValue Commitment.commitValue
  cases cap.requireCommit with
  | error e => rfl
  | ok u =>
    simp only [ofExcept_ok_bind, ok_bind]
    by_cases hzero : value = 0
    · have hinfinity : Point.pedersen 0 0 = .infinity := by
        rw [Point.pedersen_eq, UInt64.toNat_zero, Nat.cast_zero, Residue.toZMod_zero,
          CurveGroup.opening_zero]
        rfl
      rw [if_pos hzero, hzero, hinfinity]
      rfl
    · have hpos : 0 < value.toNat := by
        rw [Nat.pos_iff_ne_zero, ne_eq, ← UInt64.toNat_zero, UInt64.toNat_inj]
        exact hzero
      obtain ⟨c, hc, -⟩ := Commitment.exists_encodes_value hpos value.toNat_lt
      rw [UInt64.ofNat_toNat] at hc
      obtain ⟨u, -, hc⟩ := bind_eq_ok_iff.mp hc
      rw [if_neg hzero, hc, Library.commitValue, Commitment.ofPoint_eq_ok_iff.mp hc]
      rfl

theorem commitSwitch_toBytes (cap : Capability) (key : SecretKey) :
    commitSwitch cap key.toBytes = .ofExcept (Commitment.commitSwitch cap key) := by
  unfold commitSwitch Commitment.commitSwitch
  cases cap.requireCommit with
  | error e => rfl
  | ok u =>
    simp only [ofExcept_ok_bind, ok_bind, Library.commitSwitch, Library.secretKey_toBytes,
      pure_bind]
    cases hpoint : Generator.switch.mul key.scalar with
    | affine x y => rfl
    | infinity =>
      rw [← CurveGroup.ofGroup_switch, Point.mul_eq_smul] at hpoint
      exact absurd (Point.ofGroup_eq_zero.mp hpoint) key.smul_switch_ne_zero

theorem commitSum_eq (cap : Capability) (positive negative : List Commitment) :
    commitSum cap positive negative = .ofExcept (Commitment.sum cap positive negative) := by
  unfold commitSum Commitment.sum
  cases cap.requireCommit with
  | error e => rfl
  | ok u =>
    simp only [ofExcept_ok_bind, ok_bind, List.forM_append, forM_checkCommitment]
    cases hplus : Commitment.points positive with
    | error e => rfl
    | ok plus =>
      cases hminus : Commitment.points negative with
      | error e => rfl
      | ok minus =>
        simp only [Library.commitSum, Library.mapM_point hplus, Library.mapM_point hminus]
        rfl

theorem balance_eq {ε : Type} (cap : Capability) (positive negative : List Commitment) :
    (balance cap positive negative : Trusting ε Bool) =
      .ofExcept (.ok (Commitment.balance cap positive negative)) := by
  unfold balance Commitment.balance
  rw [List.all_append, all_checkCommitment, all_checkCommitment]
  by_cases hcap : cap = .commit
  · cases hplus : Commitment.points positive with
    | error e => simp [hcap, Except.isOk, Except.toBool, pure_eq]
    | ok plus =>
      cases hminus : Commitment.points negative with
      | error e => simp [hcap, Except.isOk, Except.toBool, pure_eq]
      | ok minus =>
        simp [hcap, Except.isOk, Except.toBool, Library.balance, Library.mapM_point hplus,
          Library.mapM_point hminus, pure_eq]
  · simp [hcap, pure_eq]

theorem toPublicKey_eq (c : Commitment) : toPublicKey c = .ofExcept c.toPublicKey := by
  unfold toPublicKey
  rw [checkCommitment_eq, Commitment.toPoint]
  cases hpoint : c.toPoint? with
  | some p =>
    have hread := Commitment.toPoint_eq_ok_iff.mpr hpoint
    change Library.toPublicKey c = _
    rw [Library.toPublicKey, Library.point_of_toPoint hread, pure_bind]
  | none =>
    rw [Commitment.toPublicKey, hpoint]
    rfl

theorem verify_eq (cap : Capability) (c : Commitment) (proof : RangeProof) :
    verify cap c proof = .ofExcept (RangeProof.verify cap c proof) := by
  by_cases hcap : cap = .commit
  · subst hcap
    unfold verify
    cases hpoint : c.toPoint with
    | error e => simp only [checkCommitment_eq, RangeProof.verify, hpoint]; rfl
    | ok p =>
      cases hsize : RangeProof.checkSize proof with
      | error e => simp only [checkCommitment_eq, RangeProof.verify, hpoint, hsize]; rfl
      | ok u =>
        simp only [checkCommitment_eq, hpoint, Library.verify, Library.point_of_toPoint hpoint,
          Library.proofSize_of_checkSize hsize]
        rfl
  · simp only [verify, RangeProof.verify, Capability.requireCommit_of_ne hcap]
    rfl

theorem rewind_toBytes (cap : Capability) (c : Commitment) (proof : RangeProof) (key : SecretKey) :
    rewind cap c proof key.toBytes = .ofExcept (RangeProof.rewind cap c proof key) := by
  by_cases hcap : cap = .commit
  · subst hcap
    unfold rewind
    cases hpoint : c.toPoint with
    | error e => simp only [checkCommitment_eq, RangeProof.rewind, hpoint]; rfl
    | ok p =>
      cases hsize : RangeProof.checkSize proof with
      | error e => simp only [checkCommitment_eq, RangeProof.rewind, hpoint, hsize]; rfl
      | ok u =>
        simp only [checkCommitment_eq, hpoint, Library.rewind, Library.point_of_toPoint hpoint,
          Library.proofSize_of_checkSize hsize, Library.secretKey_toBytes]
        rfl
  · simp only [rewind, RangeProof.rewind, Capability.requireCommit_of_ne hcap]
    rfl

theorem commit_toBytes (cap : Capability) (value : UInt64) (key : SecretKey) :
    commit cap value key.toBytes = .ofExcept (Commitment.commit cap value key) ∨
    Point.pedersen value key.scalar = .infinity ∧
      commit cap value key.toBytes = Trusting.abort (.identity value key.toBytes) := by
  unfold commit Commitment.commit
  cases cap.requireCommit with
  | error e => exact .inl rfl
  | ok u =>
    simp only [ofExcept_ok_bind, ok_bind, Library.commit, Library.secretKey_toBytes, pure_bind]
    cases hpoint : Point.pedersen value key.scalar with
    | affine x y => exact .inl rfl
    | infinity => exact .inr ⟨rfl, rfl⟩

theorem prove_toBytes (cap : Capability) (value : UInt64) (key : SecretKey) (c : Commitment)
    (message : Bytes) :
    prove cap value key.toBytes c message = .ofExcept (RangeProof.prove cap value key c message) ∨
    Point.pedersen value key.scalar = .infinity ∧
      prove cap value key.toBytes c message = Trusting.abort (.identity value key.toBytes) := by
  unfold prove RangeProof.prove
  by_cases hcap : cap = .commit
  · subst hcap
    rw [Capability.requireCommit_commit, ofExcept_ok_bind, ok_bind]
    by_cases hlong : RangeProof.maxMessageSize < message.length
    · rw [if_pos hlong, if_pos hlong]
      exact .inl rfl
    · rw [if_neg hlong, if_neg hlong]
      rcases commit_toBytes .commit value key with hcommit | ⟨hinfinity, habort⟩
      · refine .inl ?_
        rw [hcommit]
        cases hfound : Commitment.commit .commit value key with
        | error e => rfl
        | ok found =>
          by_cases hsame : found = c
          · subst hsame
            obtain ⟨p, hp⟩ := Commitment.exists_toPoint_of_commit hfound
            simp only [ofExcept_ok_bind, ok_bind, ne_eq, not_true_eq_false, if_false, Library.prove,
              Library.secretKey_toBytes, Library.point_of_toPoint hp, pure_bind, if_neg hlong]
            cases RangeProof.sign .full value.toNat (.pedersen value key.scalar) key key message <;>
              rfl
          · simp only [ofExcept_ok_bind, ok_bind, ne_eq, hsame, not_false_eq_true, if_true]
            rfl
      · refine .inr ⟨hinfinity, ?_⟩
        rw [habort]
        rfl
  · rw [Capability.requireCommit_of_ne hcap]
    exact .inl rfl

end Context

end Bytewise

end ConfidentialTx
