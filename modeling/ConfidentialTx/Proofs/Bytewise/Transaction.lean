import Mathlib
import ConfidentialTx.Proofs.Bytewise.Operations
import ConfidentialTx.Proofs.Transaction.Content

namespace ConfidentialTx

theorem Bytes.bigEndian_mod (count n : Nat) :
    bigEndian count (n % 256 ^ count) = bigEndian count n := by
  apply toNat_injective
  · rw [length_bigEndian, length_bigEndian]
  · rw [toNat_bigEndian, toNat_bigEndian, Nat.pow_eq, Nat.mod_mod]

def Input.writes (i : Input) : List Write :=
  [.fixed 33 i.commit.bytes.toList]

def Output.writes (o : Output) : List Write :=
  [.u8 o.features.code, .fixed 33 o.commit.bytes.toList, .fixed 20 o.switchCommitHash.bytes.toList]

def Kernel.writes (k : Kernel) : List Write :=
  [.u64 k.fee, .u64 k.lockHeight, .fixed 33 k.excess.bytes.toList, .bytes k.excessSig]

def Write.list {α : Type} (writes : α → List Write) (items : List α) : List Write :=
  .u64 (.ofNat items.length) :: items.flatMap writes

def Transaction.writes (tx : Transaction) : List Write :=
  [.u64 tx.fee, .u64 tx.lockHeight, .bytes tx.excessSig] ++ Write.list Input.writes tx.inputs ++
    Write.list Output.writes tx.outputs

def ContentType.writes : (t : ContentType) → t.Object → List Write
  | u32 => fun n : UInt32 ↦ [.u32 n]
  | u64 => fun n : UInt64 ↦ [.u64 n]
  | hash => fun h : ContentHash ↦ [.fixed 32 h.bytes.toList]
  | identifier => fun id : Identifier ↦ [.fixed 10 id.bytes.toList]
  | switchCommitHash => fun h : SwitchCommitHash ↦ [.fixed 20 h.bytes.toList]
  | features => fun f : OutputFeatures ↦ [.u8 f.code]
  | input => Input.writes
  | output => Output.writes
  | kernel => Kernel.writes
  | transaction => Transaction.writes
  | list item => Write.list item.writes

namespace Bytewise

def Written (ws : List Write) (bs : Bytes) : Prop :=
  ∃ parts, ws.mapM Write.encode = .ok parts ∧ parts.flatten = bs

namespace Written

theorem nil : Written [] [] := ⟨[], rfl, rfl⟩

theorem cons {w : Write} {ws : List Write} {head bs : Bytes} (hw : w.encode = .ok head)
    (h : Written ws bs) : Written (w :: ws) (head ++ bs) := by
  obtain ⟨parts, hparts, rfl⟩ := h
  refine ⟨head :: parts, ?_, rfl⟩
  rw [List.mapM_cons, hw, hparts]
  rfl

theorem append {ws others : List Write} {bs more : Bytes} (h : Written ws bs)
    (h' : Written others more) : Written (ws ++ others) (bs ++ more) := by
  obtain ⟨parts, hparts, rfl⟩ := h
  obtain ⟨parts', hparts', rfl⟩ := h'
  refine ⟨parts ++ parts', ?_, List.flatten_append⟩
  rw [List.mapM_append, hparts, hparts']
  rfl

theorem one {w : Write} {bs : Bytes} (hw : w.encode = .ok bs) : Written [w] bs := by
  have h := cons hw nil
  rwa [List.append_nil] at h

theorem encode_fixed {size : Nat} (b : FixedBytes size) :
    (Write.fixed size b.toList).encode = .ok b.toList :=
  if_pos b.length_toList

theorem encode_length (n : Nat) : (Write.u64 (.ofNat n)).encode = .ok (Bytes.bigEndian 8 n) := by
  rw [Write.encode, UInt64.toNat_ofNat']
  exact congrArg Except.ok (Bytes.bigEndian_mod 8 n)

theorem list {α : Type} [Canonical α] {writes : α → List Write}
    (h : ∀ a, Written (writes a) (encode a)) (items : List α) :
    Written (Write.list writes items) (encode items) := by
  refine cons (encode_length _) ?_
  induction items with
  | nil => exact nil
  | cons a items ih => exact (h a).append ih

theorem input (i : Input) : Written i.writes (encode i) := one (encode_fixed i.commit.bytes)

theorem output (o : Output) : Written o.writes (encode o) := by
  have h : Written o.writes ([o.features.code] ++
      (o.commit.bytes.toList ++ o.switchCommitHash.bytes.toList)) :=
    cons rfl (cons (encode_fixed _) (one (encode_fixed _)))
  rwa [← List.append_assoc] at h

theorem kernel (k : Kernel) : Written k.writes (encode k) := by
  have h : Written k.writes (encode k.fee ++ (encode k.lockHeight ++ (k.excess.bytes.toList ++
      Canonical.sized k.excessSig))) :=
    cons rfl (cons rfl (cons (encode_fixed _) (one rfl)))
  rwa [← List.append_assoc, ← List.append_assoc] at h

theorem transaction (tx : Transaction) : Written tx.writes (encode tx) := by
  have h : Written [.u64 tx.fee, .u64 tx.lockHeight, .bytes tx.excessSig]
      (encode tx.fee ++ (encode tx.lockHeight ++ Canonical.sized tx.excessSig)) :=
    cons rfl (cons rfl (one rfl))
  rw [← List.append_assoc] at h
  exact (h.append (list input tx.inputs)).append (list output tx.outputs)

theorem object (t : ContentType) (a : t.Object) : Written (t.writes a) (encode a) := by
  induction t with
  | u32 => exact one rfl
  | u64 => exact one rfl
  | hash => exact one (encode_fixed _)
  | identifier => exact one (encode_fixed _)
  | switchCommitHash => exact one (encode_fixed _)
  | features => exact one rfl
  | input => exact input a
  | output => exact output a
  | kernel => exact kernel a
  | transaction => exact transaction a
  | list item ih => exact @list item.Object item.canonical item.writes ih a

end Written

def hash {ε : Type} (ws : List Write) : Trusting ε ContentHash := do
  let w ← ws.foldlM Library.write HashWriter.empty
  return w.finish

theorem foldlM_write {ε : Type} {ws : List Write} {parts : List Bytes}
    (h : ws.mapM Write.encode = .ok parts) (w : HashWriter) :
    (ws.foldlM Library.write w : Trusting ε HashWriter) = pure (parts.foldl HashWriter.raw w) := by
  induction ws generalizing parts w with
  | nil =>
    cases h
    rfl
  | cons a ws ih =>
    rw [List.mapM_cons] at h
    obtain ⟨bs, hbs, h⟩ := bind_eq_ok_iff.mp h
    obtain ⟨rest, hrest, h⟩ := bind_eq_ok_iff.mp h
    cases h
    rw [List.foldlM_cons, Library.write_of_encode w hbs, pure_bind, ih hrest]
    rfl

theorem foldl_raw (parts : List Bytes) (w : HashWriter) :
    parts.foldl HashWriter.raw w = w.raw parts.flatten := by
  induction parts generalizing w with
  | nil => rfl
  | cons bs parts ih =>
    rw [List.foldl_cons, ih, List.flatten_cons, HashWriter.raw, HashWriter.raw, HashWriter.raw,
      Blake2b.Hasher.update_append]

theorem hash_of_written {ε : Type} {ws : List Write} {bs : Bytes} (h : Written ws bs) :
    (hash ws : Trusting ε ContentHash) = .ofExcept (.ok (HashWriter.empty.raw bs).finish) := by
  obtain ⟨parts, hparts, rfl⟩ := h
  rw [hash, foldlM_write hparts, foldl_raw]
  rfl

def verifyProof (cap : Capability) (o : Output) : Trusting TransactionError Unit :=
  ExceptT.mk do
    match ← (Context.verify cap o.commit o.proof).run with
    | .ok _ => return .ok ()
    | .error _ => return .error .invalidRangeProof

theorem verifyProof_eq (cap : Capability) (o : Output) :
    verifyProof cap o = .ofExcept (o.verifyProof cap) := by
  unfold verifyProof Output.verifyProof
  rw [Context.verify_eq]
  cases RangeProof.verify cap o.commit o.proof <;> rfl

def verifyKernel (cap : Capability) (k : Kernel) : Trusting TransactionError Unit :=
  let checked : Trusting CurveError Unit := do
    let key ← Context.toPublicKey k.excess
    let sig ← .ofExcept (Signature.ofCompact k.excessSig)
    .ofExcept (Signature.verify cap k.message sig key)
  checked.mapError .ofCurve

theorem verifyKernel_eq (cap : Capability) (k : Kernel) :
    verifyKernel cap k = .ofExcept (k.verify cap) := by
  unfold verifyKernel Kernel.verify
  rw [Context.toPublicKey_eq]
  cases k.excess.toPublicKey with
  | error e => rfl
  | ok key => cases Signature.ofCompact k.excessSig <;> rfl

def checkProofs (cap : Capability) :
    List (Commitment × RangeProof) → Trusting TransactionError Unit
  | [] => return ()
  | (c, proof) :: rest => ExceptT.mk do
    match ← (Context.verify cap c proof).run with
    | .ok _ => (checkProofs cap rest).run
    | .error _ => return .error .invalidRangeProof

theorem checkProofs_eq (cap : Capability) (proofs : List (Commitment × RangeProof)) :
    checkProofs cap proofs = .ofExcept (Committed.checkProofs cap proofs).result := by
  induction proofs with
  | nil => rfl
  | cons entry rest ih =>
    obtain ⟨c, proof⟩ := entry
    unfold checkProofs Committed.checkProofs
    rw [Context.verify_eq, ih]
    cases RangeProof.verify cap c proof <;> rfl

def sides (cap : Capability) (s : Committed) :
    Trusting TransactionError (List Commitment × List Commitment) := do
  if s.overage = 0 then return (s.outputs, s.inputs)
  else if UInt64.size ≤ s.overage.natAbs then throw (.overageTooLarge s.overage)
  else
    let c ← (Context.commitValue cap (UInt64.ofNat s.overage.natAbs)).mapError .ofCurve
    if 0 < s.overage then return (s.outputs ++ [c], s.inputs)
    else return (s.outputs, s.inputs ++ [c])

theorem sides_eq (cap : Capability) (s : Committed) : sides cap s = .ofExcept (s.sides cap) := by
  unfold sides Committed.sides
  by_cases hzero : s.overage = 0
  · rw [if_pos hzero, if_pos hzero]
    rfl
  rw [if_neg hzero, if_neg hzero]
  by_cases hlarge : UInt64.size ≤ s.overage.natAbs
  · rw [if_pos hlarge, if_pos hlarge]
    rfl
  rw [if_neg hlarge, if_neg hlarge, Context.commitValue_eq]
  cases Commitment.commitValue cap (UInt64.ofNat s.overage.natAbs) with
  | error e => rfl
  | ok c => by_cases hpos : 0 < s.overage <;> simp [hpos] <;> rfl

def sumCommitments (cap : Capability) (s : Committed) : Trusting TransactionError Commitment := do
  checkProofs cap s.proofs
  let (outputs, inputs) ← sides cap s
  (Context.commitSum cap outputs inputs).mapError .ofCurve

theorem sumCommitments_eq (cap : Capability) (s : Committed) :
    sumCommitments cap s = .ofExcept (s.sum cap).result := by
  unfold sumCommitments Committed.sum
  rw [checkProofs_eq, sides_eq, Checked.result_bind, Trusting.ofExcept_bind]
  congr
  funext u
  rw [Checked.result_bind, Trusting.ofExcept_bind]
  congr
  funext sides
  obtain ⟨outputs, inputs⟩ := sides
  simp only [Context.commitSum_eq]
  rfl

def verifySig (cap : Capability) (tx : Transaction) : Trusting TransactionError Kernel := do
  let excess ← sumCommitments cap tx.committed
  let kernel : Kernel := ⟨excess, tx.excessSig, tx.fee, tx.lockHeight⟩
  verifyKernel cap kernel
  return kernel

theorem verifySig_eq (cap : Capability) (tx : Transaction) :
    verifySig cap tx = .ofExcept (tx.verifySig cap).result := by
  unfold verifySig Transaction.verifySig
  rw [sumCommitments_eq, Checked.result_bind, Trusting.ofExcept_bind]
  congr
  funext excess
  simp only [verifyKernel_eq, Checked.result_bind, Trusting.ofExcept_bind]
  rfl

def validate (cap : Capability) (tx : Transaction) : Trusting TransactionError Kernel :=
  if tx.excessSig = [] then throw .missingSignature else verifySig cap tx

theorem validate_eq (cap : Capability) (tx : Transaction) :
    validate cap tx = .ofExcept (tx.validate cap).result := by
  unfold validate Transaction.validate
  by_cases hunsigned : tx.excessSig = []
  · rw [if_pos hunsigned, if_pos hunsigned]
    rfl
  · rw [if_neg hunsigned, if_neg hunsigned, verifySig_eq]

end Bytewise

end ConfidentialTx
