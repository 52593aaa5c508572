import ConfidentialTx.Keychain.Operations
import ConfidentialTx.Transaction.Basic
import ConfidentialTx.Transaction.Error

namespace ConfidentialTx

abbrev Checked := ExceptT TransactionError Logged

namespace Checked

variable {α : Type}

def ofExcept (r : Except TransactionError α) : Checked α :=
  ExceptT.mk (pure r)

def ofCurve (r : Except CurveError α) : Checked α :=
  ofExcept (r.mapError .ofCurve)

def log (event : LogEvent) : Checked Unit :=
  ExceptT.mk (.ok <$> Logged.log event)

end Checked

/-- Commitments to spend and to create, proofs, and a value in the clear that leaves, or enters when
it is negative. -/
structure Committed where
  inputs : List Commitment
  outputs : List Commitment
  proofs : List (Commitment × RangeProof)
  overage : Int

namespace Committed

def checkProofs (cap : Capability) : List (Commitment × RangeProof) → Checked Unit
  | [] => return ()
  | (c, proof) :: rest =>
    match RangeProof.verify cap c proof with
    | .ok _ => checkProofs cap rest
    | .error _ => do
      Checked.log (.proofRejected c)
      throw .invalidRangeProof

/-- The outputs and inputs with a commitment to the overage on the side that it belongs to. -/
def sides (cap : Capability) (s : Committed) :
    Except TransactionError (List Commitment × List Commitment) :=
  if s.overage = 0 then .ok (s.outputs, s.inputs)
  else if UInt64.size ≤ s.overage.natAbs then .error (.overageTooLarge s.overage)
  else
    match Commitment.commitValue cap (UInt64.ofNat s.overage.natAbs) with
    | .error e => .error (.ofCurve e)
    | .ok c =>
      if 0 < s.overage then .ok (s.outputs ++ [c], s.inputs) else .ok (s.outputs, s.inputs ++ [c])

def sum (cap : Capability) (s : Committed) : Checked Commitment := do
  checkProofs cap s.proofs
  let (outputs, inputs) ← Checked.ofExcept (s.sides cap)
  Checked.ofCurve (Commitment.sum cap outputs inputs)

end Committed

namespace Output

def verifyProof (cap : Capability) (o : Output) : Except TransactionError Unit :=
  match RangeProof.verify cap o.commit o.proof with
  | .ok _ => .ok ()
  | .error _ => .error .invalidRangeProof

/-- The value, if the proof was made with the key that the identifier names. -/
def recoverValue (id : Identifier) (o : Output) : Keyed TransactionError (Option UInt64) := do
  let info ← (Keychain.rewindRangeProof id o.commit o.proof).mapError .keychain
  return if info.success then some info.value else none

end Output

namespace Kernel

def verify (cap : Capability) (k : Kernel) : Except TransactionError Unit :=
  let checked : Except CurveError Unit := do
    let key ← k.excess.toPublicKey
    let sig ← Signature.ofCompact k.excessSig
    Signature.verify cap k.message sig key
  checked.mapError .ofCurve

end Kernel

namespace Transaction

def overage (tx : Transaction) : Int :=
  tx.fee.toNat

def committed (tx : Transaction) : Committed where
  inputs := tx.inputs.map (·.commit)
  outputs := tx.outputs.map (·.commit)
  proofs := tx.outputs.map fun o ↦ (o.commit, o.proof)
  overage := tx.overage

/-- The kernel that the transaction reduces to, if its proofs and its signature hold. -/
def verifySig (cap : Capability) (tx : Transaction) : Checked Kernel := do
  let excess ← tx.committed.sum cap
  let kernel : Kernel := ⟨excess, tx.excessSig, tx.fee, tx.lockHeight⟩
  Checked.ofExcept (kernel.verify cap)
  Checked.log (.kernelVerified excess tx.inputs.length tx.outputs.length tx.fee)
  return kernel

def validate (cap : Capability) (tx : Transaction) : Checked Kernel :=
  if tx.excessSig = [] then throw .missingSignature else tx.verifySig cap

end Transaction

end ConfidentialTx
