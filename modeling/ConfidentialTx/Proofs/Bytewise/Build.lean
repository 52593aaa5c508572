import Mathlib
import ConfidentialTx.Builder.Steps
import ConfidentialTx.Proofs.Bytewise.Operations

namespace ConfidentialTx.Bytewise

inductive BuildStep (φ : Type)
  | input (value : UInt64) (keyId : Identifier)
  | output (value : UInt64) (keyId : Identifier)
  | withFee (fee : UInt64)
  | withLockHeight (lockHeight : UInt64)
  | initialTx (tx : Transaction)
  | withExcess (blind : φ)

namespace BuildStep

variable {φ ψ : Type}

def of : Step → BuildStep (FixedBytes 32)
  | .input value id => input value id
  | .output value id => output value id
  | .withFee fee => withFee fee
  | .withLockHeight lockHeight => withLockHeight lockHeight
  | .initialTx tx => initialTx tx
  | .withExcess blind => withExcess blind.toBytes

def toStep (value : φ → BlindingFactor) : BuildStep φ → Step
  | input value id => .input value id
  | output value id => .output value id
  | withFee fee => .withFee fee
  | withLockHeight lockHeight => .withLockHeight lockHeight
  | initialTx tx => .initialTx tx
  | withExcess blind => .withExcess (value blind)

def map (f : φ → ψ) : BuildStep φ → BuildStep ψ
  | input value id => input value id
  | output value id => output value id
  | withFee fee => withFee fee
  | withLockHeight lockHeight => withLockHeight lockHeight
  | initialTx tx => initialTx tx
  | withExcess blind => withExcess (f blind)

theorem of_toStep (value : φ → BlindingFactor) (step : BuildStep φ) :
    of (step.toStep value) = step.map fun b ↦ (value b).toBytes := by
  cases step <;> rfl

end BuildStep

structure Progress where
  tx : Transaction
  sum : Blinds (FixedBytes 32)

namespace Progress

def of (draft : Draft) : Progress := ⟨draft.tx, .of draft.sum⟩

end Progress

namespace Root

def makeOutput (root : Root) (value : UInt64) (id : Identifier) :
    Stateful KeychainError Output := do
  let commit ← root.commit value id
  let switchCommitHash ← root.switchCommitHash id
  let proof ← root.rangeProof value id commit []
  return { features := .plain, commit, switchCommitHash, proof }

def append (root : Root) (p : Progress) :
    BuildStep (FixedBytes 32) → Stateful KeychainError Progress
  | .input value id => do
    let commit ← root.commit value id
    return ⟨p.tx.addInput ⟨commit⟩, p.sum.subKeyId id⟩
  | .output value id => do
    let output ← root.makeOutput value id
    return ⟨p.tx.addOutput output, p.sum.addKeyId id⟩
  | .withFee fee => return { p with tx := { p.tx with fee } }
  | .withLockHeight lockHeight => return { p with tx := { p.tx with lockHeight } }
  | .initialTx tx => return { p with tx }
  | .withExcess blind => return { p with sum := p.sum.addFactor blind }

def appendAll (root : Root) :
    Progress → List (BuildStep (FixedBytes 32)) → Stateful KeychainError Progress
  | p, [] => return p
  | p, step :: steps => do root.appendAll (← root.append p step) steps

def finish (root : Root) (p : Progress) :
    Stateful KeychainError (Transaction × FixedBytes 32) := do
  let blind ← root.blindSum p.sum
  let sig ← signWithBlinding p.tx.message blind
  return ({ p.tx with excessSig := sig }, blind)

def build (root : Root) (steps : List (BuildStep (FixedBytes 32))) :
    Stateful BuilderError (Transaction × FixedBytes 32) :=
  (do root.finish (← root.appendAll (.of .empty) steps)).mapError .keychain

def recoverValue (root : Root) (id : Identifier) (o : Output) :
    Stateful TransactionError (Option UInt64) := do
  let info ← (root.rewindRangeProof id o.commit o.proof).mapError .keychain
  return if info.success then some info.value else none

end Root

namespace Follows

variable {ε α β : Type} {rep : α → β}

theorem makeOutput (root : KeyRoot) (value : UInt64) (keyId : Identifier) :
    Follows root id (Step.makeOutput value keyId) ((Root.of root).makeOutput value keyId) := by
  refine (commit root value keyId).bind fun c ↦ ?_
  refine (switchCommitHash root keyId).bind fun hash ↦ ?_
  exact (rangeProof root value keyId c []).bind fun proof ↦ pure rfl

theorem append (root : KeyRoot) (draft : Draft) (step : Step) :
    Follows root .of (step.append draft) ((Root.of root).append (.of draft) (.of step)) := by
  cases step with
  | input value keyId => exact (commit root value keyId).bind fun c ↦ pure rfl
  | output value keyId => exact (makeOutput root value keyId).bind fun output ↦ pure rfl
  | withFee fee => exact pure rfl
  | withLockHeight lockHeight => exact pure rfl
  | initialTx tx => exact pure rfl
  | withExcess blind =>
    apply pure
    rw [Progress.of, Blinds.of_addFactor]
    rfl

theorem appendAll (root : KeyRoot) (draft : Draft) (steps : List Step) :
    Follows root .of (Step.appendAll draft steps)
      ((Root.of root).appendAll (.of draft) (steps.map .of)) := by
  induction steps generalizing draft with
  | nil => exact pure rfl
  | cons step steps ih => exact log_bind ((append root draft step).bind fun next ↦ ih next)

theorem finish (root : KeyRoot) (draft : Draft) :
    Follows root (fun r ↦ (r.1, r.2.toBytes)) draft.finish ((Root.of root).finish (.of draft)) := by
  refine (blindSum root draft.sum).bind fun blind ↦ ?_
  exact (signWithBlinding root draft.tx.message blind).bind fun sig ↦ log_bind (pure rfl)

theorem build (root : KeyRoot) (steps : List Step) :
    Follows root (fun r ↦ (r.1, r.2.toBytes)) (Transaction.build steps)
      ((Root.of root).build (steps.map .of)) := by
  apply then_log
  apply mapError
  exact (appendAll root .empty steps).bind fun draft ↦ finish root draft

theorem recoverValue (root : KeyRoot) (keyId : Identifier) (o : Output) :
    Follows root id (o.recoverValue keyId) ((Root.of root).recoverValue keyId o) :=
  ((rewindRangeProof root keyId o.commit o.proof).mapError _).bind fun _ ↦ pure rfl

end Follows

end ConfidentialTx.Bytewise
