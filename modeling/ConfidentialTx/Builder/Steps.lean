import ConfidentialTx.Builder.Error
import ConfidentialTx.Transaction.Validate

namespace ConfidentialTx

inductive Step
  | input (value : UInt64) (keyId : Identifier)
  | output (value : UInt64) (keyId : Identifier)
  | withFee (fee : UInt64)
  | withLockHeight (lockHeight : UInt64)
  /-- Replaces the transaction so far, but not the sum. -/
  | initialTx (tx : Transaction)
  /-- Adds a factor that is known already. -/
  | withExcess (blind : BlindingFactor)

structure Draft where
  tx : Transaction
  sum : BlindSum

namespace Draft

def empty : Draft := ⟨.empty, .empty⟩

end Draft

namespace Step

def name : Step → String
  | input .. => "input"
  | output .. => "output"
  | withFee _ => "with_fee"
  | withLockHeight _ => "with_lock_height"
  | initialTx _ => "initial_tx"
  | withExcess _ => "with_excess"

def makeOutput (value : UInt64) (id : Identifier) : Keyed KeychainError Output := do
  let commit ← Keychain.commit value id
  let switchCommitHash ← Keychain.switchCommitHash id
  let proof ← Keychain.rangeProof value id commit []
  return { features := .plain, commit, switchCommitHash, proof }

def append (draft : Draft) : Step → Keyed KeychainError Draft
  | input value id => do
    let commit ← Keychain.commit value id
    return ⟨draft.tx.addInput ⟨commit⟩, draft.sum.subKeyId id⟩
  | output value id => do
    let output ← makeOutput value id
    return ⟨draft.tx.addOutput output, draft.sum.addKeyId id⟩
  | withFee fee => return { draft with tx := { draft.tx with fee } }
  | withLockHeight lockHeight => return { draft with tx := { draft.tx with lockHeight } }
  | initialTx tx => return { draft with tx }
  | withExcess blind => return { draft with sum := draft.sum.addFactor blind }

def appendAll : Draft → List Step → Keyed KeychainError Draft
  | draft, [] => return draft
  | draft, step :: steps => do
    Keyed.log (.stepApplied step.name)
    appendAll (← step.append draft) steps

end Step

namespace Draft

/-- Signs with the net blinding factor, which is returned too. -/
def finish (draft : Draft) : Keyed KeychainError (Transaction × BlindingFactor) := do
  let blind ← Keychain.blindSum draft.sum
  let sig ← Keychain.signWithBlinding draft.tx.message blind
  let tx := draft.tx.withExcessSig sig
  Keyed.log (.transactionBuilt tx.inputs.length tx.outputs.length tx.fee tx.lockHeight)
  return (tx, blind)

end Draft

namespace Transaction

/-- Builds and signs a transaction; the first step that fails ends the build. -/
def build (steps : List Step) : Keyed BuilderError (Transaction × BlindingFactor) :=
  let built : Keyed KeychainError (Transaction × BlindingFactor) := do
    (← Step.appendAll .empty steps).finish
  ExceptT.mk ((built.mapError .keychain).run.bind fun result ↦
    .log (.took "built transaction") (.done result))

end Transaction

end ConfidentialTx
