import ConfidentialTx.Commitment
import ConfidentialTx.Keychain.Error

namespace ConfidentialTx

structure SwitchCommitHash where
  bytes : FixedBytes 20
  deriving DecidableEq

namespace SwitchCommitHash

def zero : SwitchCommitHash := ⟨FixedBytes.zero⟩

def keyTag : Blake2b.Key :=
  ⟨"mw_switch_commit_key".toUTF8.data.toList, by decide⟩

def ofCommitment (c : Commitment) (secret : FixedBytes 32) : SwitchCommitHash :=
  let key := Blake2b.keyedHash 32 keyTag [secret.toList]
  ⟨Blake2b.keyedHash 20 (.ofFixed key) [c.bytes.toList]⟩

def ofBytes (bs : Bytes) : Except KeychainError SwitchCommitHash :=
  match FixedBytes.ofList? bs with
  | some b => .ok ⟨b⟩
  | none => .error (.invalidSliceSize bs.length 20)

def toHex (h : SwitchCommitHash) : String :=
  h.bytes.toHex

def describe (h : SwitchCommitHash) : String :=
  "SwitchCommitHash(" ++ h.toHex ++ ")"

instance : Canonical SwitchCommitHash := ⟨fun h ↦ h.bytes.toList⟩

end SwitchCommitHash

end ConfidentialTx
