import ConfidentialTx.Commitment
import ConfidentialTx.Keychain.Identifier

namespace ConfidentialTx

inductive LogLevel
  | trace
  | debug
  | info
  | warn
  | error
  deriving DecidableEq, Repr

namespace LogLevel

def name : LogLevel → String
  | trace => "TRACE"
  | debug => "DEBUG"
  | info => "INFO"
  | warn => "WARN"
  | error => "ERROR"

end LogLevel

inductive LogEvent
  | keychainCreated (id : Identifier) (searchLimit : UInt32)
  | keyDerived (id : Identifier) (index : UInt32)
  | keyFound (id : Identifier) (index : UInt32)
  | keyNotFound (id : Identifier) (searchLimit : UInt32)
  | stepApplied (step : String)
  | transactionBuilt (inputs outputs : Nat) (fee lockHeight : UInt64)
  | proofRejected (commit : Commitment)
  | kernelVerified (excess : Commitment) (inputs outputs : Nat) (fee : UInt64)
  /-- The end of a timed scope. How long it took is left to whoever shows the event. -/
  | took (label : String)
  deriving DecidableEq

namespace LogEvent

def level : LogEvent → LogLevel
  | keychainCreated .. | keyFound .. | transactionBuilt .. | proofRejected .. => .debug
  | keyDerived .. | stepApplied .. | kernelVerified .. | took .. => .trace
  | keyNotFound .. => .warn

def message : LogEvent → String
  | keychainCreated id limit =>
    s!"Created keychain {id.toHex} (key search limit {limit.toNat})"
  | keyDerived id index => s!"Derived key {id.toHex} at index {index.toNat}"
  | keyFound id index => s!"Found key {id.toHex} at index {index.toNat}"
  | keyNotFound id limit => s!"Key {id.toHex} not found (searched {limit.toNat} indices)"
  | stepApplied step => s!"Applying {step} step"
  | transactionBuilt inputs outputs fee lockHeight =>
    s!"Built transaction with {inputs} inputs, {outputs} outputs, fee {fee.toNat}, " ++
      s!"lock height {lockHeight.toNat}"
  | proofRejected commit => s!"Invalid range proof for output {commit.describe}"
  | kernelVerified excess inputs outputs fee =>
    s!"Verified kernel {excess.describe} ({inputs} inputs, {outputs} outputs, fee {fee.toNat})"
  | took label => label ++ ": took "

end LogEvent

@[ext] structure Logged (α : Type) where
  value : α
  events : List LogEvent

namespace Logged

instance : Monad Logged where
  pure a := ⟨a, []⟩
  bind x f := ⟨(f x.value).value, x.events ++ (f x.value).events⟩

def log (event : LogEvent) : Logged Unit := ⟨(), [event]⟩

variable {α β : Type}

@[simp] theorem value_pure (a : α) : (pure a : Logged α).value = a := rfl

@[simp] theorem events_pure (a : α) : (pure a : Logged α).events = [] := rfl

@[simp] theorem value_bind (x : Logged α) (f : α → Logged β) :
    (x >>= f).value = (f x.value).value := rfl

@[simp] theorem events_bind (x : Logged α) (f : α → Logged β) :
    (x >>= f).events = x.events ++ (f x.value).events := rfl

@[simp] theorem value_map (f : α → β) (x : Logged α) : (f <$> x).value = f x.value := rfl

@[simp] theorem value_log (event : LogEvent) : (log event).value = () := rfl

instance : LawfulMonad Logged :=
  LawfulMonad.mk' Logged
    (fun x ↦ by ext1 <;> simp [Functor.map])
    (fun a f ↦ by ext1 <;> simp)
    (fun x f g ↦ by ext1 <;> simp)

end Logged

end ConfidentialTx
