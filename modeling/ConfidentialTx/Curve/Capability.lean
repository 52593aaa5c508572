import ConfidentialTx.Curve.Error

namespace ConfidentialTx

inductive Capability
  | none
  | signOnly
  | verifyOnly
  | full
  | commit
  deriving DecidableEq, Repr

namespace Capability

def name : Capability → String
  | none => "None"
  | signOnly => "SignOnly"
  | verifyOnly => "VerifyOnly"
  | full => "Full"
  | commit => "Commit"

def describe (cap : Capability) : String :=
  "Secp256k1 \x7b caps: " ++ cap.name ++ " \x7d"

def canSign : Capability → Bool
  | signOnly | full | commit => true
  | none | verifyOnly => false

def canVerify : Capability → Bool
  | verifyOnly | full | commit => true
  | none | signOnly => false

def require (allowed : Bool) : Except CurveError Unit :=
  if allowed then .ok () else .error .incapableContext

def requireSign (cap : Capability) : Except CurveError Unit :=
  require cap.canSign

def requireVerify (cap : Capability) : Except CurveError Unit :=
  require cap.canVerify

def requireCommit (cap : Capability) : Except CurveError Unit :=
  require (cap = commit)

end Capability

end ConfidentialTx
