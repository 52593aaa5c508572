import ConfidentialTx.Text.Decimal
import ConfidentialTx.Text.Quoted

namespace ConfidentialTx

inductive Json
  | null
  | bool (b : Bool)
  | natural (n : Nat)
  | negative (n : Int)
  | float (x : Float)
  | text (s : String)
  | list (items : List Json)
  | object (fields : List (String × Json))

inductive JsonError
  | invalidType (found : Json) (expected : String)
  | invalidValue (found : Json) (expected : String)
  | tooManyItems (count : Nat)
  | custom (message : String)

def Json.describe : Json → String
  | .null => "null"
  | .bool b => "boolean `" ++ (if b then "true" else "false") ++ "`"
  | .natural n => s!"integer `{n}`"
  | .negative n => s!"integer `{n}`"
  | .float x => "floating point `" ++ Text.showFloat x ++ "`"
  | .text s => "string " ++ Text.quote s
  | .list _ => "sequence"
  | .object _ => "map"

namespace JsonError

def message : JsonError → String
  | invalidType found expected => "invalid type: " ++ found.describe ++ ", expected " ++ expected
  | invalidValue found expected => "invalid value: " ++ found.describe ++ ", expected " ++ expected
  | tooManyItems count => s!"invalid length {count}, expected fewer elements in array"
  | custom message => message

end JsonError

end ConfidentialTx
