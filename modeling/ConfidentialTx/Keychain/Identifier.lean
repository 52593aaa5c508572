import ConfidentialTx.Hash.Content

namespace ConfidentialTx

@[ext] structure Identifier where
  bytes : FixedBytes 10
  deriving DecidableEq

namespace Identifier

def zero : Identifier := ⟨FixedBytes.zero⟩

def ofBytes (bs : Bytes) : Identifier :=
  ⟨FixedBytes.fit bs⟩

def ofPublicKey (compressed : FixedBytes 33) : Identifier :=
  ⟨Blake2b.hash 10 [compressed.toList]⟩

def ofHex (s : String) : Except HexError Identifier :=
  (Hex.decode s).map ofBytes

def toHex (id : Identifier) : String :=
  id.bytes.toHex

def describe (id : Identifier) : String :=
  "Identifier(" ++ id.toHex ++ ")"

instance : Canonical Identifier := ⟨fun id ↦ id.bytes.toList⟩

end Identifier

end ConfidentialTx
