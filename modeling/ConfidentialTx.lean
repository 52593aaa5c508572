import ConfidentialTx.Hex
import ConfidentialTx.Hash.Blake2b
import ConfidentialTx.Hash.NonceGenerator
import ConfidentialTx.Curve.Jacobian
import ConfidentialTx.Commitment
import ConfidentialTx.Signature
import ConfidentialTx.RangeProof.Rewind
import ConfidentialTx.Keychain.ExtendedKey
import ConfidentialTx.Keychain.SwitchCommitHash
import ConfidentialTx.Keychain.Config
import ConfidentialTx.Log
import ConfidentialTx.Builder.Steps
import ConfidentialTx.Json.Reader
import ConfidentialTx.Json.Printer
import ConfidentialTx.Proofs.Results
import ConfidentialTx.Proofs.Hash.Content
import ConfidentialTx.Proofs.Transaction.Content
import ConfidentialTx.Proofs.Curve.Residue
import ConfidentialTx.Proofs.Curve.Prime
import ConfidentialTx.Proofs.Curve.Square
import ConfidentialTx.Proofs.Curve.Group
import ConfidentialTx.Proofs.Curve.Multiple
import ConfidentialTx.Proofs.Curve.Order
import ConfidentialTx.Proofs.Commitment.Encoding
import ConfidentialTx.Proofs.Commitment.Sum
import ConfidentialTx.Proofs.Signature
import ConfidentialTx.Proofs.RangeProof.Layout
import ConfidentialTx.Proofs.RangeProof.Ring
import ConfidentialTx.Proofs.RangeProof.Digits
import ConfidentialTx.Proofs.RangeProof.Complete
import ConfidentialTx.Proofs.Commitment.Opening
import ConfidentialTx.Proofs.Commitment.Homomorphic
import ConfidentialTx.Proofs.Transaction.Balance
import ConfidentialTx.Proofs.Transaction.Validity
import ConfidentialTx.Proofs.Transaction.CutThrough
import ConfidentialTx.Proofs.Keychain.Cache
import ConfidentialTx.Proofs.Keychain.Program
import ConfidentialTx.Proofs.Keychain.Blinding
import ConfidentialTx.Proofs.Builder.Steps
import ConfidentialTx.Proofs.Builder.Continue
import ConfidentialTx.Proofs.Builder.Balance
import ConfidentialTx.Proofs.Keychain.Session
import ConfidentialTx.Proofs.Keychain.Replay
import ConfidentialTx.Proofs.RangeProof.Rewind
import ConfidentialTx.Proofs.RangeProof.Hidden
import ConfidentialTx.Proofs.RangeProof.Recover
import ConfidentialTx.Proofs.Builder.Recover
import ConfidentialTx.Proofs.Builder.Restore
import ConfidentialTx.Proofs.RangeProof.Exact
import ConfidentialTx.Proofs.Signature.Uniqueness
import ConfidentialTx.Proofs.Signature.Completeness
import ConfidentialTx.Proofs.Keychain.Signing
import ConfidentialTx.Proofs.RangeProof.Prefix
import ConfidentialTx.Proofs.Transaction.Equality
import ConfidentialTx.Proofs.Bytewise.Library
import ConfidentialTx.Proofs.Bytewise.Checks
import ConfidentialTx.Proofs.Bytewise.Keychain
import ConfidentialTx.Proofs.Bytewise.Operations
import ConfidentialTx.Proofs.Bytewise.Build
import ConfidentialTx.Proofs.Bytewise.Transaction
import ConfidentialTx.Proofs.Bytewise.Session
import ConfidentialTx.Proofs.RangeProof.Tampering
import ConfidentialTx.Proofs.Keychain.Interleaving
import ConfidentialTx.Proofs.Builder.Outcome
import ConfidentialTx.Proofs.Builder.Parts
import ConfidentialTx.Proofs.Builder.Reorder
import ConfidentialTx.Proofs.Keychain.Net
import ConfidentialTx.Proofs.Keychain.Search
import ConfidentialTx.Proofs.Commitment.Reading
import ConfidentialTx.Proofs.Commitment.Balance
import ConfidentialTx.Proofs.RangeProof.Mismatch
import ConfidentialTx.Proofs.Keychain.Derivation
import ConfidentialTx.Proofs.RangeProof.Extent
import ConfidentialTx.Proofs.Keychain.Stored
import ConfidentialTx.Proofs.Keychain.Tweak
import ConfidentialTx.Proofs.Hex
import ConfidentialTx.Proofs.Json
import ConfidentialTx.Proofs.Keychain.TextForms
import ConfidentialTx.Proofs.Hash.Standard
import ConfidentialTx.Proofs.Hash.Pieces
