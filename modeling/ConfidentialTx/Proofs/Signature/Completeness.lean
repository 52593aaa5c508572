import Mathlib
import ConfidentialTx.Proofs.Transaction.Validity

namespace ConfidentialTx

namespace NonceGenerator

/-- The draw after `count` others. -/
def drawAt : Nat → NonceGenerator → FixedBytes 32
  | 0, g => g.draw.1
  | count + 1, g => drawAt count g.draw.2

theorem exists_search {α : Type} {accept : FixedBytes 32 → Option α} {count limit : Nat}
    {g : NonceGenerator} (hcount : count < limit) (h : (accept (g.drawAt count)).isSome = true) :
    ∃ found, search accept limit g = some found := by
  induction count generalizing limit g with
  | zero => cases limit with
    | zero => omega
    | succ limit =>
      obtain ⟨a, ha⟩ := Option.isSome_iff_exists.mp h
      exact ⟨(a, g.draw.2), by rw [search, show accept g.draw.1 = some a from ha]⟩
  | succ count ih => cases limit with
    | zero => omega
    | succ limit =>
      obtain ⟨found, hfound⟩ := ih (Nat.lt_of_succ_lt_succ hcount) h
      rw [search]
      cases hfirst : accept g.draw.1 with
      | some a => exact ⟨(a, g.draw.2), rfl⟩
      | none => exact ⟨found, hfound⟩

end NonceGenerator

theorem SecretKey.exists_publicKey {cap : Capability} (hcap : cap.canSign = true)
    (key : SecretKey) :
    ∃ pub, key.publicKey cap = .ok pub ∧ Point.ofGroup key.element = pub.toPoint := by
  have hmul : Generator.base.mul key.scalar = .ofGroup key.element := by
    rw [← CurveGroup.ofGroup_base, Point.mul_eq_smul]
    rfl
  have hne := key.element_ne_zero
  rw [publicKey, Capability.requireSign, hcap, hmul]
  cases hP : key.element with
  | zero => exact absurd hP hne
  | some x y hxy => exact ⟨⟨.ofZMod x, .ofZMod y⟩, rfl, rfl⟩

theorem Commitment.exists_toPublicKey {c : Commitment} {P : CurveGroup} (h : c.Encodes P) :
    ∃ pub, c.toPublicKey = .ok pub ∧ Point.ofGroup P = pub.toPoint := by
  cases P with
  | zero => exact absurd h (not_encodes_zero c)
  | some x y hxy => exact ⟨_, toPublicKey_of_encodes h, rfl⟩

namespace Signature

variable {cap : Capability} {msg : Message} {key : SecretKey}

/-- One of the draws is a nonce that gives a signature, so that no more than it are needed. -/
def Ends (msg : Message) (key : SecretKey) : Prop :=
  ∃ count < NonceGenerator.drawLimit, ((Scalar.ofBytesNonzero?
    ((NonceGenerator.init (key.toBytes.toList ++ msg.toList)).drawAt count)).bind
    (ofNonce? msg key)).isSome = true

theorem exists_sign (hcap : cap.canSign = true) (hends : Ends msg key) :
    ∃ sig, sign cap msg key = .ok sig := by
  obtain ⟨count, hcount, hsome⟩ := hends
  have hallowed : cap.requireSign = .ok () := by
    rw [Capability.requireSign, hcap]
    rfl
  unfold sign
  rw [hallowed, ok_bind]
  generalize NonceGenerator.drawLimit = limit at hcount ⊢
  obtain ⟨⟨sig, g⟩, hfound⟩ := @NonceGenerator.exists_search _
    (fun draw ↦ (Scalar.ofBytesNonzero? draw).bind (ofNonce? msg key)) count limit _ hcount hsome
  refine ⟨sig, ?_⟩
  simp only [hfound]

theorem halves_of_accepts {sig : Signature} {P : CurveGroup} (h : Accepts msg sig P) :
    1 ≤ sig.r.val ∧ sig.r.val ≤ groupOrder - 1 ∧ 1 ≤ sig.s.val ∧
      sig.s.val ≤ (groupOrder - 1) / 2 := by
  have hr : sig.r.val ≠ 0 := fun hzero ↦ sig.r_ne_zero (Residue.ext hzero)
  have hs : sig.s.val ≠ 0 := fun hzero ↦ sig.s_ne_zero (Residue.ext hzero)
  have hlt := sig.r.val_lt
  have hlow := h.1
  have hhalf : groupOrder / 2 = (groupOrder - 1) / 2 := by decide
  omega

end Signature

end ConfidentialTx
