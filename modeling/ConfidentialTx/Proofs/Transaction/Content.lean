import Mathlib
import ConfidentialTx.Proofs.Hash.Content
import ConfidentialTx.Transaction.Basic

namespace ConfidentialTx

open Canonical

def Output.prune (o : Output) : Output := { o with proof := .empty }

def Transaction.prune (tx : Transaction) : Transaction :=
  { tx with outputs := tx.outputs.map Output.prune }

/-- The types of objects that have a content hash. -/
inductive ContentType
  | u32
  | u64
  | hash
  | identifier
  | switchCommitHash
  | features
  | input
  | output
  | kernel
  | transaction
  | list (item : ContentType)

namespace ContentType

def Object : ContentType → Type
  | u32 => UInt32
  | u64 => UInt64
  | hash => ContentHash
  | identifier => Identifier
  | switchCommitHash => SwitchCommitHash
  | features => OutputFeatures
  | input => Input
  | output => Output
  | kernel => Kernel
  | transaction => Transaction
  | list item => List item.Object

instance canonical : (t : ContentType) → Canonical t.Object
  | u32 => inferInstanceAs (Canonical UInt32)
  | u64 => inferInstanceAs (Canonical UInt64)
  | hash => inferInstanceAs (Canonical ContentHash)
  | identifier => inferInstanceAs (Canonical Identifier)
  | switchCommitHash => inferInstanceAs (Canonical SwitchCommitHash)
  | features => inferInstanceAs (Canonical OutputFeatures)
  | input => inferInstanceAs (Canonical Input)
  | output => inferInstanceAs (Canonical Output)
  | kernel => inferInstanceAs (Canonical Kernel)
  | transaction => inferInstanceAs (Canonical Transaction)
  | list item =>
    have := canonical item
    inferInstanceAs (Canonical (List item.Object))

def prune : (t : ContentType) → t.Object → t.Object
  | output => Output.prune
  | transaction => Transaction.prune
  | list item => List.map item.prune
  | _ => id

/-- All lengths have the eight bytes that they are written in. -/
def Fits : (t : ContentType) → t.Object → Prop
  | kernel => fun k : Kernel ↦ k.excessSig.length < 2 ^ 64
  | transaction => fun tx : Transaction ↦
    tx.excessSig.length < 2 ^ 64 ∧ tx.inputs.length < 2 ^ 64 ∧ tx.outputs.length < 2 ^ 64
  | list item => fun items : List item.Object ↦ items.length < 2 ^ 64 ∧ ∀ a ∈ items, item.Fits a
  | _ => fun _ ↦ True

end ContentType

theorem OutputFeatures.code_injective : Function.Injective code := by
  intro a b h
  cases a <;> cases b <;> simp_all [code]

theorem OutputFeatures.delimited : Delimited (fun _ : OutputFeatures ↦ True) id where
  append_inj := by
    intro a b x y _ _ h
    obtain ⟨hcode, hxy⟩ := List.cons_eq_cons.mp h
    exact ⟨code_injective hcode, hxy⟩
  encode_core _ := rfl

theorem Input.delimited : Delimited (fun _ : Input ↦ True) id := by
  apply delimited_of_fixed fun i : Input ↦ i.commit.bytes
  · intro i
    rfl
  · intro i j h
    obtain ⟨⟨a⟩⟩ := i
    obtain ⟨⟨b⟩⟩ := j
    cases h
    rfl

theorem SwitchCommitHash.delimited : Delimited (fun _ : SwitchCommitHash ↦ True) id := by
  apply delimited_of_fixed SwitchCommitHash.bytes
  · intro a
    rfl
  · intro a b h
    cases a
    cases b
    cases h
    rfl

theorem Output.delimited : Delimited (fun _ : Output ↦ True) Output.prune where
  append_inj := by
    intro a b x y _ _ h
    change encode a.features ++ a.commit.bytes.toList ++ encode a.switchCommitHash ++ x =
      encode b.features ++ b.commit.bytes.toList ++ encode b.switchCommitHash ++ y at h
    simp only [List.append_assoc] at h
    obtain ⟨hfeatures, h⟩ := OutputFeatures.delimited.append_inj trivial trivial h
    obtain ⟨hcommit, h⟩ := FixedBytes.append_inj h
    obtain ⟨hswitch, hxy⟩ := SwitchCommitHash.delimited.append_inj trivial trivial h
    refine ⟨?_, hxy⟩
    obtain ⟨fa, ⟨ca⟩, sa, pa⟩ := a
    obtain ⟨fb, ⟨cb⟩, sb, pb⟩ := b
    cases hfeatures
    cases hcommit
    cases hswitch
    rfl
  encode_core _ := rfl

theorem Kernel.delimited :
    Delimited (fun k : Kernel ↦ k.excessSig.length < 2 ^ 64) id where
  append_inj := by
    intro a b x y ha hb h
    change encode a.fee ++ encode a.lockHeight ++ a.excess.bytes.toList ++ sized a.excessSig ++ x =
      encode b.fee ++ encode b.lockHeight ++ b.excess.bytes.toList ++ sized b.excessSig ++ y at h
    simp only [List.append_assoc] at h
    obtain ⟨hfee, h⟩ := delimited_uint64.append_inj trivial trivial h
    obtain ⟨hheight, h⟩ := delimited_uint64.append_inj trivial trivial h
    obtain ⟨hexcess, h⟩ := FixedBytes.append_inj h
    obtain ⟨hsig, hxy⟩ := sized_append_inj ha hb h
    refine ⟨?_, hxy⟩
    obtain ⟨⟨ea⟩, sa, fa, la⟩ := a
    obtain ⟨⟨eb⟩, sb, fb, lb⟩ := b
    cases hfee
    cases hheight
    cases hexcess
    cases hsig
    rfl
  encode_core _ := rfl

theorem Transaction.delimited :
    Delimited (fun tx : Transaction ↦ tx.excessSig.length < 2 ^ 64 ∧ tx.inputs.length < 2 ^ 64 ∧
      tx.outputs.length < 2 ^ 64) Transaction.prune where
  append_inj := by
    intro a b x y ha hb h
    obtain ⟨hsigs, hins, houts⟩ := ha
    obtain ⟨hsigs', hins', houts'⟩ := hb
    change encode a.fee ++ encode a.lockHeight ++ sized a.excessSig ++ encode a.inputs ++
        encode a.outputs ++ x =
      encode b.fee ++ encode b.lockHeight ++ sized b.excessSig ++ encode b.inputs ++
        encode b.outputs ++ y at h
    simp only [List.append_assoc] at h
    obtain ⟨hfee, h⟩ := delimited_uint64.append_inj trivial trivial h
    obtain ⟨hheight, h⟩ := delimited_uint64.append_inj trivial trivial h
    obtain ⟨hsig, h⟩ := sized_append_inj hsigs hsigs' h
    obtain ⟨hinputs, h⟩ := Input.delimited.list.append_inj ⟨hins, fun _ _ ↦ trivial⟩
      ⟨hins', fun _ _ ↦ trivial⟩ h
    obtain ⟨houtputs, hxy⟩ := Output.delimited.list.append_inj ⟨houts, fun _ _ ↦ trivial⟩
      ⟨houts', fun _ _ ↦ trivial⟩ h
    rw [List.map_id, List.map_id] at hinputs
    refine ⟨?_, hxy⟩
    obtain ⟨ia, oa, fa, la, sa⟩ := a
    obtain ⟨ib, ob, fb, lb, sb⟩ := b
    cases hfee
    cases hheight
    cases hsig
    cases hinputs
    rw [prune, prune, houtputs]
  encode_core tx := by
    change encode tx.fee ++ encode tx.lockHeight ++ sized tx.excessSig ++ encode tx.inputs ++
      encode (tx.outputs.map Output.prune) = _
    rw [Output.delimited.list.encode_core]
    rfl

namespace ContentType

theorem delimited (t : ContentType) : Delimited t.Fits t.prune := by
  induction t with
  | u32 => exact delimited_uint32
  | u64 => exact delimited_uint64
  | hash =>
    apply delimited_of_fixed ContentHash.bytes
    · intro a
      rfl
    · intro a b h
      cases a
      cases b
      cases h
      rfl
  | identifier =>
    apply delimited_of_fixed Identifier.bytes
    · intro id
      rfl
    · intro id id' h
      exact Identifier.ext h
  | switchCommitHash => exact SwitchCommitHash.delimited
  | features => exact OutputFeatures.delimited
  | input => exact Input.delimited
  | output => exact Output.delimited
  | kernel => exact Kernel.delimited
  | transaction => exact Transaction.delimited
  | list item ih => exact ih.list

/-- A canonical form is told off from what follows it and gives the object up to range proofs. So the
bytes that are hashed of two objects give both, and no hash depends on a range proof. -/
theorem content_unique (t u : ContentType) {a b : t.Object} {c d : u.Object} (ha : t.Fits a)
    (hb : t.Fits b) (hc : u.Fits c) (hd : u.Fits d) :
    (∀ x y, encode a ++ x = encode b ++ y ↔ t.prune a = t.prune b ∧ x = y) ∧
    hashWith a c = ⟨Blake2b.hash 32 [encode a ++ encode c]⟩ ∧
    hashWith b d = ⟨Blake2b.hash 32 [encode b ++ encode d]⟩ ∧
    (encode a ++ encode c = encode b ++ encode d ↔
      t.prune a = t.prune b ∧ u.prune c = u.prune d) ∧
    (t.prune a = t.prune b → Canonical.hash a = Canonical.hash b) ∧
    (t.prune a = t.prune b → u.prune c = u.prune d → hashWith a c = hashWith b d) := by
  have hbytes : encode a ++ encode c = encode b ++ encode d ↔
      t.prune a = t.prune b ∧ u.prune c = u.prune d := by
    rw [t.delimited.append_inj_iff ha hb, u.delimited.encode_inj hc hd]
  refine ⟨?_, hashWith_eq a c, hashWith_eq b d, hbytes, ?_, ?_⟩
  · intro x y
    exact t.delimited.append_inj_iff ha hb
  · intro hab
    rw [Canonical.hash_eq, Canonical.hash_eq, t.delimited.encode_congr hab]
  · intro hab hcd
    rw [hashWith_eq, hashWith_eq, hbytes.mpr ⟨hab, hcd⟩]

/-- An output with a proof and the same output without one, in a transaction and next to it. -/
theorem content_unique_pruned :
    let output (proof : RangeProof) : Output := ⟨.coinbase, ⟨.zero⟩, .zero, proof⟩
    let tx (proof : RangeProof) : Transaction := ⟨[⟨⟨.zero⟩⟩], [output proof], 3, 7, [1, 2]⟩
    hashWith (tx ⟨.zero, 1⟩) [output ⟨.zero, 1⟩] = hashWith (tx .empty) [output .empty] ∧
      ∀ x y, encode (tx ⟨.zero, 1⟩) ++ x = encode (tx .empty) ++ y → x = y := by
  intro output tx
  have hone : 1 < 2 ^ 64 := by decide
  have htwo : 2 < 2 ^ 64 := by decide
  have hfits (proof : RangeProof) : Fits .transaction (tx proof) := ⟨htwo, hone, hone⟩
  have hitem (proof : RangeProof) : Fits (.list .output) [output proof] :=
    ⟨hone, fun _ _ ↦ trivial⟩
  obtain ⟨hunique, -, -, -, -, hhash⟩ :=
    content_unique .transaction (.list .output) (hfits ⟨.zero, 1⟩) (hfits .empty)
      (hitem ⟨.zero, 1⟩) (hitem .empty)
  refine ⟨hhash rfl rfl, ?_⟩
  intro x y h
  exact ((hunique x y).mp h).2

end ContentType

end ConfidentialTx
