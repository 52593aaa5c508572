import Mathlib
import ConfidentialTx.RangeProof.Sign
import ConfidentialTx.Proofs.Commitment.Sum
import ConfidentialTx.Proofs.Signature

namespace ConfidentialTx.RangeProof

theorem digit_eq (v i : Nat) : digit v i = v / 4 ^ i % 4 := by
  rw [digit, Nat.shiftRight_eq_div_pow, pow_mul, show 2 ^ 2 = 4 from rfl]

theorem sum_digits (v count : Nat) :
    ((List.range count).map fun i ↦ digit v i * 4 ^ i).sum = v % 4 ^ count := by
  induction count with
  | zero => simp [Nat.mod_one]
  | succ count ih =>
    rw [List.range_succ, List.map_append, List.sum_append, ih, List.map_singleton,
      List.sum_singleton, digit_eq, pow_succ, Nat.mod_mul]
    ring

theorem ringSteps_ofGroup (count : Nat) (S : CurveGroup) :
    ringSteps count (.ofGroup S) =
      (List.range count).map fun i ↦ Point.ofGroup ((4 ^ i : ZMod groupOrder) • S) := by
  induction count generalizing S with
  | zero => rfl
  | succ count ih =>
    rw [List.range_succ_eq_map, List.map_cons, List.map_map, ringSteps]
    simp only [← Point.ofGroup_add]
    rw [ih, pow_zero, one_smul]
    refine congrArg _ (List.map_congr_left fun i _ ↦ congrArg _ ?_)
    rw [pow_succ]
    module

theorem ringKeys_ofGroup (size : Nat) (F S : CurveGroup) :
    ringKeys size (.ofGroup F) (.ofGroup S) =
      (List.range size).map fun (j : ℕ) ↦ Point.ofGroup (F - (j : ZMod groupOrder) • S) := by
  induction size generalizing F with
  | zero => rfl
  | succ size ih =>
    rw [List.range_succ_eq_map, List.map_cons, List.map_map, ringKeys, ← Point.ofGroup_sub, ih,
      Nat.cast_zero, zero_smul (ZMod groupOrder) S, sub_zero]
    refine congrArg _ (List.map_congr_left fun j _ ↦ congrArg _ ?_)
    rw [Nat.cast_succ]
    module

namespace Draws

theorem length_takePads (count : Nat) (g : NonceGenerator) :
    (takePads count g).1.length = count := by
  induction count generalizing g with
  | zero => rfl
  | succ count ih => exact congrArg (· + 1) (ih _)

/-- The secrets but the last are drawn, and the last is what makes all of them cancel. -/
theorem takeRings_spec {sizes : List Nat} (hsizes : sizes ≠ []) {total : Scalar}
    {g : NonceGenerator} {draws : Draws} (h : takeRings total sizes g = some draws) :
    draws.pads.map List.length = sizes ∧
    ∃ drawn last, draws.secrets = drawn ++ [last] ∧ drawn.length + 1 = sizes.length ∧
      (∀ s ∈ drawn, s ≠ 0) ∧
      (drawn.map Residue.toZMod).sum + last.toZMod = -total.toZMod := by
  induction sizes generalizing total g draws with
  | nil => exact absurd rfl hsizes
  | cons size rest ih =>
    cases rest with
    | nil =>
      cases h
      exact ⟨by simp [length_takePads], [], -total, rfl, rfl, by simp, by simp⟩
    | cons next rest =>
      obtain ⟨⟨secret, g'⟩, hsecret, h⟩ := Option.bind_eq_some_iff.mp h
      obtain ⟨draws', hdraws, h⟩ := Option.bind_eq_some_iff.mp h
      cases h
      obtain ⟨hpads, drawn, last, hsecrets, hlength, hne, hsum⟩ := ih (by simp) hdraws
      have hnonzero : secret ≠ 0 := by
        obtain ⟨draw, hdraw⟩ := NonceGenerator.exists_of_search hsecret
        simpa using (Option.filter_eq_some_iff.mp hdraw).2
      refine ⟨?_, secret :: drawn, last, ?_, ?_, ?_, ?_⟩
      · rw [List.map_cons, hpads, length_takePads]
      · rw [hsecrets, List.cons_append]
      · rw [List.length_cons, hlength, List.length_cons, List.length_cons, List.length_cons]
      · exact List.forall_mem_cons.mpr ⟨hnonzero, hne⟩
      · rw [List.map_cons, List.sum_cons, add_assoc, hsum, Residue.toZMod_add]
        ring

end Draws

theorem length_of_mapM {α β : Type} {f : α → Option β} {as : List α} {bs : List β}
    (h : as.mapM f = some bs) : bs.length = as.length := by
  induction as generalizing bs with
  | nil =>
    cases h
    rfl
  | cons a as ih =>
    obtain ⟨b, rest, -, hrest, rfl⟩ := mapM_cons_eq_some h
    rw [List.length_cons, List.length_cons, ih hrest]

theorem map_length_maskedResponses {pads : List (List (FixedBytes 32))}
    {blocks : List (List Bytes)} {responses : List (List Scalar)}
    (hshape : blocks.map List.length = pads.map List.length)
    (h : maskedResponses pads blocks = some responses) :
    responses.map List.length = pads.map List.length := by
  induction pads generalizing blocks responses with
  | nil =>
    rw [List.map_nil, List.map_eq_nil_iff] at hshape
    subst hshape
    cases h
    rfl
  | cons pad pads ih =>
    cases blocks with
    | nil => cases hshape
    | cons block blocks =>
      simp only [List.map_cons, List.cons.injEq] at hshape
      unfold maskedResponses at h ih
      rw [List.zip_cons_cons] at h
      obtain ⟨response, others, hresponse, hothers, rfl⟩ := mapM_cons_eq_some h
      rw [List.map_cons, List.map_cons, ih hshape.2 hothers, length_of_mapM hresponse,
        List.length_zip, hshape.1, min_self]

theorem map_length_hiddenBlocks (sizes : List Nat) (v : Nat) (message : Bytes) :
    (hiddenBlocks sizes v message).map List.length = sizes := by
  rw [hiddenBlocks, List.map_map]
  refine List.ext_getElem (by simp) fun i hi hi' ↦ ?_
  simp

end ConfidentialTx.RangeProof
