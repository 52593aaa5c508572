import Mathlib
import ConfidentialTx.Proofs.Commitment.Sum

namespace ConfidentialTx

/-- A value with the blinding scalar that hides it in a commitment. -/
structure Opening where
  value : UInt64
  blind : Scalar

namespace Opening

def totalValue (os : List Opening) : ℤ := (os.map fun o ↦ (o.value.toNat : ℤ)).sum

def totalBlind (os : List Opening) : ZMod groupOrder := (os.map fun o ↦ o.blind.toZMod).sum

/-- What values going out and a value in the clear exceed values coming in by, under the difference
of their blinding scalars. -/
def net (outs ins : List Opening) (overage : ℤ) : CurveGroup :=
  .opening ((totalValue outs - totalValue ins + overage : ℤ) : ZMod groupOrder)
    (totalBlind outs - totalBlind ins)

end Opening

namespace CurveGroup

theorem value_ne_zero : value ≠ 0 := by
  intro h
  have hvalue := ofGroup_value
  rw [h] at hvalue
  cases hvalue

theorem switch_ne_zero : switch ≠ 0 := by
  intro h
  have hswitch := ofGroup_switch
  rw [h] at hswitch
  cases hswitch

theorem smul_value_eq_zero {v : ZMod groupOrder} : v • value = 0 ↔ v = 0 := by
  rw [smul_eq_zero, or_iff_left value_ne_zero]

theorem opening_value_inj {v w r : ZMod groupOrder} : opening v r = opening w r ↔ v = w := by
  rw [opening, opening, add_left_inj, ← sub_eq_zero, ← sub_smul, smul_value_eq_zero, sub_eq_zero]

theorem opening_blind_inj {v r s : ZMod groupOrder} : opening v r = opening v s ↔ r = s := by
  rw [opening, opening, add_right_inj, ← sub_eq_zero, ← sub_smul, smul_eq_zero,
    or_iff_left base_ne_zero, sub_eq_zero]

end CurveGroup

/-- A key is no multiple of the order, so it does not take the generator to the identity. -/
theorem SecretKey.smul_switch_ne_zero (key : SecretKey) :
    key.scalar.toZMod • CurveGroup.switch ≠ 0 := by
  rw [ne_eq, smul_eq_zero, Residue.toZMod_eq_zero]
  rintro (hkey | hswitch)
  · exact key.ne_zero hkey
  · exact CurveGroup.switch_ne_zero hswitch

namespace Commitment

theorem exists_encodes_value {v : ℕ} (hpos : 0 < v) (hlt : v < 2 ^ 64) :
    ∃ c : Commitment, commitValue .commit (.ofNat v) = .ok c ∧
      c.Encodes ((v : ZMod groupOrder) • CurveGroup.value) := by
  have hne : (v : ZMod groupOrder) ≠ 0 := by
    rw [ne_eq, ZMod.natCast_eq_zero_iff]
    exact Nat.not_dvd_of_pos_of_lt hpos (hlt.trans (by decide))
  obtain ⟨c, hc⟩ := exists_encodes (CurveGroup.smul_value_eq_zero.not.mpr hne)
  refine ⟨c, ?_, hc⟩
  have hsize : (UInt64.ofNat v).toNat = v := UInt64.toNat_ofNat_of_lt' hlt
  rw [commitValue_eq, hsize, ofGroup_eq_ok_iff, CurveGroup.opening,
    zero_smul (ZMod groupOrder) CurveGroup.base, add_zero]
  exact hc

theorem exists_commitSwitch (key : SecretKey) : ∃ c, commitSwitch .commit key = .ok c := by
  obtain ⟨c, hc⟩ := exists_encodes key.smul_switch_ne_zero
  refine ⟨c, ?_⟩
  change ofPoint (Generator.switch.mul key.scalar) = .ok c
  rw [← CurveGroup.ofGroup_switch, Point.mul_eq_smul]
  exact ofGroup_eq_ok_iff.mpr hc

def Opens (c : Commitment) (o : Opening) : Prop :=
  c.Encodes (.opening o.value.toNat o.blind.toZMod)

theorem opens_of_commit {v : UInt64} {key : SecretKey} {c : Commitment}
    (h : commit .commit v key = .ok c) : c.Opens ⟨v, key.scalar⟩ :=
  commit_eq_ok_iff.mp h

theorem sum_element_of_opens {cs : List Commitment} {os : List Opening}
    (h : List.Forall₂ Opens cs os) :
    (cs.map element).sum = .opening (Opening.totalValue os) (Opening.totalBlind os) := by
  induction h with
  | nil => simp [CurveGroup.opening_zero, Opening.totalValue, Opening.totalBlind]
  | cons hc _ ih =>
    rw [List.map_cons, List.sum_cons, ih, hc.element_eq, ← CurveGroup.opening_add]
    simp [Opening.totalValue, Opening.totalBlind]

theorem isPoint_of_opens {cs : List Commitment} {os : List Opening}
    (h : List.Forall₂ Opens cs os) : ∀ c ∈ cs, c.IsPoint := by
  induction h with
  | nil => simp
  | cons hc _ ih => exact List.forall_mem_cons.mpr ⟨⟨_, hc⟩, ih⟩

theorem net_of_opens {positive negative : List Commitment} {outs ins : List Opening}
    (hout : List.Forall₂ Opens positive outs) (hin : List.Forall₂ Opens negative ins) :
    net positive negative = Opening.net outs ins 0 := by
  rw [net, sum_element_of_opens hout, sum_element_of_opens hin, ← CurveGroup.opening_sub,
    Opening.net, add_zero, Int.cast_sub]

theorem net_append_left (positive negative : List Commitment) {c : Commitment} {P : CurveGroup}
    (hc : c.Encodes P) : net (positive ++ [c]) negative = net positive negative + P := by
  rw [net, net, List.map_append, List.sum_append, List.map_singleton, List.sum_singleton,
    hc.element_eq]
  abel

theorem net_append_right (positive negative : List Commitment) {c : Commitment} {P : CurveGroup}
    (hc : c.Encodes P) : net positive (negative ++ [c]) = net positive negative - P := by
  rw [net, net, List.map_append, List.sum_append, List.map_singleton, List.sum_singleton,
    hc.element_eq]
  abel

end Commitment

end ConfidentialTx
