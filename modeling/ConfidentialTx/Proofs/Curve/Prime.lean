import Mathlib
import ConfidentialTx.Curve.Field
import ConfidentialTx.Curve.Scalar
import ConfidentialTx.Proofs.Curve.Residue

namespace ConfidentialTx

structure PrimeWitness where
  modulus : ℕ
  generator : ℕ
  factors : List ℕ

namespace PrimeWitness

def check (known : List ℕ) (w : PrimeWitness) : Bool :=
  if h : 0 < w.modulus then
    let _ : Modulus w.modulus := ⟨h⟩
    let g := Residue.reduce w.modulus w.generator
    decide (w.modulus ≤ 2 ^ 256) && w.factors.prod == w.modulus - 1 &&
      g.pow 256 (w.modulus - 1) = 1 &&
      w.factors.all fun q ↦ q ∈ known && g.pow 256 ((w.modulus - 1) / q) ≠ 1
  else false

def checkAll : List ℕ → List PrimeWitness → Bool
  | _, [] => true
  | known, w :: ws => w.check known && checkAll (w.modulus :: known) ws

theorem prime_of_check {known : List ℕ} {w : PrimeWitness} (hknown : ∀ q ∈ known, q.Prime)
    (h : w.check known) : w.modulus.Prime := by
  unfold check at h
  split at h
  · rename_i hpos
    let _ : Modulus w.modulus := ⟨hpos⟩
    simp only [Bool.and_eq_true, decide_eq_true_eq, beq_iff_eq, List.all_eq_true] at h
    obtain ⟨⟨⟨hle, hprod⟩, hone⟩, hfactors⟩ := h
    have hpow (n : ℕ) (hn : n ≤ w.modulus - 1) :
        ((Residue.reduce w.modulus w.generator).pow 256 n).toZMod = (w.generator : ZMod w.modulus) ^ n := by
      rw [Residue.toZMod_pow, Residue.toZMod_reduce, Nat.mod_eq_of_lt (by omega)]
    apply lucas_primality w.modulus (w.generator : ZMod w.modulus)
    · rw [← hpow _ le_rfl, hone, Residue.toZMod_one]
    · intro q hq hdvd
      rw [← hprod] at hdvd
      obtain ⟨r, hr, hqr⟩ := (Prime.dvd_prod_iff hq.prime).mp hdvd
      obtain ⟨hrknown, hne⟩ := hfactors r hr
      obtain rfl := (Nat.prime_dvd_prime_iff_eq hq (hknown r hrknown)).mp hqr
      intro hone'
      apply hne
      rw [← Residue.toZMod_inj, hpow _ (Nat.div_le_self _ _), hone', Residue.toZMod_one]
  · cases h

theorem prime_of_checkAll {known : List ℕ} {ws : List PrimeWitness} (hknown : ∀ q ∈ known, q.Prime)
    (h : checkAll known ws) : ∀ w ∈ ws, w.modulus.Prime := by
  induction ws generalizing known with
  | nil => simp
  | cons w ws ih =>
    obtain ⟨hw, hws⟩ := Bool.and_eq_true_iff.mp h
    have hprime := prime_of_check hknown hw
    have hrest := ih (List.forall_mem_cons.mpr ⟨hprime, hknown⟩) hws
    exact List.forall_mem_cons.mpr ⟨hprime, hrest⟩

def smallPrimes : List ℕ :=
  [2, 3, 5, 7, 11, 17, 29, 31, 41, 53, 59, 97, 109, 149, 293, 461, 631, 797, 971, 1373, 1627, 1871,
    2011, 2621, 2657, 4051, 4423, 5323, 7723, 9349, 13441, 16699, 20113, 24809, 28181, 41201, 85831,
    96557, 120233, 305873]

theorem prime_of_mem_smallPrimes : ∀ q ∈ smallPrimes, q.Prime := by
  simp only [smallPrimes, List.forall_mem_cons]
  norm_num

/-- The witnesses of the two moduli and of the larger factors on the way to them. -/
def chain : List PrimeWitness :=
  [⟨4681609, 23, [2, 2, 2, 3, 97, 2011]⟩,
    ⟨107361793816595537, 3, [2, 2, 2, 2, 16699, 85831, 4681609]⟩,
    ⟨44706919, 6, [2, 3, 797, 9349]⟩,
    ⟨174723607534414371449, 3, [2, 2, 2, 17, 59, 4051, 120233, 44706919]⟩,
    ⟨1627771, 3, [2, 3, 5, 29, 1871]⟩,
    ⟨297159362677, 2, [2, 2, 3, 3, 11, 461, 1627771]⟩,
    ⟨545358713, 5, [2, 2, 2, 41, 59, 28181]⟩,
    ⟨29047611873442575647497758179, 2, [2, 293, 305873, 545358713, 297159362677]⟩,
    ⟨341948486974166000522343609283189, 2, [2, 2, 3, 3, 3, 109, 29047611873442575647497758179]⟩,
    ⟨groupOrder, 7, [2, 2, 2, 2, 2, 2, 3, 149, 631, 107361793816595537, 174723607534414371449,
      341948486974166000522343609283189]⟩,
    ⟨13331831, 13, [2, 5, 971, 1373]⟩,
    ⟨173378833005251801, 6, [2, 2, 2, 5, 5, 2621, 24809, 13331831]⟩,
    ⟨22149492674086928081353, 5, [2, 2, 2, 3, 5323, 173378833005251801]⟩,
    ⟨132896956044521568488119, 6, [2, 3, 22149492674086928081353]⟩,
    ⟨107590001, 3, [2, 2, 2, 2, 5, 5, 5, 5, 7, 29, 53]⟩,
    ⟨1206781, 10, [2, 2, 3, 5, 20113]⟩,
    ⟨7240687, 3, [2, 3, 1206781]⟩,
    ⟨255515944373312847190720520512484175977, 3, [2, 2, 2, 7, 7, 11, 1627, 2657, 4423, 41201, 96557,
      7240687, 107590001]⟩,
    ⟨205115282021455665897114700593932402728804164701536103180137503955397371, 10, [2, 3, 5, 29, 29,
      31, 7723, 132896956044521568488119, 255515944373312847190720520512484175977]⟩,
    ⟨fieldOrder, 3, [2, 3, 7, 13441,
      205115282021455665897114700593932402728804164701536103180137503955397371]⟩]

theorem prime_of_mem_chain : ∀ w ∈ chain, w.modulus.Prime :=
  prime_of_checkAll prime_of_mem_smallPrimes (by decide +kernel)

end PrimeWitness

theorem prime_fieldOrder : fieldOrder.Prime :=
  PrimeWitness.prime_of_mem_chain _ (List.mem_of_getElem? (i := 19) rfl)

theorem prime_groupOrder : groupOrder.Prime :=
  PrimeWitness.prime_of_mem_chain _ (List.mem_of_getElem? (i := 9) rfl)

instance : Fact fieldOrder.Prime := ⟨prime_fieldOrder⟩

instance : Fact groupOrder.Prime := ⟨prime_groupOrder⟩

@[simp] theorem Field.toZMod_inv (a : Field) : a.inv.toZMod = a.toZMod⁻¹ :=
  Residue.toZMod_inv a (by decide) (by decide)

@[simp] theorem Scalar.toZMod_inv (a : Scalar) : a.inv.toZMod = a.toZMod⁻¹ :=
  Residue.toZMod_inv a (by decide) (by decide)

end ConfidentialTx
