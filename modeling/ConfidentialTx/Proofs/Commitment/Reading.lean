import Mathlib
import ConfidentialTx.Proofs.Bytewise.Checks
import ConfidentialTx.Proofs.Keychain.Signing

namespace ConfidentialTx

open WeierstrassCurve.Affine

namespace Field

theorem toList_toBytes_eq_iff {bs : Bytes} (hlen : bs.length = 32) (a : Field) :
    a.toBytes.toList = bs ↔ bs.toNat = a.val := by
  constructor
  · intro h
    rw [← h]
    exact toNat_toBytes a
  · intro h
    apply Bytes.toNat_injective (a.toBytes.length_toList.trans hlen.symm)
    rw [h]
    exact toNat_toBytes a

end Field

namespace Commitment

/-- Eight or nine, and then the first coordinate of some point of the curve. -/
structure Readable (bs : Bytes) : Prop where
  length : bs.length = 33
  head : bs.head? = some 8 ∨ bs.head? = some 9
  inField : Bytes.toNat bs.tail < fieldOrder
  onCurve : IsSquare ((Bytes.toNat bs.tail : ZMod fieldOrder) ^ 3 + 7)

/-- Eight is for the second coordinate that is a square, and nine for the other. -/
structure Writes (bs : Bytes) (x y : ZMod fieldOrder) : Prop where
  length : bs.length = 33
  head : bs.head? = some 8 ∧ IsSquare y ∨ bs.head? = some 9 ∧ ¬IsSquare y
  tail : Bytes.toNat bs.tail = x.val

/-- The string stands for the element. None stands for zero. -/
def Denotes (bs : Bytes) : CurveGroup → Prop
  | .zero => False
  | .some x y _ => Writes bs x y

def Reads (c : Commitment) (P : CurveGroup) : Prop :=
  ofBytes c.bytes.toList = .ok c ∧ Denotes c.bytes.toList P

variable {bs : Bytes} {c : Commitment} {P : CurveGroup}

theorem Denotes.length (h : Denotes bs P) : bs.length = 33 := by
  cases P with
  | zero => cases h
  | some x y hxy => exact Writes.length h

theorem Denotes.ne_zero (h : Denotes bs P) : P ≠ 0 := by
  intro hP
  rw [hP] at h
  exact h

theorem encodes_some_iff {x y : ZMod fieldOrder} {hxy : curve.Nonsingular x y} :
    c.Encodes (.some x y hxy) ↔
      c.bytes.toList = (if (Field.isSquare (.ofZMod y)) then 8 else 9) ::
        (Field.toBytes (.ofZMod x)).toList := by
  rw [Encodes, Point.ofGroup_some, ofPoint?, Option.some.injEq]
  constructor
  · intro h
    rw [← h]
  · intro h
    cases c
    congr 1
    ext1
    exact h.symm

theorem encodes_iff_denotes : c.Encodes P ↔ Denotes c.bytes.toList P := by
  cases P with
  | zero => exact ⟨fun h ↦ absurd h (not_encodes_zero c), False.elim⟩
  | some x y hxy =>
    have hlen := c.bytes.length_toList
    have hsquare : Field.isSquare (.ofZMod y) = true ↔ IsSquare y := by
      rw [Field.isSquare_iff, Residue.toZMod_ofZMod]
    rw [encodes_some_iff]
    generalize c.bytes.toList = bs at hlen ⊢
    cases bs with
    | nil => cases hlen
    | cons head rest =>
      have hrest : rest.length = 32 := Nat.succ.inj hlen
      have htail := Field.toList_toBytes_eq_iff hrest (.ofZMod x)
      rw [List.cons.injEq, eq_comm (a := rest), htail]
      constructor
      · intro h
        refine ⟨hlen, ?_, h.2⟩
        by_cases hy : IsSquare y
        · rw [if_pos (hsquare.mpr hy)] at h
          exact .inl ⟨congrArg some h.1, hy⟩
        · rw [if_neg (hsquare.not.mpr hy)] at h
          exact .inr ⟨congrArg some h.1, hy⟩
      · intro h
        refine ⟨?_, h.tail⟩
        rcases h.head with ⟨hhead, hy⟩ | ⟨hhead, hy⟩
        · rw [if_pos (hsquare.mpr hy)]
          exact Option.some.inj hhead
        · rw [if_neg (hsquare.not.mpr hy)]
          exact Option.some.inj hhead

theorem denotes_iff_encodes : Denotes bs P ↔ ∃ c : Commitment, c.bytes.toList = bs ∧ c.Encodes P := by
  constructor
  · intro h
    exact ⟨⟨⟨bs, h.length⟩⟩, rfl, encodes_iff_denotes.mpr h⟩
  · intro h
    obtain ⟨c, rfl, hc⟩ := h
    exact encodes_iff_denotes.mp hc

theorem Readable.exists_denotes (h : Readable bs) : ∃ P, Denotes bs P := by
  obtain ⟨y, hy⟩ := h.onCurve
  have hon : curve.Nonsingular (Bytes.toNat bs.tail : ZMod fieldOrder) y := by
    rw [curve_nonsingular_iff, ← hy]
    ring
  have hneg : curve.Nonsingular (Bytes.toNat bs.tail : ZMod fieldOrder) (-y) := by
    rw [curve_nonsingular_iff] at hon ⊢
    rw [← hon]
    ring
  have hother : IsSquare (-y) ↔ ¬IsSquare y :=
    isSquare_neg_iff fieldOrder_mod_four (CurveGroup.y_ne_zero hon)
  have htail : Bytes.toNat bs.tail = (Bytes.toNat bs.tail : ZMod fieldOrder).val :=
    (ZMod.val_cast_of_lt h.inField).symm
  by_cases hsquare : IsSquare y
  · rcases h.head with hhead | hhead
    · exact ⟨.some _ y hon, h.length, .inl ⟨hhead, hsquare⟩, htail⟩
    · exact ⟨.some _ (-y) hneg, h.length, .inr ⟨hhead, fun hn ↦ hother.mp hn hsquare⟩, htail⟩
  · rcases h.head with hhead | hhead
    · exact ⟨.some _ (-y) hneg, h.length, .inl ⟨hhead, hother.mpr hsquare⟩, htail⟩
    · exact ⟨.some _ y hon, h.length, .inr ⟨hhead, hsquare⟩, htail⟩

theorem Denotes.readable (h : Denotes bs P) : Readable bs := by
  cases P with
  | zero => cases h
  | some x y hxy =>
    obtain ⟨hlength, hhead, htail⟩ := h
    refine ⟨hlength, hhead.imp And.left And.left, ?_, ?_⟩
    · rw [htail]
      exact x.val_lt
    · rw [htail, ZMod.natCast_zmod_val]
      refine ⟨y, ?_⟩
      rw [curve_nonsingular_iff.mp hxy]
      ring

theorem isPoint_iff_readable : c.IsPoint ↔ Readable c.bytes.toList := by
  constructor
  · intro h
    obtain ⟨P, hP⟩ := h
    exact (encodes_iff_denotes.mp hP).readable
  · intro h
    obtain ⟨P, hP⟩ := h.exists_denotes
    exact ⟨P, encodes_iff_denotes.mpr hP⟩

theorem Readable.existsUnique_denotes (h : Readable bs) : ∃! P, Denotes bs P := by
  obtain ⟨P, hP⟩ := h.exists_denotes
  refine ⟨P, hP, fun Q hQ ↦ ?_⟩
  obtain ⟨c, rfl, hc⟩ := denotes_iff_encodes.mp hP
  exact (encodes_iff_denotes.mpr hQ).injective hc

theorem existsUnique_denotes_of_ne_zero (h : P ≠ 0) : ∃! bs, Denotes bs P := by
  obtain ⟨c, hc⟩ := exists_encodes h
  refine ⟨c.bytes.toList, encodes_iff_denotes.mp hc, fun bs hbs ↦ ?_⟩
  obtain ⟨d, rfl, hd⟩ := denotes_iff_encodes.mp hbs
  rw [Option.some.inj (hd.symm.trans hc)]

theorem toPoint_isOk_iff : (∃ p, c.toPoint = .ok p) ↔ Readable c.bytes.toList := by
  rw [← isPoint_iff_readable]
  constructor
  · intro h
    obtain ⟨p, hp⟩ := h
    exact (isPoint_of_toPoint hp).1
  · intro h
    exact ⟨_, toPoint_of_isPoint h⟩

theorem ofBytes_eq_ok_iff : ofBytes bs = .ok c ↔ c.bytes.toList = bs ∧ Readable bs := by
  constructor
  · intro h
    unfold ofBytes at h
    split at h
    · cases h
    · rename_i b hb
      obtain ⟨p, hp, hc⟩ := bind_eq_ok_iff.mp h
      cases hc
      have hbytes := FixedBytes.ofList?_eq_some_iff.mp hb
      refine ⟨hbytes, ?_⟩
      rw [← hbytes]
      exact toPoint_isOk_iff.mp ⟨p, hp⟩
  · intro h
    obtain ⟨rfl, h⟩ := h
    obtain ⟨p, hp⟩ := toPoint_isOk_iff.mpr h
    rw [ofBytes, FixedBytes.ofList?_toList]
    change (c.toPoint >>= fun _ ↦ .ok c) = .ok c
    rw [hp]
    rfl

theorem checkCommitment_eq_ok_iff :
    Bytewise.checkCommitment c = .ok () ↔ Readable c.bytes.toList := by
  rw [Bytewise.checkCommitment_eq, map_eq_ok_iff, ← toPoint_isOk_iff]
  simp

theorem toPublicKey_of_not_readable (h : ¬Readable c.bytes.toList) :
    c.toPublicKey = .error .invalidPublicKey := by
  have hnone : c.toPoint? = none := by
    rw [Option.eq_none_iff_forall_ne_some]
    intro p hp
    obtain ⟨P, -, hP⟩ := toPoint?_eq_some_iff.mp hp
    exact h (isPoint_iff_readable.mp ⟨P, hP⟩)
  rw [toPublicKey, hnone]
  rfl

theorem reads_iff_encodes : c.Reads P ↔ c.Encodes P := by
  rw [encodes_iff_denotes]
  exact ⟨fun h ↦ h.2, fun h ↦ ⟨ofBytes_eq_ok_iff.mpr ⟨rfl, h.readable⟩, h⟩⟩

theorem commit_reads_iff {cap : Capability} {v : UInt64} {key : SecretKey} :
    commit cap v key = .ok c ↔
      cap = .commit ∧ c.Reads (.opening v.toNat key.scalar.toZMod) := by
  rw [reads_iff_encodes, ← commit_eq_ok_iff]
  exact Capability.requireCommit_bind_eq_ok_iff

theorem commitValue_reads_iff {cap : Capability} {v : UInt64} :
    commitValue cap v = .ok c ↔
      cap = .commit ∧ c.Reads ((v.toNat : ZMod groupOrder) • CurveGroup.value) := by
  have hopening : CurveGroup.opening v.toNat 0 =
      (v.toNat : ZMod groupOrder) • CurveGroup.value := by
    rw [CurveGroup.opening, zero_smul (ZMod groupOrder) CurveGroup.base, add_zero]
  rw [reads_iff_encodes, ← hopening, ← ofGroup_eq_ok_iff, ← commitValue_eq]
  exact Capability.requireCommit_bind_eq_ok_iff

theorem commitSwitch_reads_iff {cap : Capability} {key : SecretKey} :
    commitSwitch cap key = .ok c ↔
      cap = .commit ∧ c.Reads (key.scalar.toZMod • CurveGroup.switch) := by
  rw [reads_iff_encodes, ← ofGroup_eq_ok_iff, ofGroup, ← Point.mul_eq_smul,
    CurveGroup.ofGroup_switch]
  exact Capability.requireCommit_bind_eq_ok_iff

theorem forall₂_encodes_iff {cs : List Commitment} {Ps : List CurveGroup} :
    List.Forall₂ Encodes cs Ps ↔ (∀ c ∈ cs, c.IsPoint) ∧ cs.map element = Ps := by
  constructor
  · intro h
    induction h with
    | nil => simp
    | cons hc _ ih =>
      exact ⟨List.forall_mem_cons.mpr ⟨⟨_, hc⟩, ih.1⟩, by rw [List.map_cons, hc.element_eq, ih.2]⟩
  · intro h
    obtain ⟨h, rfl⟩ := h
    rw [List.forall₂_map_right_iff, List.forall₂_same]
    exact fun c hc ↦ (h c hc).encodes

/-- A sum is over the elements that its commitments encode, so all of them must encode one. -/
theorem sum_commit_eq_ok_iff {positive negative : List Commitment} :
    sum .commit positive negative = .ok c ↔
      ∃ Ps Qs, List.Forall₂ Encodes positive Ps ∧ List.Forall₂ Encodes negative Qs ∧
        c.Encodes (Ps.sum - Qs.sum) := by
  simp only [forall₂_encodes_iff]
  by_cases hpoints : ∀ d ∈ positive ++ negative, d.IsPoint
  · obtain ⟨hp, hn⟩ := List.forall_mem_append.mp hpoints
    rw [sum_of_isPoint hp hn, ofGroup_eq_ok_iff, net]
    constructor
    · intro h
      exact ⟨_, _, ⟨hp, rfl⟩, ⟨hn, rfl⟩, h⟩
    · intro h
      obtain ⟨_, _, ⟨-, rfl⟩, ⟨-, rfl⟩, h⟩ := h
      exact h
  · have hstray : ∃ d ∈ positive ++ negative, ¬d.IsPoint := by
      push Not at hpoints
      exact hpoints
    rw [sum_of_not_isPoint hstray]
    constructor
    · intro h
      cases h
    · intro h
      obtain ⟨_, _, ⟨hp, -⟩, ⟨hn, -⟩, -⟩ := h
      exact absurd (List.forall_mem_append.mpr ⟨hp, hn⟩) hpoints

theorem sum_reads_iff {cap : Capability} {positive negative : List Commitment} :
    sum cap positive negative = .ok c ↔
      cap = .commit ∧ ∃ Ps Qs, List.Forall₂ Reads positive Ps ∧ List.Forall₂ Reads negative Qs ∧
        c.Reads (Ps.sum - Qs.sum) := by
  have hreads : Reads = Encodes := by
    funext d P
    exact propext reads_iff_encodes
  rw [hreads, ← sum_commit_eq_ok_iff]
  exact Capability.requireCommit_bind_eq_ok_iff

theorem exists_commit_zero_publicKey (key : SecretKey) : ∃ c pub,
    commit .commit 0 key = .ok c ∧ c.toPublicKey = .ok pub ∧
      ∀ cap : Capability, cap.canSign = true → key.publicKey cap = .ok pub := by
  obtain ⟨c, pub, hc, hpub, hpoint⟩ := exists_commit_zero key
  refine ⟨c, pub, hc, hpub, fun cap hcap ↦ ?_⟩
  obtain ⟨own, hown, howned⟩ := key.exists_publicKey hcap
  have hsame : own.toPoint = pub.toPoint := howned.symm.trans hpoint
  cases own
  cases pub
  cases hsame
  exact hown

/-- A string is accepted, and returned as it is, if it is eight or nine and the first coordinate of a
point, although the check in front looks for an even second coordinate and not for a square. These
strings and the elements other than zero correspond one to one. Public keys are taken through this
correspondence, and so is every commitment that is made. -/
theorem denotes_one_to_one :
    (∀ bs, (∃ c, ofBytes bs = .ok c) ↔ Readable bs) ∧
    (∀ bs c, ofBytes bs = .ok c → c.bytes.toList = bs) ∧
    (∀ c, Bytewise.checkCommitment c = .ok () ↔ Readable c.bytes.toList) ∧
    (∀ bs, Readable bs → ∃! P, Denotes bs P) ∧
    (∀ P, P ≠ 0 → ∃! bs, Denotes bs P) ∧
    (∀ bs P, Denotes bs P → Readable bs ∧ P ≠ 0) ∧
    (∀ (c : Commitment) P, Denotes c.bytes.toList P →
      ∃ pub, c.toPublicKey = .ok pub ∧ pub.toPoint = .ofGroup P) ∧
    (∀ c : Commitment, ¬Readable c.bytes.toList → c.toPublicKey = .error .invalidPublicKey) ∧
    (∀ cap v key c, commit cap v key = .ok c ↔
      cap = .commit ∧ c.Reads (.opening v.toNat key.scalar.toZMod)) ∧
    (∀ cap v c, commitValue cap v = .ok c ↔
      cap = .commit ∧ c.Reads ((v.toNat : ZMod groupOrder) • CurveGroup.value)) ∧
    (∀ cap key c, commitSwitch cap key = .ok c ↔
      cap = .commit ∧ c.Reads (key.scalar.toZMod • CurveGroup.switch)) ∧
    (∀ cap positive negative c, sum cap positive negative = .ok c ↔
      cap = .commit ∧ ∃ Ps Qs, List.Forall₂ Reads positive Ps ∧ List.Forall₂ Reads negative Qs ∧
        c.Reads (Ps.sum - Qs.sum)) ∧
    ∀ key, ∃ c pub, commit .commit 0 key = .ok c ∧ c.toPublicKey = .ok pub ∧
      ∀ cap : Capability, cap.canSign = true → key.publicKey cap = .ok pub := by
  refine ⟨fun bs ↦ ⟨?_, ?_⟩, fun _ _ h ↦ (ofBytes_eq_ok_iff.mp h).1,
    fun _ ↦ checkCommitment_eq_ok_iff, fun _ h ↦ h.existsUnique_denotes,
    fun _ h ↦ existsUnique_denotes_of_ne_zero h, fun _ _ h ↦ ⟨h.readable, h.ne_zero⟩, ?_,
    fun _ h ↦ toPublicKey_of_not_readable h, fun _ _ _ _ ↦ commit_reads_iff,
    fun _ _ _ ↦ commitValue_reads_iff, fun _ _ _ ↦ commitSwitch_reads_iff,
    fun _ _ _ _ ↦ sum_reads_iff, exists_commit_zero_publicKey⟩
  · intro h
    obtain ⟨c, hc⟩ := h
    exact (ofBytes_eq_ok_iff.mp hc).2
  · intro h
    exact ⟨⟨⟨bs, h.length⟩⟩, ofBytes_eq_ok_iff.mpr ⟨rfl, h⟩⟩
  · intro c P h
    obtain ⟨pub, hpub, hpoint⟩ := exists_toPublicKey (encodes_iff_denotes.mpr h)
    exact ⟨pub, hpub, hpoint.symm⟩

/-- The commitment to zero under the key one is read as the base point, and a string whose first
coordinate is the order of the field is refused. -/
theorem denotes_one_to_one_base :
    let one : SecretKey := ⟨1, by decide⟩
    (∃ c pub, commit .commit 0 one = .ok c ∧ Readable c.bytes.toList ∧
      c.toPublicKey = .ok pub ∧ pub.toPoint = Generator.base) ∧
    ¬∃ c, ofBytes (8 :: Bytes.bigEndian 32 fieldOrder) = .ok c := by
  intro one
  obtain ⟨haccepted, -, -, -, -, hreadable, hpoint, -, hcommit, -, -, -, hzero⟩ := denotes_one_to_one
  refine ⟨?_, ?_⟩
  · obtain ⟨c, pub, hc, hpub, -⟩ := hzero one
    have hdenotes := ((hcommit _ _ _ _).mp hc).2.2
    obtain ⟨read, hread, hbase⟩ := hpoint c _ hdenotes
    have hone : CurveGroup.opening (UInt64.toNat 0) one.scalar.toZMod = CurveGroup.base := by
      rw [UInt64.toNat_zero, Nat.cast_zero, one.opening_zero_eq, SecretKey.element,
        Residue.toZMod_one, one_smul]
    rw [hone, CurveGroup.ofGroup_base] at hbase
    exact ⟨c, read, hc, (hreadable _ _ hdenotes).1, hread, hbase⟩
  · rw [haccepted]
    intro h
    have hlt := h.inField
    rw [List.tail_cons, Bytes.toNat_bigEndian] at hlt
    exact absurd hlt (by decide)

end Commitment

end ConfidentialTx
