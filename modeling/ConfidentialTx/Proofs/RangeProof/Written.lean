import Mathlib
import ConfidentialTx.Proofs.RangeProof.Prefix
import ConfidentialTx.Proofs.RangeProof.Layout
import ConfidentialTx.Proofs.Signature

namespace ConfidentialTx.RangeProof

theorem flatMap_inj {α β : Type} {n : Nat} {f : α → List β} (hf : Function.Injective f)
    (hlen : ∀ a, (f a).length = n) {as bs : List α} (hlength : as.length = bs.length)
    (h : as.flatMap f = bs.flatMap f) : as = bs := by
  induction as generalizing bs with
  | nil => exact (List.eq_nil_of_length_eq_zero hlength.symm).symm
  | cons a as ih =>
    cases bs with
    | nil => cases hlength
    | cons b bs =>
      obtain ⟨hhead, htail⟩ := List.append_inj h ((hlen a).trans (hlen b).symm)
      rw [hf hhead, ih (Nat.succ.inj hlength) htail]

namespace Header

theorem takeShape_eq_some {flags : UInt8} {bs rest : Bytes} {exponent mantissa : Nat}
    (h : takeShape flags bs = some (exponent, mantissa, rest)) :
    ∃ front, bs = front ++ rest ∧ front.length ≤ 1 ∧
      takeShape flags front = some (exponent, mantissa, []) := by
  unfold takeShape at h ⊢
  split at h
  · rename_i hexact
    cases h
    exact ⟨[], rfl, Nat.zero_le _, if_pos hexact⟩
  · rename_i hexact
    cases bs with
    | nil => cases h
    | cons m bs =>
      cases h
      exact ⟨[m], rfl, le_rfl, if_neg hexact⟩

theorem takeMin_eq_some {flags : UInt8} {bs rest : Bytes} {min : Nat}
    (h : takeMin flags bs = some (min, rest)) :
    ∃ front, bs = front ++ rest ∧ front.length ≤ 8 ∧ takeMin flags front = some (min, []) := by
  unfold takeMin at h ⊢
  split at h
  · rename_i habsent
    cases h
    exact ⟨[], rfl, Nat.zero_le _, if_pos habsent⟩
  · rename_i habsent
    split at h
    · cases h
    · rename_i hlen
      cases h
      have hfront : (bs.take 8).length = 8 := by
        rw [List.length_take]
        omega
      refine ⟨bs.take 8, (List.take_append_drop 8 bs).symm, hfront.le, ?_⟩
      rw [if_neg habsent, if_neg (by omega), List.take_take, Nat.min_self,
        List.drop_eq_nil_of_le hfront.le]

theorem decode_eq_some {bs rest : Bytes} {header : Header} (h : decode bs = some (header, rest)) :
    header.mantissa ≤ 64 ∧ ∃ front, bs = front ++ rest ∧ front.length ≤ 10 ∧
      decode front = some (header, []) := by
  cases bs with
  | nil => cases h
  | cons flags bs =>
    obtain ⟨⟨exponent, mantissa, bs'⟩, hshape, h⟩ := Option.bind_eq_some_iff.mp h
    obtain ⟨⟨min, bs''⟩, hmin, h⟩ := Option.bind_eq_some_iff.mp h
    obtain ⟨u, hguard, h⟩ := Option.bind_eq_some_iff.mp h
    cases h
    obtain ⟨shape, rfl, hshapeLength, hfront⟩ := takeShape_eq_some hshape
    obtain ⟨least, rfl, hminLength, hmin⟩ := takeMin_eq_some hmin
    refine ⟨?_, flags :: (shape ++ least), by simp, ?_, ?_⟩
    · by_contra hlarge
      simp [guard, hlarge] at hguard
    · rw [List.length_cons, List.length_append]
      omega
    · have hboth := takeShape_append least hfront
      simp only [decode, hboth, List.nil_append, hmin, Option.bind_eq_bind, Option.bind_some, hguard]
      rfl

theorem length_ringSizes (header : Header) :
    header.ringSizes.length =
      if header.mantissa = 0 then 1 else header.mantissa / 2 + header.mantissa % 2 := by
  unfold ringSizes
  split
  · rfl
  · rw [List.length_append, List.length_replicate]
    rcases Nat.mod_two_eq_zero_or_one header.mantissa with h | h <;> simp [h]

theorem sum_ringSizes (header : Header) :
    header.ringSizes.sum =
      if header.mantissa = 0 then 1 else 4 * (header.mantissa / 2) + 2 * (header.mantissa % 2) := by
  unfold ringSizes
  split
  · rfl
  · rw [List.sum_append, List.sum_replicate, smul_eq_mul, Nat.mul_comm]
    rcases Nat.mod_two_eq_zero_or_one header.mantissa with h | h <;> simp [h]

end Header

/-- Whether the second coordinate of a point inside a proof is no square. -/
def signOf (item : Bytes) : Bool := item.headD 0 = 1

theorem signOf_cons (sign : Bool) (x : Bytes) : signOf ((if sign then 1 else 0) :: x) = sign := by
  cases sign <;> rfl

/-- The bytes of a point inside a proof, and the point. -/
structure Denotes (item : Bytes) (p : Point) : Prop where
  exists_eq : ∃ (sign : Bool) (x : Bytes) (q : Point), item = (if sign then 1 else 0) :: x ∧
    x.length = 32 ∧ (Field.ofBytes? (.fit x)).bind Point.ofSquareY? = some q ∧
    p = if sign then -q else q

namespace Denotes

variable {item : Bytes} {p q : Point}

theorem length_eq (h : Denotes item p) : item.length = 33 := by
  obtain ⟨sign, x, q, rfl, hx, -, -⟩ := h.exists_eq
  rw [List.length_cons, hx]

theorem isOnCurve (h : Denotes item p) : p.IsOnCurve := by
  obtain ⟨sign, x, q, -, -, hq, rfl⟩ := h.exists_eq
  obtain ⟨x', -, hq⟩ := Option.bind_eq_some_iff.mp hq
  obtain ⟨y, rfl, hon, -⟩ := Point.ofSquareY?_eq_some_iff.mp hq
  cases sign with
  | false => exact hon
  | true => exact Point.isOnCurve_neg hon

theorem eq (hp : Denotes item p) (hq : Denotes item q) : p = q := by
  obtain ⟨sign, x, p', rfl, -, hp', rfl⟩ := hp.exists_eq
  obtain ⟨sign', x', q', hitem, -, hq', rfl⟩ := hq.exists_eq
  have hsign := congrArg signOf hitem
  rw [signOf_cons, signOf_cons] at hsign
  obtain ⟨-, rfl⟩ := List.cons.inj hitem
  rw [hsign, Option.some.inj (hp'.symm.trans hq')]

theorem isOnCurve_of_mem {items : List Bytes} {points : List Point}
    (h : List.Forall₂ Denotes items points) : ∀ p ∈ points, p.IsOnCurve := by
  induction h with
  | nil => simp
  | cons hitem _ ih => exact List.forall_mem_cons.mpr ⟨hitem.isOnCurve, ih⟩

theorem map_length {items : List Bytes} {points : List Point}
    (h : List.Forall₂ Denotes items points) :
    items.map List.length = List.replicate items.length 33 := by
  induction h with
  | nil => rfl
  | cons hitem _ ih => rw [List.map_cons, hitem.length_eq, ih, List.length_cons, List.replicate_succ]

theorem length_flatten {items : List Bytes} {points : List Point}
    (h : List.Forall₂ Denotes items points) :
    (items.map (List.drop 1)).flatten.length = 32 * items.length := by
  induction h with
  | nil => rfl
  | cons hitem _ ih =>
    rw [List.map_cons, List.flatten_cons, List.length_append, ih, List.length_drop, hitem.length_eq,
      List.length_cons]
    omega

end Denotes

theorem Denotes.items_inj {items items' : List Bytes} {points points' : List Point}
    (h : List.Forall₂ Denotes items points) (h' : List.Forall₂ Denotes items' points')
    (hsigns : items.map signOf = items'.map signOf)
    (hrests : (items.map (List.drop 1)).flatten = (items'.map (List.drop 1)).flatten) :
    items = items' := by
  induction h generalizing items' points' with
  | nil => exact (List.map_eq_nil_iff.mp hsigns.symm).symm
  | cons hitem _ ih =>
    cases h' with
    | nil => cases hsigns
    | cons hitem' hitems' =>
      obtain ⟨sign, x, q, rfl, hx, -, -⟩ := hitem.exists_eq
      obtain ⟨sign', x', q', rfl, hx', -, -⟩ := hitem'.exists_eq
      obtain ⟨hsign, hsigns⟩ := List.cons.inj hsigns
      obtain ⟨hhead, hrests⟩ := List.append_inj hrests (hx.trans hx'.symm)
      rw [signOf_cons, signOf_cons] at hsign
      rw [hsign, show x = x' from hhead, ih hitems' hsigns hrests]

namespace Parts

theorem split?_eq_some {count : Nat} {bs front rest : Bytes}
    (h : split? count bs = some (front, rest)) : bs = front ++ rest ∧ front.length = count := by
  unfold split? at h
  split at h
  · cases h
  · rename_i hlen
    cases h
    refine ⟨(List.take_append_drop count bs).symm, ?_⟩
    rw [List.length_take]
    omega

theorem takePoints_eq_some {signs : List Bool} {bs rest : Bytes} {points : List (Bytes × Point)}
    (h : takePoints signs bs = some (points, rest)) :
    bs = ((points.map (·.1)).map (List.drop 1)).flatten ++ rest ∧
      (points.map (·.1)).map signOf = signs ∧
      List.Forall₂ Denotes (points.map (·.1)) (points.map (·.2)) := by
  induction signs generalizing bs points with
  | nil =>
    cases h
    exact ⟨rfl, rfl, .nil⟩
  | cons sign signs ih =>
    obtain ⟨⟨x, bs'⟩, hsplit, h⟩ := Option.bind_eq_some_iff.mp h
    obtain ⟨q, hq, h⟩ := Option.bind_eq_some_iff.mp h
    obtain ⟨⟨points', bs''⟩, hpoints, h⟩ := Option.bind_eq_some_iff.mp h
    cases h
    obtain ⟨rfl, hx⟩ := split?_eq_some hsplit
    obtain ⟨rfl, hsigns, hdenotes⟩ := ih hpoints
    refine ⟨?_, ?_, .cons ⟨sign, x, q, rfl, hx, hq, rfl⟩ hdenotes⟩
    · simp
    · rw [List.map_cons, List.map_cons, signOf_cons, hsigns]

theorem takeScalars_eq_some {count : Nat} {bs rest : Bytes} {scalars : List Scalar}
    (h : takeScalars count bs = some (scalars, rest)) :
    bs = (scalars.flatMap fun s ↦ s.toBytes.toList) ++ rest ∧ scalars.length = count := by
  induction count generalizing bs scalars with
  | zero =>
    cases h
    exact ⟨rfl, rfl⟩
  | succ count ih =>
    obtain ⟨⟨b, bs'⟩, hsplit, h⟩ := Option.bind_eq_some_iff.mp h
    obtain ⟨s, hs, h⟩ := Option.bind_eq_some_iff.mp h
    obtain ⟨⟨scalars', bs''⟩, hscalars, h⟩ := Option.bind_eq_some_iff.mp h
    cases h
    obtain ⟨rfl, hb⟩ := split?_eq_some hsplit
    obtain ⟨rfl, hlength⟩ := ih hscalars
    have hbytes : s.toBytes.toList = b := by
      rw [← Scalar.ofBytes?_eq_some_iff.mp hs, FixedBytes.toList_fit hb]
    refine ⟨?_, by rw [List.length_cons, hlength]⟩
    rw [List.flatMap_cons, hbytes, List.append_assoc]

theorem takeRings_eq_some {sizes : List Nat} {bs rest : Bytes} {rings : List (List Scalar)}
    (h : takeRings sizes bs = some (rings, rest)) :
    bs = (rings.flatten.flatMap fun s ↦ s.toBytes.toList) ++ rest ∧
      rings.map List.length = sizes := by
  induction sizes generalizing bs rings with
  | nil =>
    cases h
    exact ⟨rfl, rfl⟩
  | cons size sizes ih =>
    obtain ⟨⟨ring, bs'⟩, hring, h⟩ := Option.bind_eq_some_iff.mp h
    obtain ⟨⟨rings', bs''⟩, hrings, h⟩ := Option.bind_eq_some_iff.mp h
    cases h
    obtain ⟨rfl, hsize⟩ := takeScalars_eq_some hring
    obtain ⟨rfl, hsizes⟩ := ih hrings
    refine ⟨?_, by rw [List.map_cons, hsize, hsizes]⟩
    rw [List.flatten_cons, List.flatMap_append, List.append_assoc]

theorem byteBits_injective : Function.Injective byteBits := by
  intro a b h
  refine UInt8.toNat_inj.mp (Nat.eq_of_testBit_eq fun i ↦ ?_)
  by_cases hi : i < 8
  · have hbit := congrArg (·[i]?) h
    simpa [byteBits, hi] using hbit
  · have hpow : 2 ^ 8 ≤ 2 ^ i := Nat.pow_le_pow_right (by decide) (by omega)
    rw [Nat.testBit_lt_two_pow (a.toNat_lt.trans_le hpow),
      Nat.testBit_lt_two_pow (b.toNat_lt.trans_le hpow)]

/-- The spare bits are zero, so the bytes of the signs are no freer than the signs. -/
theorem unpackSigns_inj {count : Nat} {a b : Bytes} {signs : List Bool}
    (hlength : a.length = b.length) (ha : unpackSigns count a = some signs)
    (hb : unpackSigns count b = some signs) : a = b := by
  have hsplit : ∀ bs, unpackSigns count bs = some signs →
      bs.flatMap byteBits = signs ++ List.replicate (8 * bs.length - count) false := by
    intro bs h
    change (if ((bs.flatMap byteBits).drop count).any id then none
      else some ((bs.flatMap byteBits).take count)) = _ at h
    split at h
    · cases h
    · rename_i hspare
      cases h
      have hzero : (bs.flatMap byteBits).drop count =
          List.replicate (8 * bs.length - count) false := by
        refine List.eq_replicate_iff.mpr ⟨?_, fun bit hbit ↦ ?_⟩
        · rw [List.length_drop, List.length_flatMap]
          simp [byteBits, Nat.mul_comm]
        · by_contra hne
          exact hspare (List.any_eq_true.mpr ⟨bit, hbit, by simpa using hne⟩)
      rw [← hzero, List.take_append_drop]
  refine flatMap_inj (n := 8) byteBits_injective (by simp [byteBits]) hlength ?_
  rw [hsplit a ha, hsplit b hb, hlength]

/-- The rings but the last, each of which has a point of its own. -/
def pointCount (parts : Parts) : Nat := parts.ringSizes.length - 1

def front (parts : Parts) (signs : Bytes) : Bytes :=
  parts.headerBytes ++ signs ++ (parts.pointBytes.map (List.drop 1)).flatten

def tail (parts : Parts) : Bytes :=
  parts.responses.flatten.flatMap fun s ↦ s.toBytes.toList

/-- A proof as it is written, with the bytes of its signs. -/
structure Written (parts : Parts) (signs : Bytes) (bs : Bytes) : Prop where
  bytes_eq : bs = parts.front signs ++ (parts.start.toList ++ parts.tail)
  decode_eq : Header.decode parts.headerBytes = some (parts.header, [])
  length_headerBytes : parts.headerBytes.length ≤ 10
  mantissa_le : parts.header.mantissa ≤ 64
  length_signs : signs.length = (parts.pointCount + 7) / 8
  unpack_eq : unpackSigns parts.pointCount signs = some (parts.pointBytes.map signOf)
  length_pointBytes : parts.pointBytes.length = parts.pointCount
  denotes : List.Forall₂ Denotes parts.pointBytes parts.points
  map_length_responses : parts.responses.map List.length = parts.ringSizes

theorem length_unpackSigns {count : Nat} {bs : Bytes} {signs : List Bool}
    (hlength : bs.length = (count + 7) / 8) (h : unpackSigns count bs = some signs) :
    signs.length = count := by
  change (if ((bs.flatMap byteBits).drop count).any id then none
    else some ((bs.flatMap byteBits).take count)) = _ at h
  split at h
  · cases h
  · cases h
    have hbits : (bs.flatMap byteBits).length = 8 * bs.length := by
      rw [List.length_flatMap]
      simp [byteBits, Nat.mul_comm]
    rw [List.length_take, hbits]
    omega

/-- A proof that is read can be written again. -/
theorem exists_written {bs : Bytes} {parts : Parts} (h : ofBytes? bs = some parts) :
    ∃ signs, parts.Written signs bs := by
  obtain ⟨⟨header, rest⟩, hheader, h⟩ := Option.bind_eq_some_iff.mp h
  obtain ⟨⟨signBytes, body⟩, hsplit, h⟩ := Option.bind_eq_some_iff.mp h
  obtain ⟨signs, hsigns, h⟩ := Option.bind_eq_some_iff.mp h
  obtain ⟨⟨points, body₁⟩, hpoints, h⟩ := Option.bind_eq_some_iff.mp h
  obtain ⟨⟨start, body₂⟩, hstart, h⟩ := Option.bind_eq_some_iff.mp h
  obtain ⟨⟨responses, body₃⟩, hrings, h⟩ := Option.bind_eq_some_iff.mp h
  obtain ⟨u, hguard, h⟩ := Option.bind_eq_some_iff.mp h
  obtain ⟨hmantissa, headerBytes, rfl, hheaderLength, hdecode⟩ := Header.decode_eq_some hheader
  have hparts : parts = ⟨header, (headerBytes ++ rest).take ((headerBytes ++ rest).length - rest.length),
      points.map (·.1), points.map (·.2), .fit start, responses⟩ := (Option.some.inj h).symm
  rw [List.length_append, Nat.add_sub_cancel, List.take_left] at hparts
  subst hparts
  obtain ⟨rfl, hsignsLength⟩ := split?_eq_some hsplit
  obtain ⟨rfl, hsignOf, hdenotes⟩ := takePoints_eq_some hpoints
  obtain ⟨rfl, hstartLength⟩ := split?_eq_some hstart
  obtain ⟨rfl, hsizes⟩ := takeRings_eq_some hrings
  rw [← hsignOf] at hsigns
  have hcount := length_unpackSigns hsignsLength hsigns
  rw [List.length_map] at hcount
  have hbody : body₃ = [] := by
    by_contra hne
    simp [guard, hne] at hguard
  subst hbody
  refine ⟨signBytes, ?_, hdecode, hheaderLength, hmantissa, hsignsLength, hsigns, hcount, hdenotes,
    hsizes⟩
  simp [front, tail, FixedBytes.toList_fit hstartLength]

theorem length_tail (parts : Parts) :
    parts.tail.length = 32 * (parts.responses.map List.length).sum := by
  rw [tail, length_flatMap_toBytes, List.length_flatten]

def startPosition (parts : Parts) : Nat :=
  parts.headerBytes.length + (parts.pointCount + 7) / 8 + 32 * parts.pointCount

namespace Written

variable {a b : Parts} {s t bs cs : Bytes}

theorem length_front (h : a.Written s bs) : (a.front s).length = a.startPosition := by
  rw [front, List.length_append, List.length_append, Denotes.length_flatten h.denotes,
    h.length_signs, h.length_pointBytes, startPosition]

theorem length_eq (h : a.Written s bs) :
    bs.length = a.startPosition + 32 + 32 * a.ringSizes.sum := by
  rw [h.bytes_eq, List.length_append, List.length_append, h.length_front, a.start.length_toList,
    length_tail, h.map_length_responses]
  omega

/-- Header and signs have less than 32 bytes, and everything else comes in blocks of 32, so the
number of blocks tells the mantissa. -/
theorem layout_eq (ha : a.Written s bs) (hb : b.Written t cs) (hlength : bs.length = cs.length) :
    a.headerBytes.length = b.headerBytes.length ∧ a.ringSizes = b.ringSizes := by
  have hlengthA := ha.length_eq
  have hlengthB := hb.length_eq
  have hheaderA := ha.length_headerBytes
  have hheaderB := hb.length_headerBytes
  have hmantissaA := ha.mantissa_le
  have hmantissaB := hb.mantissa_le
  simp only [startPosition, pointCount, ringSizes, Header.length_ringSizes,
    Header.sum_ringSizes] at hlengthA hlengthB
  have hmantissa : a.header.mantissa = b.header.mantissa := by
    split at hlengthA <;> split at hlengthB <;> omega
  rw [hmantissa] at hlengthA
  refine ⟨by omega, ?_⟩
  rw [ringSizes, ringSizes, Header.ringSizes, Header.ringSizes, hmantissa]

theorem startPosition_eq (ha : a.Written s bs) (hb : b.Written t cs)
    (hlength : bs.length = cs.length) : a.startPosition = b.startPosition := by
  obtain ⟨hheader, hsizes⟩ := ha.layout_eq hb hlength
  rw [startPosition, startPosition, pointCount, pointCount, hheader, hsizes]

/-- The bytes before the opening challenge are what the rings sign, in another form. -/
theorem front_eq_iff (ha : a.Written s bs) (hb : b.Written t cs) (hlength : bs.length = cs.length) :
    a.front s = b.front t ↔ a.headerBytes = b.headerBytes ∧ a.pointBytes = b.pointBytes := by
  obtain ⟨hheader, hsizes⟩ := ha.layout_eq hb hlength
  have hcount : a.pointCount = b.pointCount := by rw [pointCount, pointCount, hsizes]
  have hsigns : s.length = t.length := by rw [ha.length_signs, hb.length_signs, hcount]
  constructor
  · intro h
    rw [front, front, List.append_assoc, List.append_assoc] at h
    obtain ⟨hheaders, h⟩ := List.append_inj h hheader
    obtain ⟨rfl, hrests⟩ := List.append_inj h hsigns
    have hunpack := ha.unpack_eq
    rw [hcount, hb.unpack_eq, Option.some.injEq] at hunpack
    exact ⟨hheaders, Denotes.items_inj ha.denotes hb.denotes hunpack.symm hrests⟩
  · rintro ⟨hheaders, hpoints⟩
    have hunpack := ha.unpack_eq
    rw [hcount, hpoints] at hunpack
    rw [front, front, hheaders, hpoints, unpackSigns_inj hsigns hunpack hb.unpack_eq]

theorem header_eq (ha : a.Written s bs) (hb : b.Written t cs)
    (hheaders : a.headerBytes = b.headerBytes) : a.header = b.header := by
  have hdecode := ha.decode_eq
  rw [hheaders, hb.decode_eq, Option.some.injEq, Prod.mk.injEq] at hdecode
  exact hdecode.1.symm

theorem points_eq (ha : a.Written s bs) (hb : b.Written t cs)
    (hpoints : a.pointBytes = b.pointBytes) : a.points = b.points := by
  have hdenotes := ha.denotes
  rw [hpoints] at hdenotes
  have hunique : Relator.RightUnique Denotes := fun _ _ _ hp hq ↦ hp.eq hq
  exact hunique.forall₂ hdenotes hb.denotes

end Written

end Parts

end ConfidentialTx.RangeProof
