import Mathlib
import ConfidentialTx.RangeProof.Rewind

namespace ConfidentialTx.RangeProof

/-- Bytes that follow those that are read stay as they are, and change nothing. -/
def Steady {α : Type} (read : Bytes → Option (α × Bytes)) : Prop :=
  ∀ bs a rest more, read bs = some (a, rest) → read (bs ++ more) = some (a, rest ++ more)

namespace Header

theorem takeShape_append {flags : UInt8} {bs rest : Bytes} {exponent mantissa : Nat} (more : Bytes)
    (h : takeShape flags bs = some (exponent, mantissa, rest)) :
    takeShape flags (bs ++ more) = some (exponent, mantissa, rest ++ more) := by
  unfold takeShape at h ⊢
  split at h
  · rename_i hexact
    cases h
    rw [if_pos hexact]
  · rename_i hexact
    rw [if_neg hexact]
    cases bs with
    | nil => cases h
    | cons m bs =>
      cases h
      rfl

theorem steady_takeMin (flags : UInt8) : Steady (takeMin flags) := by
  intro bs min rest more h
  unfold takeMin at h ⊢
  split at h
  · rename_i habsent
    cases h
    rw [if_pos habsent]
  · rename_i habsent
    split at h
    · cases h
    · rename_i hlen
      cases h
      have hmore : ¬(bs ++ more).length < 8 := by
        rw [List.length_append]
        omega
      have htake : (bs ++ more).take 8 = bs.take 8 := List.take_append_of_le_length (by omega)
      have hdrop : (bs ++ more).drop 8 = bs.drop 8 ++ more :=
        List.drop_append_of_le_length (by omega)
      rw [if_neg habsent, if_neg hmore, htake, hdrop]

theorem steady_decode : Steady decode := by
  intro bs header rest more h
  cases bs with
  | nil => cases h
  | cons flags bs =>
    obtain ⟨⟨exponent, mantissa, bs'⟩, hshape, h⟩ := Option.bind_eq_some_iff.mp h
    obtain ⟨⟨min, bs''⟩, hmin, h⟩ := Option.bind_eq_some_iff.mp h
    obtain ⟨u, hguard, h⟩ := Option.bind_eq_some_iff.mp h
    cases h
    simp only [List.cons_append, decode, takeShape_append more hshape, Option.bind_eq_bind,
      Option.bind_some, steady_takeMin flags _ _ _ more hmin, hguard]
    rfl

end Header

namespace Parts

theorem steady_split? (count : Nat) : Steady (split? count) := by
  intro bs front rest more h
  unfold split? at h ⊢
  split at h
  · cases h
  · rename_i hlen
    cases h
    have hmore : ¬(bs ++ more).length < count := by
      rw [List.length_append]
      omega
    rw [if_neg hmore, List.take_append_of_le_length (by omega),
      List.drop_append_of_le_length (by omega)]

theorem steady_takePoints (signs : List Bool) : Steady (takePoints signs) := by
  induction signs with
  | nil =>
    intro bs points rest more h
    cases h
    rfl
  | cons sign signs ih =>
    intro bs points rest more h
    obtain ⟨⟨x, bs'⟩, hsplit, h⟩ := Option.bind_eq_some_iff.mp h
    obtain ⟨p, hp, h⟩ := Option.bind_eq_some_iff.mp h
    obtain ⟨⟨points', bs''⟩, hpoints, h⟩ := Option.bind_eq_some_iff.mp h
    cases h
    simp only [takePoints, steady_split? 32 _ _ _ more hsplit, Option.bind_eq_bind,
      Option.bind_some]
    rw [hp, Option.bind_some, ih _ _ _ more hpoints]
    rfl

theorem steady_takeScalars (count : Nat) : Steady (takeScalars count) := by
  induction count with
  | zero =>
    intro bs scalars rest more h
    cases h
    rfl
  | succ count ih =>
    intro bs scalars rest more h
    obtain ⟨⟨b, bs'⟩, hsplit, h⟩ := Option.bind_eq_some_iff.mp h
    obtain ⟨s, hs, h⟩ := Option.bind_eq_some_iff.mp h
    obtain ⟨⟨scalars', bs''⟩, hscalars, h⟩ := Option.bind_eq_some_iff.mp h
    cases h
    simp only [takeScalars, steady_split? 32 _ _ _ more hsplit, Option.bind_eq_bind,
      Option.bind_some, hs, ih _ _ _ more hscalars]
    rfl

theorem steady_takeRings (sizes : List Nat) : Steady (takeRings sizes) := by
  induction sizes with
  | nil =>
    intro bs rings rest more h
    cases h
    rfl
  | cons size sizes ih =>
    intro bs rings rest more h
    obtain ⟨⟨ring, bs'⟩, hring, h⟩ := Option.bind_eq_some_iff.mp h
    obtain ⟨⟨rings', bs''⟩, hrings, h⟩ := Option.bind_eq_some_iff.mp h
    cases h
    simp only [takeRings, steady_takeScalars size _ _ _ more hring, Option.bind_eq_bind,
      Option.bind_some, ih _ _ _ more hrings]
    rfl

/-- The layout is settled by the header, so the bytes after a proof are what is left over. -/
theorem eq_nil_of_ofBytes? {bs more : Bytes} {parts parts' : Parts}
    (h : ofBytes? bs = some parts) (h' : ofBytes? (bs ++ more) = some parts') : more = [] := by
  obtain ⟨⟨header, rest⟩, hheader, h⟩ := Option.bind_eq_some_iff.mp h
  obtain ⟨⟨signBytes, body⟩, hsplit, h⟩ := Option.bind_eq_some_iff.mp h
  obtain ⟨signs, hsigns, h⟩ := Option.bind_eq_some_iff.mp h
  obtain ⟨⟨points, body₁⟩, hpoints, h⟩ := Option.bind_eq_some_iff.mp h
  obtain ⟨⟨start, body₂⟩, hstart, h⟩ := Option.bind_eq_some_iff.mp h
  obtain ⟨⟨responses, body₃⟩, hrings, h⟩ := Option.bind_eq_some_iff.mp h
  obtain ⟨u, hguard, -⟩ := Option.bind_eq_some_iff.mp h
  have hbody : body₃ = [] := by
    by_contra hne
    simp [guard, hne] at hguard
  simp only [ofBytes?, Header.steady_decode _ _ _ more hheader, Option.bind_eq_bind,
    Option.bind_some, steady_split? _ _ _ _ more hsplit, hsigns,
    steady_takePoints signs _ _ _ more hpoints, steady_split? 32 _ _ _ more hstart,
    steady_takeRings _ _ _ _ more hrings] at h'
  obtain ⟨u', hguard', -⟩ := Option.bind_eq_some_iff.mp h'
  by_contra hne
  simp [guard, hbody, hne] at hguard'

end Parts

/-- Two sizes of one buffer are never both those of proofs. -/
theorem size_eq_of_ofBytes? {a b : RangeProof} (hbuffer : a.buffer = b.buffer)
    (ha : a.size ≤ maxSize) (hb : b.size ≤ maxSize) {parts parts' : Parts}
    (h : Parts.ofBytes? a.bytes = some parts) (h' : Parts.ofBytes? b.bytes = some parts') :
    a.size = b.size := by
  wlog hle : a.size ≤ b.size generalizing a b parts parts'
  · exact (this hbuffer.symm hb ha h' h (by omega)).symm
  have hlength := b.buffer.length_toList
  have hsplit : b.bytes = a.bytes ++ (b.buffer.toList.take b.size).drop a.size := by
    rw [bytes, bytes, hbuffer]
    conv_lhs => rw [← List.take_append_drop a.size (b.buffer.toList.take b.size)]
    rw [List.take_take, Nat.min_eq_left hle]
  rw [hsplit] at h'
  have hnil := congrArg List.length (Parts.eq_nil_of_ofBytes? h h')
  rw [List.length_drop, List.length_take, hlength, List.length_nil] at hnil
  unfold maxSize at hb
  omega

end ConfidentialTx.RangeProof
