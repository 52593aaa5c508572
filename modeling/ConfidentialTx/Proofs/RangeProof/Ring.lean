import Mathlib
import ConfidentialTx.RangeProof.Ring
import ConfidentialTx.Proofs.Curve.Order
import ConfidentialTx.Proofs.Results

namespace ConfidentialTx.RangeProof

variable {digest start : FixedBytes 32} {ring : Nat}

theorem follow_cons {place : Nat} {link next last : Bytes} {key : Point} {response e : Scalar}
    {es : List Scalar} {rest : List (Point × Scalar)}
    (hchallenge : challenge digest ring place link = some e)
    (hrespond : respond e key response = some next)
    (hrest : follow digest ring (place + 1) next rest = some (es, last)) :
    follow digest ring place link ((key, response) :: rest) = some (e :: es, last) := by
  simp only [follow, hchallenge, hrespond, hrest, Option.bind_eq_bind, Option.bind_some]
  rfl

theorem follow_append {place : Nat} {link middle last : Bytes} {front back : List (Point × Scalar)}
    {es es' : List Scalar} (hfront : follow digest ring place link front = some (es, middle))
    (hback : follow digest ring (place + front.length) middle back = some (es', last)) :
    follow digest ring place link (front ++ back) = some (es ++ es', last) := by
  induction front generalizing place link es with
  | nil =>
    cases hfront
    exact hback
  | cons pair front ih =>
    obtain ⟨key, response⟩ := pair
    obtain ⟨e, hchallenge, h⟩ := Option.bind_eq_some_iff.mp hfront
    obtain ⟨next, hrespond, h⟩ := Option.bind_eq_some_iff.mp h
    obtain ⟨⟨es₁, middle₁⟩, hrest, h⟩ := Option.bind_eq_some_iff.mp h
    cases h
    rw [List.length_cons, Nat.add_comm front.length, ← Nat.add_assoc] at hback
    exact follow_cons hchallenge hrespond (ih hrest hback)

theorem length_follow {place : Nat} {link last : Bytes} {pairs : List (Point × Scalar)}
    {es : List Scalar} (h : follow digest ring place link pairs = some (es, last)) :
    es.length = pairs.length := by
  induction pairs generalizing place link es with
  | nil =>
    cases h
    rfl
  | cons pair pairs ih =>
    obtain ⟨key, response⟩ := pair
    obtain ⟨e, -, h⟩ := Option.bind_eq_some_iff.mp h
    obtain ⟨next, -, h⟩ := Option.bind_eq_some_iff.mp h
    obtain ⟨⟨es', last'⟩, hrest, h⟩ := Option.bind_eq_some_iff.mp h
    cases h
    exact congrArg (· + 1) (ih hrest)

theorem challenge_ne_zero {place : Nat} {link : Bytes} {e : Scalar}
    (h : challenge digest ring place link = some e) : e ≠ 0 := by
  simpa using (Option.filter_eq_some_iff.mp h).2

/-- The owner's response turns the challenge into the chosen link. -/
theorem respond_secret {e secret nonce : Scalar} (hsecret : secret ≠ 0)
    (hresponse : nonce - e * secret ≠ 0) :
    respond e (Generator.base.mul secret) (nonce - e * secret) =
      linkOf (Generator.base.mul nonce) := by
  have hkey : Generator.base.mul secret ≠ 0 := by
    rw [← CurveGroup.ofGroup_base, Point.mul_eq_smul, ne_eq, Point.ofGroup_eq_zero, smul_eq_zero,
      not_or, Residue.toZMod_eq_zero]
    exact ⟨hsecret, CurveGroup.base_ne_zero⟩
  rw [respond, if_neg (not_or.mpr ⟨hkey, hresponse⟩)]
  congr 1
  rw [← CurveGroup.ofGroup_base, Point.mul_eq_smul, Point.mul_eq_smul, Point.mulAdd_eq_smul,
    Residue.toZMod_sub, Residue.toZMod_mul]
  congr 1
  module

namespace OwnedRing

/-- The secret is that of the key at the owner's place, and each key has a response. -/
structure Owned (r : OwnedRing) : Prop where
  length_eq : r.keys.length = r.responses.length
  key_eq : r.keys[r.place]? = some (Generator.base.mul r.secret)
  secret_ne_zero : r.secret ≠ 0

theorem zip_set {r : OwnedRing} (h : r.Owned) (response : Scalar) :
    r.keys.zip (r.responses.set r.place response) =
      (r.keys.zip r.responses).take r.place ++ (Generator.base.mul r.secret, response) ::
        (r.keys.zip r.responses).drop (r.place + 1) := by
  obtain ⟨hplace, hkey⟩ := List.getElem?_eq_some_iff.mp h.key_eq
  have hset : r.keys.zip (r.responses.set r.place response) =
      (r.keys.zip r.responses).set r.place (Generator.base.mul r.secret, response) := by
    refine List.ext_getElem (by simp) fun i hi hi' ↦ ?_
    by_cases hi : r.place = i
    · subst hi
      simp [hkey]
    · simp [List.getElem_set_ne hi]
  have hlen : r.place < (r.keys.zip r.responses).length := by
    rw [List.length_zip, ← h.length_eq, min_self]
    exact hplace
  rw [hset, List.set_eq_take_append_cons_drop, if_pos hlen]

/-- Challenges and responses of a ring that its owner has closed. -/
structure Closes (r : OwnedRing) (es responses : List Scalar) : Prop where
  length_eq : es.length = r.keys.length
  answers : ∃ e, es[r.place]? = some e ∧ e ≠ 0 ∧
    responses = r.responses.set r.place (r.nonce - e * r.secret)

theorem follow_of_close {r : OwnedRing} (h : r.Owned) {last : Bytes} {responses : List Scalar}
    (hfinish : r.finish digest ring = some last)
    (hclose : r.close digest start ring = some responses) :
    ∃ es, follow digest ring 0 start.toList (r.keys.zip responses) = some (es, last) ∧
      r.Closes es responses := by
  obtain ⟨chosen, hchosen, hfinish⟩ := Option.bind_eq_some_iff.mp hfinish
  obtain ⟨⟨es', last'⟩, hlater, hlast⟩ := Option.bind_eq_some_iff.mp hfinish
  cases hlast
  obtain ⟨⟨es, link⟩, hearlier, hclose⟩ := Option.bind_eq_some_iff.mp hclose
  obtain ⟨e, hchallenge, hclose⟩ := Option.bind_eq_some_iff.mp hclose
  obtain ⟨_, hguard, hclose⟩ := Option.bind_eq_some_iff.mp hclose
  cases hclose
  have hresponse : r.nonce - e * r.secret ≠ 0 := by
    by_contra hzero
    simp [hzero] at hguard
  have hrespond := (respond_secret h.secret_ne_zero hresponse).trans hchosen
  have hlen : ((r.keys.zip r.responses).take r.place).length = r.place := by
    obtain ⟨hplace, -⟩ := List.getElem?_eq_some_iff.mp h.key_eq
    rw [List.length_take, List.length_zip, ← h.length_eq, min_self]
    omega
  have hfollow : follow digest ring 0 start.toList
      (r.keys.zip (r.responses.set r.place (r.nonce - e * r.secret))) =
        some (es ++ e :: es', last') := by
    rw [zip_set h]
    refine follow_append hearlier ?_
    rw [hlen, Nat.zero_add]
    exact follow_cons hchallenge hrespond hlater
  refine ⟨es ++ e :: es', hfollow, ?_, e, ?_, challenge_ne_zero hchallenge, rfl⟩
  · rw [length_follow hfollow, List.length_zip, List.length_set, ← h.length_eq, min_self]
  · rw [List.getElem?_append_right (by rw [length_follow hearlier, hlen]), length_follow hearlier,
      hlen, Nat.sub_self, List.getElem?_cons_zero]

end OwnedRing

def closed (rings : List OwnedRing) (responses : List (List Scalar)) :
    List (List (Point × Scalar)) :=
  (rings.zip responses).map fun (r, responses) ↦ r.keys.zip responses

theorem exists_walks {rings : List OwnedRing} (howned : ∀ r ∈ rings, r.Owned) (count : Nat)
    {ends : List Bytes} {responses : List (List Scalar)}
    (hends : (rings.zipIdx count).mapM (fun (r, i) ↦ r.finish digest i) = some ends)
    (hresponses : (rings.zipIdx count).mapM (fun (r, i) ↦ r.close digest start i) =
      some responses) :
    ∃ walks, ((closed rings responses).zipIdx count).mapM
        (fun (r, i) ↦ follow digest i 0 start.toList r) = some walks ∧
      walks.map (·.2) = ends ∧
      ∀ (i : Nat) (r : OwnedRing), rings[i]? = some r → ∃ es rs, (walks.map (·.1))[i]? = some es ∧
        responses[i]? = some rs ∧ r.Closes es rs := by
  induction rings generalizing count ends responses with
  | nil =>
    cases hends
    exact ⟨[], rfl, rfl, by simp⟩
  | cons r rings ih =>
    obtain ⟨hr, hrings⟩ := List.forall_mem_cons.mp howned
    rw [List.zipIdx_cons] at hends hresponses
    obtain ⟨last, lasts, hlast, hlasts, rfl⟩ := mapM_cons_eq_some hends
    obtain ⟨response, others, hresponse, hothers, rfl⟩ := mapM_cons_eq_some hresponses
    obtain ⟨walks, hwalks, hmap, hcloses⟩ := ih hrings (count + 1) hlasts hothers
    obtain ⟨es, hfollow, hes⟩ := OwnedRing.follow_of_close hr hlast hresponse
    refine ⟨(es, last) :: walks, ?_, by rw [List.map_cons, hmap], ?_⟩
    · change (((r.keys.zip response, count) :: (closed rings others).zipIdx (count + 1)).mapM
        fun (r, i) ↦ follow digest i 0 start.toList r) = _
      rw [List.mapM_cons]
      simp only [hfollow, hwalks]
      rfl
    · intro i r' hi
      cases i with
      | zero =>
        cases hi
        exact ⟨es, response, rfl, rfl, hes⟩
      | succ i => exact hcloses i r' hi

/-- What the owners of rings open and close is verified. -/
theorem verifyRings_closed {rings : List OwnedRing} (howned : ∀ r ∈ rings, r.Owned)
    {responses : List (List Scalar)} (hopen : openRings digest rings = some start)
    (hclose : closeRings digest start rings = some responses) :
    ∃ es, verifyRings digest start (closed rings responses) = some es ∧
      ∀ (i : Nat) (r : OwnedRing), rings[i]? = some r → ∃ es' rs, es[i]? = some es' ∧ responses[i]? = some rs ∧
        r.Closes es' rs := by
  obtain ⟨ends, hends, hstart⟩ := Option.bind_eq_some_iff.mp hopen
  obtain ⟨walks, hwalks, hmap, hcloses⟩ := exists_walks howned 0 hends hclose
  refine ⟨walks.map (·.1), ?_, hcloses⟩
  have hopening : opening digest (walks.map (·.2)) = start := by
    rw [hmap]
    exact Option.some.inj hstart
  unfold verifyRings
  rw [hwalks]
  simp [hopening]

end ConfidentialTx.RangeProof
