import Mathlib
import ConfidentialTx.Proofs.RangeProof.Written

namespace ConfidentialTx

/-- Lists that differ at one place, by items that are related. -/
inductive DifferOnce {α : Type} (R : α → α → Prop) : List α → List α → Prop
  | here {a b : α} {as : List α} : R a b → DifferOnce R (a :: as) (b :: as)
  | there {a : α} {as bs : List α} : DifferOnce R as bs → DifferOnce R (a :: as) (a :: bs)

namespace DifferOnce

variable {α β : Type} {R : α → α → Prop} {S : β → β → Prop} {as bs : List α}

theorem length_eq (h : DifferOnce R as bs) : as.length = bs.length := by
  induction h with
  | here _ => rfl
  | there _ ih => exact congrArg (· + 1) ih

theorem set {i : Nat} {a b : α} (ha : as[i]? = some a) (hab : a ≠ b) :
    DifferOnce (· ≠ ·) as (as.set i b) := by
  induction as generalizing i with
  | nil => cases ha
  | cons a' as ih =>
    cases i with
    | zero =>
      cases ha
      exact .here hab
    | succ i => exact .there (ih ha)

theorem of_append {xs ys : List α} (hlength : xs.length = ys.length)
    (h : DifferOnce R (xs ++ as) (ys ++ bs)) :
    DifferOnce R xs ys ∧ as = bs ∨ xs = ys ∧ DifferOnce R as bs := by
  induction xs generalizing ys with
  | nil =>
    obtain rfl := List.eq_nil_of_length_eq_zero hlength.symm
    exact .inr ⟨rfl, h⟩
  | cons x xs ih =>
    cases ys with
    | nil => cases hlength
    | cons y ys =>
      generalize hfront : (x :: xs) ++ as = front at h
      generalize hback : (y :: ys) ++ bs = back at h
      cases h with
      | here hxy =>
        obtain ⟨rfl, rfl⟩ := List.cons.inj hfront
        obtain ⟨rfl, hrest⟩ := List.cons.inj hback
        obtain ⟨rfl, rfl⟩ := List.append_inj hrest.symm (Nat.succ.inj hlength)
        exact .inl ⟨.here hxy, rfl⟩
      | there h =>
        obtain ⟨rfl, rfl⟩ := List.cons.inj hfront
        obtain ⟨rfl, rfl⟩ := List.cons.inj hback
        rcases ih (Nat.succ.inj hlength) h with ⟨hxs, hrest⟩ | ⟨hxs, hrest⟩
        · exact .inl ⟨.there hxs, hrest⟩
        · exact .inr ⟨congrArg _ hxs, hrest⟩

theorem ne (h : DifferOnce (· ≠ ·) as bs) : as ≠ bs := by
  induction h with
  | here hab => exact fun heq ↦ hab (List.cons.inj heq).1
  | there _ ih => exact fun heq ↦ ih (List.cons.inj heq).2

/-- Items that are written in one length are told apart where their bytes are. -/
theorem of_flatMap {f : β → List α} {n : Nat} (hf : Function.Injective f)
    (hlen : ∀ b, (f b).length = n) {xs ys : List β} (hlength : xs.length = ys.length)
    (h : DifferOnce (· ≠ ·) (xs.flatMap f) (ys.flatMap f)) : DifferOnce (· ≠ ·) xs ys := by
  induction xs generalizing ys with
  | nil =>
    obtain rfl := List.eq_nil_of_length_eq_zero hlength.symm
    cases h
  | cons x xs ih =>
    cases ys with
    | nil => cases hlength
    | cons y ys =>
      have hrest := Nat.succ.inj hlength
      rcases of_append ((hlen x).trans (hlen y).symm) h with ⟨hxy, heq⟩ | ⟨hxy, h⟩
      · rw [RangeProof.flatMap_inj hf hlen hrest heq]
        exact .here fun heq ↦ hxy.ne (congrArg f heq)
      · rw [hf hxy]
        exact .there (ih hrest h)

theorem of_flatten {xs ys : List (List α)} (hlength : xs.map List.length = ys.map List.length)
    (h : DifferOnce R xs.flatten ys.flatten) : DifferOnce (DifferOnce R) xs ys := by
  induction xs generalizing ys with
  | nil =>
    obtain rfl := List.map_eq_nil_iff.mp hlength.symm
    cases h
  | cons x xs ih =>
    cases ys with
    | nil => cases hlength
    | cons y ys =>
      obtain ⟨hxy, hrest⟩ := List.cons.inj hlength
      rcases of_append hxy h with ⟨hdiffer, heq⟩ | ⟨heq, hdiffer⟩
      · rw [List.eq_iff_flatten_eq.mpr ⟨heq, hrest⟩]
        exact .here hdiffer
      · rw [heq]
        exact .there (ih hrest hdiffer)

theorem flatten_ne {xs ys : List (List α)} (h : DifferOnce (· ≠ ·) xs ys) :
    xs.flatten ≠ ys.flatten := by
  induction h with
  | here hxy => exact fun heq ↦ hxy (List.append_cancel_right heq)
  | there _ ih => exact fun heq ↦ ih (List.append_cancel_left heq)

theorem map {f : α → β} (h : DifferOnce R as bs)
    (hf : ∀ a ∈ as, ∀ b ∈ bs, R a b → S (f a) (f b)) : DifferOnce S (as.map f) (bs.map f) := by
  induction h with
  | here hab => exact .here (hf _ (List.mem_cons_self ..) _ (List.mem_cons_self ..) hab)
  | there _ ih =>
    exact .there (ih fun a ha b hb ↦ hf a (List.mem_cons_of_mem _ ha) b (List.mem_cons_of_mem _ hb))

theorem mapM {f : α → Option β} (h : DifferOnce R as bs) {xs ys : List β}
    (hxs : as.mapM f = some xs) (hys : bs.mapM f = some ys)
    (hf : ∀ a ∈ as, ∀ b ∈ bs, R a b → ∀ x y, f a = some x → f b = some y → S x y) :
    DifferOnce S xs ys := by
  induction h generalizing xs ys with
  | here hab =>
    obtain ⟨x, xs, hx, hrest, rfl⟩ := mapM_cons_eq_some hxs
    obtain ⟨y, ys, hy, hrest', rfl⟩ := mapM_cons_eq_some hys
    obtain rfl := Option.some.inj (hrest.symm.trans hrest')
    exact .here (hf _ (List.mem_cons_self ..) _ (List.mem_cons_self ..) hab x y hx hy)
  | there _ ih =>
    obtain ⟨x, xs, hx, hrest, rfl⟩ := mapM_cons_eq_some hxs
    obtain ⟨y, ys, hy, hrest', rfl⟩ := mapM_cons_eq_some hys
    obtain rfl := Option.some.inj (hx.symm.trans hy)
    refine .there (ih hrest hrest' fun a ha b hb ↦ ?_)
    exact hf a (List.mem_cons_of_mem _ ha) b (List.mem_cons_of_mem _ hb)

theorem zip (h : DifferOnce R as bs) {ks : List β} (hlength : as.length ≤ ks.length) :
    DifferOnce (fun x y ↦ x.1 = y.1 ∧ R x.2 y.2) (ks.zip as) (ks.zip bs) := by
  induction h generalizing ks with
  | here hab =>
    cases ks with
    | nil => cases hlength
    | cons k ks => exact .here ⟨rfl, hab⟩
  | there _ ih =>
    cases ks with
    | nil => cases hlength
    | cons k ks => exact .there (ih (Nat.le_of_succ_le_succ hlength))

theorem zipIdx (h : DifferOnce R as bs) (count : Nat) :
    DifferOnce (fun x y ↦ x.2 = y.2 ∧ R x.1 y.1) (as.zipIdx count) (bs.zipIdx count) := by
  induction h generalizing count with
  | here hab => exact .here ⟨rfl, hab⟩
  | there _ ih => exact .there (ih (count + 1))

end DifferOnce

theorem Field.isOdd_neg {y : Field} (hy : y ≠ 0) : (-y).isOdd ≠ y.isOdd := by
  have hlt := y.val_lt
  have hpos : y.val ≠ 0 := fun h ↦ hy (Residue.ext h)
  have hodd : fieldOrder % 2 = 1 := by decide
  have hneg : (-y).val = fieldOrder - y.val := by
    rw [Residue.val_neg, Nat.mod_eq_of_lt (by omega)]
  simp only [isOdd, hneg, ne_eq, decide_eq_decide]
  omega

namespace RangeProof

/-- A link names one element of the group. -/
theorem linkOf_ofGroup_inj {P Q : CurveGroup} {link : Bytes} (hP : linkOf (.ofGroup P) = some link)
    (hQ : linkOf (.ofGroup Q) = some link) : P = Q := by
  cases P with
  | zero => cases hP
  | some x y h => cases Q with
    | zero => cases hQ
    | some x' y' h' =>
      have hlinks := Option.some.inj (hP.trans hQ.symm)
      obtain ⟨hhead, hrest⟩ := List.cons.inj hlinks
      have hx : x = x' := by
        have hfield := congrArg Field.ofBytes? (FixedBytes.ext hrest)
        rw [Field.ofBytes?_toBytes, Field.ofBytes?_toBytes, Option.some.injEq] at hfield
        exact Residue.ofZMod_injective hfield
      subst hx
      rcases eq_or_eq_neg_of_nonsingular h h' with rfl | rfl
      · rfl
      · have hy : Residue.ofZMod y' ≠ 0 := by
          intro hzero
          exact CurveGroup.y_ne_zero h' (by simpa using congrArg Residue.toZMod hzero)
        have hneg : (Residue.ofZMod (-y') : Field) = -Residue.ofZMod y' :=
          Residue.toZMod_injective (by simp)
        have hbyte : ∀ odd odd' : Bool,
            (if odd then (3 : UInt8) else 2) = (if odd' then 3 else 2) → odd = odd' := by decide
        rw [hneg] at hhead
        exact absurd (hbyte _ _ hhead) (Field.isOdd_neg hy)

variable {digest : FixedBytes 32} {ring place : Nat} {link link' next next' last last' : Bytes}
  {key : Point} {e e' response response' : Scalar} {es es' : List Scalar}
  {rest : List (Point × Scalar)}

theorem respond_eq_some (hkey : key.IsOnCurve) (h : respond e key response = some link) :
    ∃ K, K ≠ 0 ∧ key = .ofGroup K ∧
      linkOf (.ofGroup (e.toZMod • K + response.toZMod • CurveGroup.base)) = some link := by
  obtain ⟨K, rfl⟩ := Point.isOnCurve_iff.mp hkey
  unfold respond at h
  split at h
  · cases h
  · rename_i hzero
    rw [not_or, Point.ofGroup_eq_zero] at hzero
    refine ⟨K, hzero.1, rfl, ?_⟩
    rwa [← CurveGroup.ofGroup_base, Point.mulAdd_eq_smul] at h

theorem respond_ne_of_challenge_ne (hkey : key.IsOnCurve) (hne : e ≠ e')
    (h : respond e key response = some link) (h' : respond e' key response = some link') :
    link ≠ link' := by
  rintro rfl
  obtain ⟨K, hK, rfl, hlink⟩ := respond_eq_some hkey h
  obtain ⟨K', -, hsame, hlink'⟩ := respond_eq_some hkey h'
  obtain rfl := Point.ofGroup_injective hsame
  have hsmul := smul_left_injective _ hK (add_right_cancel (linkOf_ofGroup_inj hlink hlink'))
  exact hne (Residue.toZMod_injective hsmul)

theorem respond_ne_of_response_ne (hkey : key.IsOnCurve) (hne : response ≠ response')
    (h : respond e key response = some link) (h' : respond e key response' = some link') :
    link ≠ link' := by
  rintro rfl
  obtain ⟨K, -, rfl, hlink⟩ := respond_eq_some hkey h
  obtain ⟨K', -, hsame, hlink'⟩ := respond_eq_some hkey h'
  obtain rfl := Point.ofGroup_injective hsame
  have hsmul := smul_left_injective _ CurveGroup.base_ne_zero
    (add_left_cancel (linkOf_ofGroup_inj hlink hlink'))
  exact hne (Residue.toZMod_injective hsmul)

def challengeMessage (digest : FixedBytes 32) (ring place : Nat) (link : Bytes) : Bytes :=
  link ++ digest.toList ++ Bytes.bigEndian 4 ring ++ Bytes.bigEndian 4 place

theorem challengeMessage_inj :
    challengeMessage digest ring place link = challengeMessage digest ring place link' ↔
      link = link' := by
  simp only [challengeMessage, List.append_assoc, List.append_cancel_right_eq]

/-- The strings that are hashed on the way along a ring. -/
def walked (digest : FixedBytes 32) (ring : Nat) :
    Nat → Bytes → List (Point × Scalar) → List Bytes
  | _, _, [] => []
  | place, link, (key, response) :: rest =>
    challengeMessage digest ring place link ::
      match (challenge digest ring place link).bind (respond · key response) with
      | none => []
      | some next => walked digest ring (place + 1) next rest

/-- Two different strings with one digest, one from each list. -/
def Collide (xs ys : List Bytes) : Prop :=
  ∃ x ∈ xs, ∃ y ∈ ys, x ≠ y ∧ Sha256.digest x = Sha256.digest y

theorem Collide.mono {xs xs' ys ys' : List Bytes} (h : Collide xs ys) (hxs : xs ⊆ xs')
    (hys : ys ⊆ ys') : Collide xs' ys' := by
  obtain ⟨x, hx, y, hy, hxy⟩ := h
  exact ⟨x, hxs hx, y, hys hy, hxy⟩

theorem follow_cons_eq_some
    (h : follow digest ring place link ((key, response) :: rest) = some (es, last)) :
    ∃ e next es', challenge digest ring place link = some e ∧ respond e key response = some next ∧
      follow digest ring (place + 1) next rest = some (es', last) ∧
      walked digest ring place link ((key, response) :: rest) =
        challengeMessage digest ring place link :: walked digest ring (place + 1) next rest := by
  obtain ⟨e, hchallenge, h⟩ := Option.bind_eq_some_iff.mp h
  obtain ⟨next, hrespond, h⟩ := Option.bind_eq_some_iff.mp h
  obtain ⟨⟨es', last'⟩, hrest, h⟩ := Option.bind_eq_some_iff.mp h
  cases h
  refine ⟨e, next, es', hchallenge, hrespond, hrest, ?_⟩
  rw [walked, hchallenge, Option.bind_some, hrespond]

theorem ofBytesNonzero?_inj {b b' : FixedBytes 32} (h : Scalar.ofBytesNonzero? b = some e)
    (h' : Scalar.ofBytesNonzero? b' = some e) : b = b' := by
  have hb := Scalar.ofBytes?_eq_some_iff.mp (Option.filter_eq_some_iff.mp h).1
  have hb' := Scalar.ofBytes?_eq_some_iff.mp (Option.filter_eq_some_iff.mp h').1
  exact hb.trans hb'.symm

/-- Walks from different links do not meet. -/
theorem last_ne_of_link_ne {pairs : List (Point × Scalar)} (hkeys : ∀ x ∈ pairs, x.1.IsOnCurve)
    (hne : link ≠ link') (h : follow digest ring place link pairs = some (es, last))
    (h' : follow digest ring place link' pairs = some (es', last'))
    (hapart : ¬Collide (walked digest ring place link pairs) (walked digest ring place link' pairs)) :
    last ≠ last' := by
  induction pairs generalizing place link link' es es' with
  | nil =>
    cases h
    cases h'
    exact hne
  | cons pair pairs ih =>
    obtain ⟨key, response⟩ := pair
    obtain ⟨hkey, hkeys⟩ := List.forall_mem_cons.mp hkeys
    obtain ⟨e, next, _, hchallenge, hrespond, hrest, hwalked⟩ := follow_cons_eq_some h
    obtain ⟨e', next', _, hchallenge', hrespond', hrest', hwalked'⟩ := follow_cons_eq_some h'
    rw [hwalked, hwalked'] at hapart
    have hchallenges : e ≠ e' := by
      rintro rfl
      have hdigest := ofBytesNonzero?_inj hchallenge hchallenge'
      exact hapart ⟨_, List.mem_cons_self .., _, List.mem_cons_self ..,
        challengeMessage_inj.not.mpr hne, hdigest⟩
    have hnext := respond_ne_of_challenge_ne hkey hchallenges hrespond hrespond'
    exact ih hkeys hnext hrest hrest' fun hcollide ↦
      hapart (hcollide.mono (List.subset_cons_self ..) (List.subset_cons_self ..))

def OtherResponse (x y : Point × Scalar) : Prop := x.1 = y.1 ∧ x.2 ≠ y.2

/-- Walks that differ at one response part there. -/
theorem last_ne_of_differOnce {pairs pairs' : List (Point × Scalar)}
    (hdiffer : DifferOnce OtherResponse pairs pairs') (hkeys : ∀ x ∈ pairs, x.1.IsOnCurve)
    (h : follow digest ring place link pairs = some (es, last))
    (h' : follow digest ring place link pairs' = some (es', last'))
    (hapart : ¬Collide (walked digest ring place link pairs) (walked digest ring place link pairs')) :
    last ≠ last' := by
  induction hdiffer generalizing place link es es' with
  | @here pair pair' pairs hpair =>
    obtain ⟨key, response⟩ := pair
    obtain ⟨key', response'⟩ := pair'
    obtain ⟨rfl, hne⟩ := hpair
    obtain ⟨hkey, hkeys⟩ := List.forall_mem_cons.mp hkeys
    obtain ⟨e, next, _, hchallenge, hrespond, hrest, hwalked⟩ := follow_cons_eq_some h
    obtain ⟨e', next', _, hchallenge', hrespond', hrest', hwalked'⟩ := follow_cons_eq_some h'
    rw [hwalked, hwalked'] at hapart
    obtain rfl := Option.some.inj (hchallenge.symm.trans hchallenge')
    have hnext := respond_ne_of_response_ne hkey hne hrespond hrespond'
    exact last_ne_of_link_ne hkeys hnext hrest hrest' fun hcollide ↦
      hapart (hcollide.mono (List.subset_cons_self ..) (List.subset_cons_self ..))
  | @there pair pairs pairs' _ ih =>
    obtain ⟨key, response⟩ := pair
    obtain ⟨-, hkeys⟩ := List.forall_mem_cons.mp hkeys
    obtain ⟨e, next, _, hchallenge, hrespond, hrest, hwalked⟩ := follow_cons_eq_some h
    obtain ⟨e', next', _, hchallenge', hrespond', hrest', hwalked'⟩ := follow_cons_eq_some h'
    rw [hwalked, hwalked'] at hapart
    obtain rfl := Option.some.inj (hchallenge.symm.trans hchallenge')
    obtain rfl := Option.some.inj (hrespond.symm.trans hrespond')
    exact ih hkeys hrest hrest' fun hcollide ↦
      hapart (hcollide.mono (List.subset_cons_self ..) (List.subset_cons_self ..))

end RangeProof

end ConfidentialTx
