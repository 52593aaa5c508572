import Mathlib
import ConfidentialTx.Proofs.RangeProof.Walk
import ConfidentialTx.Proofs.RangeProof.Recover

namespace ConfidentialTx.RangeProof

theorem isOnCurve_mul_value (s : Scalar) : (Generator.value.mul s).IsOnCurve := by
  rw [← CurveGroup.ofGroup_value, Point.mul_eq_smul]
  exact Point.isOnCurve_iff.mpr ⟨_, rfl⟩

theorem isOnCurve_of_mem_ringKeys {size : Nat} {first step : Point} (hfirst : first.IsOnCurve)
    (hstep : step.IsOnCurve) : ∀ key ∈ ringKeys size first step, key.IsOnCurve := by
  intro key hkey
  obtain ⟨F, rfl⟩ := Point.isOnCurve_iff.mp hfirst
  obtain ⟨S, rfl⟩ := Point.isOnCurve_iff.mp hstep
  rw [ringKeys_ofGroup] at hkey
  obtain ⟨j, -, rfl⟩ := List.mem_map.mp hkey
  exact Point.isOnCurve_iff.mpr ⟨_, rfl⟩

theorem isOnCurve_of_mem_ringSteps {count : Nat} {step : Point} (hstep : step.IsOnCurve) :
    ∀ p ∈ ringSteps count step, p.IsOnCurve := by
  intro p hp
  obtain ⟨S, rfl⟩ := Point.isOnCurve_iff.mp hstep
  rw [ringSteps_ofGroup] at hp
  obtain ⟨i, -, rfl⟩ := List.mem_map.mp hp
  exact Point.isOnCurve_iff.mpr ⟨_, rfl⟩

theorem isOnCurve_rest {commit base : Point} {points : List Point} (hcommit : commit.IsOnCurve)
    (hbase : base.IsOnCurve) (hpoints : ∀ p ∈ points, p.IsOnCurve) :
    (commit - points.foldl (· + ·) base).IsOnCurve := by
  induction points generalizing base with
  | nil =>
    obtain ⟨C, rfl⟩ := Point.isOnCurve_iff.mp hcommit
    obtain ⟨B, rfl⟩ := Point.isOnCurve_iff.mp hbase
    exact Point.isOnCurve_iff.mpr ⟨C - B, Point.ofGroup_sub C B⟩
  | cons p points ih =>
    obtain ⟨hp, hrest⟩ := List.forall_mem_cons.mp hpoints
    obtain ⟨B, rfl⟩ := Point.isOnCurve_iff.mp hbase
    obtain ⟨P, rfl⟩ := Point.isOnCurve_iff.mp hp
    exact ih (Point.isOnCurve_iff.mpr ⟨B + P, Point.ofGroup_add B P⟩) hrest

def openingMessage (digest : FixedBytes 32) (ends : List Bytes) : Bytes :=
  ends.flatten ++ digest.toList

namespace Parts

variable {a b parts : Parts} {commit : Point} {s t bs cs : Bytes} {es fs : List (List Scalar)}

def signedMessage (parts : Parts) (commit : Point) : Bytes :=
  RangeProof.pointBytes commit ++ RangeProof.pointBytes Generator.value ++ parts.headerBytes ++
    parts.pointBytes.flatten

def digest (parts : Parts) (commit : Point) : FixedBytes 32 :=
  Sha256.digest (parts.signedMessage commit)

/-- Challenges and last link of each ring. -/
def walks (parts : Parts) (commit : Point) : Option (List (List Scalar × Bytes)) :=
  (parts.rings commit).zipIdx.mapM fun (r, i) ↦
    follow (parts.digest commit) i 0 parts.start.toList r

/-- The strings that a check of the proof hashes. -/
def hashed (parts : Parts) (commit : Point) : List Bytes :=
  parts.signedMessage commit ::
    ((parts.rings commit).zipIdx.flatMap fun (r, i) ↦
      walked (parts.digest commit) i 0 parts.start.toList r) ++
    ((parts.walks commit).map fun walks ↦
      openingMessage (parts.digest commit) (walks.map (·.2))).toList

theorem walked_subset_hashed {ring : List (Point × Scalar)} {i : Nat}
    (h : (ring, i) ∈ (parts.rings commit).zipIdx) :
    walked (parts.digest commit) i 0 parts.start.toList ring ⊆ parts.hashed commit := by
  intro message hmessage
  exact List.mem_append_left _ (List.mem_cons_of_mem _ (List.mem_flatMap.mpr ⟨_, h, hmessage⟩))

theorem verify_eq_some (h : parts.verify commit = some es) :
    ∃ walks, parts.walks commit = some walks ∧
      Sha256.digest (openingMessage (parts.digest commit) (walks.map (·.2))) = parts.start ∧
      openingMessage (parts.digest commit) (walks.map (·.2)) ∈ parts.hashed commit := by
  obtain ⟨walks, hwalks, h⟩ := Option.bind_eq_some_iff.mp h
  obtain ⟨_, hguard, -⟩ := Option.bind_eq_some_iff.mp h
  have hwalks : parts.walks commit = some walks := hwalks
  refine ⟨walks, hwalks, ?_, ?_⟩
  · by_contra hne
    change ¬opening (parts.digest commit) (walks.map (·.2)) = parts.start at hne
    change guard (opening (parts.digest commit) (walks.map (·.2)) = parts.start) = _ at hguard
    simp [guard, hne] at hguard
  · rw [hashed, hwalks]
    simp

/-- Two proofs with the same opening challenge sign the same message. -/
theorem collide_of_signedMessage_ne (ha : a.verify commit = some es) (hb : b.verify commit = some fs)
    (hstart : a.start = b.start) (hne : a.signedMessage commit ≠ b.signedMessage commit) :
    Collide (a.hashed commit) (b.hashed commit) := by
  by_cases hdigest : a.digest commit = b.digest commit
  · exact ⟨_, List.mem_cons_self .., _, List.mem_cons_self .., hne, hdigest⟩
  · obtain ⟨walks, -, hopening, hmem⟩ := verify_eq_some ha
    obtain ⟨walks', -, hopening', hmem'⟩ := verify_eq_some hb
    refine ⟨_, hmem, _, hmem', fun hsame ↦ hdigest ?_, by rw [hopening, hopening', hstart]⟩
    have hlength := (a.digest commit).length_toList.trans (b.digest commit).length_toList.symm
    exact FixedBytes.ext (List.append_inj' hsame hlength).2

theorem isOnCurve_of_mem_rings (hcommit : commit.IsOnCurve) (hpoints : ∀ p ∈ parts.points, p.IsOnCurve) :
    ∀ ring ∈ parts.rings commit, ∀ x ∈ ring, x.1.IsOnCurve := by
  intro ring hring x hx
  obtain ⟨⟨size, first, step, responses⟩, hmem, rfl⟩ := List.mem_map.mp hring
  obtain ⟨-, hmem⟩ := List.of_mem_zip hmem
  obtain ⟨hfirst, hmem⟩ := List.of_mem_zip hmem
  obtain ⟨hstep, -⟩ := List.of_mem_zip hmem
  have hstep := isOnCurve_of_mem_ringSteps (isOnCurve_mul_value _) step hstep
  have hfirst : first.IsOnCurve := by
    rcases List.mem_append.mp hfirst with hfirst | hfirst
    · exact hpoints first hfirst
    · rw [List.mem_singleton.mp hfirst]
      exact isOnCurve_rest hcommit (isOnCurve_mul_value _) hpoints
  exact isOnCurve_of_mem_ringKeys hfirst hstep x.1 (List.of_mem_zip hx).1

theorem differOnce_rings (hheader : a.header = b.header) (hpoints : a.points = b.points)
    (hcount : a.points.length = a.pointCount) (hsizes : a.responses.map List.length = a.ringSizes)
    (hdiffer : DifferOnce (DifferOnce (· ≠ ·)) a.responses b.responses) :
    DifferOnce (DifferOnce OtherResponse) (a.rings commit) (b.rings commit) := by
  have hlength : a.responses.length = a.ringSizes.length := by rw [← hsizes, List.length_map]
  have hne := Header.ringSizes_ne_nil a.header
  have hpos := List.length_pos_iff.mpr hne
  dsimp only [rings]
  rw [← show a.ringSizes = b.ringSizes by rw [ringSizes, ringSizes, hheader], ← hheader, ← hpoints]
  generalize hsteps : ringSteps a.ringSizes.length (Generator.value.mul (.reduce a.header.scale)) =
    steps
  generalize hfirsts : a.points ++ [commit - a.points.foldl (· + ·)
    (Generator.value.mul (.reduce a.header.min))] = firsts
  have hstepsLength : a.responses.length ≤ steps.length := by
    rw [← hsteps, length_ringSteps, hlength]
  have hfirstsLength : (steps.zip a.responses).length ≤ firsts.length := by
    change 0 < a.ringSizes.length at hpos
    rw [List.length_zip, ← hfirsts, List.length_append, hcount, pointCount, List.length_singleton]
    omega
  have hsizesLength : (firsts.zip (steps.zip a.responses)).length ≤ a.ringSizes.length := by
    rw [List.length_zip, List.length_zip, hlength]
    omega
  refine (((hdiffer.zip hstepsLength).zip hfirstsLength).zip hsizesLength).map ?_
  rintro ⟨size, first, step, responses⟩ hmem ⟨size', first', step', responses'⟩ -
    ⟨hsize, hfirst, hstep, hresponses⟩
  have hring : responses.length = size := by
    obtain ⟨i, hi, hitem⟩ := List.mem_iff_getElem.mp hmem
    simp only [List.getElem_zip, Prod.mk.injEq, ← hsizes, List.getElem_map] at hitem
    rw [← hitem.1, hitem.2.2.2]
  dsimp only at hsize hfirst hstep hresponses ⊢
  subst hsize hfirst hstep
  exact hresponses.zip (by rw [length_ringKeys, hring])

/-- Of two proofs that differ in one response, not both hold. -/
theorem collide_of_differOnce (hrings : ∀ ring ∈ a.rings commit, ∀ x ∈ ring, x.1.IsOnCurve)
    (hsigned : a.signedMessage commit = b.signedMessage commit) (hstart : a.start = b.start)
    (hdiffer : DifferOnce (DifferOnce OtherResponse) (a.rings commit) (b.rings commit))
    (ha : a.verify commit = some es) (hb : b.verify commit = some fs) :
    Collide (a.hashed commit) (b.hashed commit) := by
  by_contra hapart
  have hdigest : a.digest commit = b.digest commit := congrArg Sha256.digest hsigned
  obtain ⟨walks, hwalks, hopening, hmem⟩ := verify_eq_some ha
  obtain ⟨walks', hwalks', hopening', hmem'⟩ := verify_eq_some hb
  have hlast : DifferOnce (fun x y ↦ x.2 ≠ y.2) walks walks' := by
    rw [Parts.walks, ← hdigest, ← hstart] at hwalks'
    refine (hdiffer.zipIdx 0).mapM hwalks hwalks' ?_
    rintro ⟨ring, i⟩ hring ⟨ring', i'⟩ hring' ⟨hi, hresponse⟩ ⟨es, last⟩ ⟨es', last'⟩ h h'
    dsimp only at hi hresponse h h'
    subst hi
    have hkeys := hrings ring (List.fst_mem_of_mem_zipIdx hring)
    have hsubset := walked_subset_hashed hring
    have hsubset' := walked_subset_hashed hring'
    rw [← hdigest, ← hstart] at hsubset'
    exact last_ne_of_differOnce hresponse hkeys h h' fun hcollide ↦
      hapart (hcollide.mono hsubset hsubset')
  have hends : DifferOnce (· ≠ ·) (walks.map (·.2)) (walks'.map (·.2)) :=
    hlast.map fun _ _ _ _ hne ↦ hne
  refine hapart ⟨_, hmem, _, hmem', fun hsame ↦ hends.flatten_ne ?_, ?_⟩
  · rw [openingMessage, openingMessage, hdigest] at hsame
    exact List.append_cancel_right hsame
  · rw [hopening, hopening', hstart]

namespace Written

theorem start_eq (h : a.Written s bs) : (bs.drop a.startPosition).take 32 = a.start.toList := by
  rw [h.bytes_eq, List.drop_left' h.length_front, List.take_left' a.start.length_toList]

theorem signedMessage_inj (ha : a.Written s bs) (hb : b.Written t cs)
    (hlength : bs.length = cs.length)
    (h : a.signedMessage commit = b.signedMessage commit) :
    a.headerBytes = b.headerBytes ∧ a.pointBytes = b.pointBytes := by
  obtain ⟨hheader, hsizes⟩ := ha.layout_eq hb hlength
  simp only [signedMessage, List.append_assoc, List.append_cancel_left_eq] at h
  obtain ⟨hheaders, hpoints⟩ := List.append_inj h hheader
  refine ⟨hheaders, List.eq_iff_flatten_eq.mpr ⟨hpoints, ?_⟩⟩
  rw [Denotes.map_length ha.denotes, Denotes.map_length hb.denotes, ha.length_pointBytes,
    hb.length_pointBytes, pointCount, pointCount, hsizes]

/-- A byte outside the opening challenge belongs to what the rings sign or to one response. -/
theorem cases_of_set (ha : a.Written s bs) (hb : b.Written t cs) (commit : Point) {position : Nat}
    {byte old : UInt8} (hold : bs[position]? = some old) (hne : old ≠ byte) (hset : cs = bs.set position byte)
    (houtside : position < a.startPosition ∨ a.startPosition + 32 ≤ position) :
    a.start = b.start ∧
      (a.signedMessage commit ≠ b.signedMessage commit ∨
        a.header = b.header ∧ a.points = b.points ∧
          a.signedMessage commit = b.signedMessage commit ∧
          DifferOnce (DifferOnce (· ≠ ·)) a.responses b.responses) := by
  have hlength : bs.length = cs.length := by rw [hset, List.length_set]
  have hfront : (a.front s).length = (b.front t).length := by
    rw [ha.length_front, hb.length_front, ha.startPosition_eq hb hlength]
  have hstart : a.start = b.start := by
    refine FixedBytes.ext ?_
    rw [← ha.start_eq, ← hb.start_eq, ← ha.startPosition_eq hb hlength, hset]
    refine List.ext_getElem? fun i ↦ ?_
    by_cases hi : i < 32
    · rw [List.getElem?_take_of_lt hi, List.getElem?_take_of_lt hi, List.getElem?_drop,
        List.getElem?_drop, List.getElem?_set_ne (by omega)]
    · rw [List.getElem?_take_eq_none (by omega), List.getElem?_take_eq_none (by omega)]
  refine ⟨hstart, ?_⟩
  have hdiffer := DifferOnce.set hold hne
  rw [← hset, ha.bytes_eq, hb.bytes_eq] at hdiffer
  rcases hdiffer.of_append hfront with ⟨hfronts, -⟩ | ⟨hfronts, hdiffer⟩
  · refine .inl fun hsigned ↦ hfronts.ne ?_
    exact (ha.front_eq_iff hb hlength).mpr (ha.signedMessage_inj hb hlength hsigned)
  · obtain ⟨hheaders, hitems⟩ := (ha.front_eq_iff hb hlength).mp hfronts
    obtain ⟨-, hsizes⟩ := ha.layout_eq hb hlength
    have htails : DifferOnce (· ≠ ·) a.tail b.tail := by
      rw [hstart] at hdiffer
      rcases hdiffer.of_append rfl with ⟨hstarts, -⟩ | ⟨-, htails⟩
      · exact absurd rfl hstarts.ne
      · exact htails
    have hresponses : a.responses.map List.length = b.responses.map List.length := by
      rw [ha.map_length_responses, hb.map_length_responses, hsizes]
    have hscalars : DifferOnce (· ≠ ·) a.responses.flatten b.responses.flatten := by
      refine htails.of_flatMap ?_ (fun s ↦ s.toBytes.length_toList) ?_
      · intro x y hxy
        have hread := congrArg Scalar.ofBytes? (FixedBytes.ext hxy)
        rwa [Scalar.ofBytes?_toBytes, Scalar.ofBytes?_toBytes, Option.some.injEq] at hread
      · rw [List.length_flatten, List.length_flatten, hresponses]
    refine .inr ⟨ha.header_eq hb hheaders, ha.points_eq hb hitems, ?_,
      hscalars.of_flatten hresponses⟩
    rw [signedMessage, signedMessage, hheaders, hitems]

end Written

theorem collide_of_set (hcommit : commit.IsOnCurve) (ha : ofBytes? bs = some a)
    (hb : ofBytes? cs = some b) {position : Nat} {byte old : UInt8}
    (hold : bs[position]? = some old) (hne : old ≠ byte) (hset : cs = bs.set position byte)
    (houtside : position < a.startPosition ∨ a.startPosition + 32 ≤ position)
    (hverify : a.verify commit = some es) (hverify' : b.verify commit = some fs) :
    Collide (a.hashed commit) (b.hashed commit) := by
  obtain ⟨s, hwrittenA⟩ := exists_written ha
  obtain ⟨t, hwrittenB⟩ := exists_written hb
  obtain ⟨hstart, hsigned | ⟨hheader, hpoints, hsigned, hdiffer⟩⟩ :=
    hwrittenA.cases_of_set hwrittenB commit hold hne hset houtside
  · exact collide_of_signedMessage_ne hverify hverify' hstart hsigned
  · have hcount : a.points.length = a.pointCount := by
      rw [← hwrittenA.denotes.length_eq, hwrittenA.length_pointBytes]
    have hrings := isOnCurve_of_mem_rings hcommit (Denotes.isOnCurve_of_mem hwrittenA.denotes)
    exact collide_of_differOnce hrings hsigned hstart (differOnce_rings hheader hpoints hcount
      hwrittenA.map_length_responses hdiffer) hverify hverify'

end Parts

/-- Proofs of one size of which all bytes agree but the one at `position`. -/
structure AltersByte (position : Nat) (a b : RangeProof) : Prop where
  size_eq : b.size = a.size
  position_lt : position < a.size
  differs : b.buffer.toList[position]? ≠ a.buffer.toList[position]?
  agrees : ∀ i < a.size, i ≠ position → b.buffer.toList[i]? = a.buffer.toList[i]?

namespace AltersByte

variable {position : Nat} {a b : RangeProof}

theorem exists_set (h : AltersByte position a b) (hsize : a.size ≤ maxSize) :
    ∃ old byte, a.bytes[position]? = some old ∧ old ≠ byte ∧ b.bytes = a.bytes.set position byte := by
  have hlt := h.position_lt
  have hlength : position < 5134 := hlt.trans_le hsize
  obtain ⟨old, hold⟩ : ∃ old, a.buffer.toList[position]? = some old :=
    ⟨_, List.getElem?_eq_getElem (by rwa [a.buffer.length_toList])⟩
  obtain ⟨byte, hbyte⟩ : ∃ byte, b.buffer.toList[position]? = some byte :=
    ⟨_, List.getElem?_eq_getElem (by rwa [b.buffer.length_toList])⟩
  refine ⟨old, byte, ?_, ?_, ?_⟩
  · rw [bytes, List.getElem?_take_of_lt hlt, hold]
  · rintro rfl
    exact h.differs (hbyte.trans hold.symm)
  · refine List.ext_getElem? fun i ↦ ?_
    rw [bytes, bytes, h.size_eq]
    by_cases hi : i < a.size
    · rw [List.getElem?_take_of_lt hi]
      by_cases hposition : i = position
      · subst hposition
        have hinside : i < (a.buffer.toList.take a.size).length := by
          rw [List.length_take, a.buffer.length_toList]
          omega
        rw [hbyte, List.getElem?_set_self hinside]
      · rw [List.getElem?_set_ne (Ne.symm hposition), List.getElem?_take_of_lt hi,
          h.agrees i hi hposition]
    · rw [List.getElem?_take_eq_none (by omega), List.getElem?_set_ne (by omega),
        List.getElem?_take_eq_none (by omega)]

theorem flip {mask : UInt8} (hmask : mask ≠ 0) (hposition : position < a.size)
    (hsize : a.size ≤ maxSize) : AltersByte position a (a.flip position mask) := by
  have hlength : position < a.buffer.toList.length := by
    rw [a.buffer.length_toList]
    exact hposition.trans_le hsize
  refine ⟨rfl, hposition, ?_, fun i _ hi ↦ List.getElem?_modify_ne _ _ hi.symm⟩
  change (a.buffer.toList.modify position (· ^^^ mask))[position]? ≠ _
  rw [List.getElem?_modify_eq, List.getElem?_eq_getElem hlength]
  intro hsame
  have hbyte := Option.some.inj hsame
  refine hmask ?_
  have hcancel := congrArg (a.buffer.toList[position] ^^^ ·) hbyte
  simpa [← UInt8.xor_assoc] using hcancel

end AltersByte

/-- Where the opening challenge of a proof stands, if the proof can be taken apart. -/
def startPosition? (proof : RangeProof) : Option Nat :=
  (Parts.ofBytes? proof.bytes).map Parts.startPosition

set_option maxRecDepth 10000 in
theorem startPosition?_exactProof : exactProof.startPosition? = some 9 := by decide +kernel

def hashed (c : Commitment) (proof : RangeProof) : List Bytes :=
  match c.toPoint?, Parts.ofBytes? proof.bytes with
  | some point, some parts => parts.hashed point
  | _, _ => []

theorem hashed_eq {c : Commitment} {proof : RangeProof} {parts : Parts} (hc : c.IsPoint)
    (hparts : Parts.ofBytes? proof.bytes = some parts) :
    hashed c proof = parts.hashed (.ofGroup c.element) := by
  rw [hashed, Commitment.toPoint?_of_encodes hc.encodes, hparts]

/-- A proof of which one byte outside the opening challenge is changed does not hold, and nothing is
read out of it, unless the two proofs lead to different strings with one digest. -/
theorem altered_rejected {cap : Capability} {c : Commitment} {a b : RangeProof} {range : ProofRange}
    {position : Nat} (haccept : verify cap c a = .ok range) (halters : AltersByte position a b)
    (houtside : ∀ start ∈ a.startPosition?, position < start ∨ start + 32 ≤ position) :
    (verify cap c b = .error .invalidRangeProof ∧
      ∀ nonce, rewind cap c b nonce = .ok .failed) ∨ Collide (hashed c a) (hashed c b) := by
  obtain ⟨rfl, hc, hsize, parts, es, hparts, hverify, -⟩ := verify_eq_ok_iff.mp haccept
  have hsize' : checkSize b = .ok () := by
    rw [← hsize, checkSize, checkSize, halters.size_eq]
  by_cases hholds : ∃ range, verify .commit c b = .ok range
  · right
    obtain ⟨range', hrange⟩ := hholds
    obtain ⟨-, -, -, parts', es', hparts', hverify', -⟩ := verify_eq_ok_iff.mp hrange
    obtain ⟨old, byte, hold, hne, hset⟩ := halters.exists_set (size_le_of_checkSize hsize)
    have hcommit : (Point.ofGroup c.element).IsOnCurve := Point.isOnCurve_iff.mpr ⟨_, rfl⟩
    have hposition := houtside parts.startPosition (by rw [startPosition?, hparts]; rfl)
    rw [hashed_eq hc hparts, hashed_eq hc hparts']
    exact Parts.collide_of_set hcommit hparts hparts' hold hne hset hposition hverify hverify'
  · left
    have hrejects : ∀ range, verify .commit c b ≠ .ok range := fun range h ↦ hholds ⟨range, h⟩
    exact ⟨verify_of_ne hc hsize' hrejects, rewind_of_verify_ne hc hsize' hrejects⟩

/-- A header bit that no value depends on, and a bit of the response. -/
theorem altered_rejected_exactProof :
    verify .commit exactCommit exactProof = .ok ⟨5, 5⟩ ∧
      ∀ position ∈ [0, 72],
        (verify .commit exactCommit (exactProof.flip position 1) = .error .invalidRangeProof ∧
          ∀ nonce, rewind .commit exactCommit (exactProof.flip position 1) nonce = .ok .failed) ∨
        Collide (hashed exactCommit exactProof)
          (hashed exactCommit (exactProof.flip position 1)) := by
  have haccept := verify_of_rewind rewind_exactProof rfl
  refine ⟨haccept, fun position hposition ↦ altered_rejected haccept (AltersByte.flip ?_ ?_ ?_) ?_⟩
  · decide
  · rcases List.mem_pair.mp hposition with rfl | rfl <;> decide
  · decide
  · intro start hstart
    rw [startPosition?_exactProof] at hstart
    cases hstart
    rcases List.mem_pair.mp hposition with rfl | rfl <;> decide

end ConfidentialTx.RangeProof
