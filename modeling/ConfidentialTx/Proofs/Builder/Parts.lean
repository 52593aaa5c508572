import Mathlib
import ConfidentialTx.Proofs.Builder.Outcome

namespace ConfidentialTx

variable {root : KeyRoot} {names : Identifier → Except KeychainError SecretKey} {cache : KeyCache}
  {step : Step} {steps rest : List Step} {base : Transaction}

theorem foldl_eq_getLast? {α β : Type} {after : β → α → β} {set? : α → Option β} {as : List α}
    (h : ∀ a ∈ as, ∀ b, after b a = (set? a).getD b) (b : β) :
    as.foldl after b = (as.filterMap set?).getLast?.getD b := by
  induction as generalizing b with
  | nil => rfl
  | cons a as ih =>
    obtain ⟨hfirst, hrest⟩ := List.forall_mem_cons.mp h
    rw [List.foldl_cons, hfirst, ih hrest]
    cases hset : set? a with
    | none => rw [List.filterMap_cons_none hset, Option.getD_none]
    | some b' => rw [List.filterMap_cons_some hset, List.getLast?_cons, Option.getD_some,
        Option.getD_some]

theorem forall₂_of_map_eq {ε α β : Type} {f : α → Except ε β} {as : List α} {bs : List β}
    (h : as.map f = bs.map .ok) : List.Forall₂ (fun a b ↦ f a = .ok b) as bs := by
  rwa [← List.forall₂_eq_eq_eq, List.forall₂_map_left_iff, List.forall₂_map_right_iff] at h

namespace Step

def input? : Step → Option (UInt64 × Identifier)
  | input value id => some (value, id)
  | output .. | withFee _ | withLockHeight _ | initialTx _ | withExcess _ => none

def output? : Step → Option (UInt64 × Identifier)
  | output value id => some (value, id)
  | input .. | withFee _ | withLockHeight _ | initialTx _ | withExcess _ => none

def fee? : Step → Option UInt64
  | withFee fee => some fee
  | input .. | output .. | withLockHeight _ | initialTx _ | withExcess _ => none

def lockHeight? : Step → Option UInt64
  | withLockHeight lockHeight => some lockHeight
  | input .. | output .. | withFee _ | initialTx _ | withExcess _ => none

/-- The steps after the last reset, and the transaction that it sets: the empty one if there is none. -/
structure LastReset (steps : List Step) (base : Transaction) (rest : List Step) : Prop where
  keeps : ∀ tx, .initialTx tx ∉ rest
  split : steps = rest ∧ base = .empty ∨ ∃ front, steps = front ++ .initialTx base :: rest

theorem exists_lastReset (steps : List Step) : ∃ base rest, LastReset steps base rest := by
  induction steps with
  | nil => exact ⟨.empty, [], fun _ ↦ List.not_mem_nil, .inl ⟨rfl, rfl⟩⟩
  | cons step steps ih =>
    obtain ⟨base, rest, hkeeps, ⟨rfl, rfl⟩ | ⟨front, rfl⟩⟩ := ih
    · by_cases hreset : ∃ tx, step = .initialTx tx
      · obtain ⟨tx, rfl⟩ := hreset
        exact ⟨tx, steps, hkeeps, .inr ⟨[], rfl⟩⟩
      · refine ⟨.empty, step :: steps, fun tx htx ↦ ?_, .inl ⟨rfl, rfl⟩⟩
        rcases List.mem_cons.mp htx with hstep | hsteps
        · exact hreset ⟨tx, hstep.symm⟩
        · exact hkeeps tx hsteps
    · exact ⟨base, rest, hkeeps, .inr ⟨step :: front, rfl⟩⟩

/-- Nothing that comes before a reset is seen after it. -/
theorem LastReset.changes {g : Transaction → Transaction} (h : LastReset steps base rest)
    (hsteps : Step.changes root names steps = .ok g) :
    ∃ g', Step.changes root names rest = .ok g' ∧ g .empty = g' base := by
  rcases h.split with ⟨rfl, rfl⟩ | ⟨front, rfl⟩
  · exact ⟨g, hsteps, rfl⟩
  · rw [changes_append] at hsteps
    obtain ⟨before, -, hsteps⟩ := bind_eq_ok_iff.mp hsteps
    obtain ⟨after, hafter, hsteps⟩ := bind_eq_ok_iff.mp hsteps
    cases hsteps
    obtain ⟨reset, hreset, hafter⟩ := bind_eq_ok_iff.mp hafter
    obtain ⟨g', hrest, hafter⟩ := bind_eq_ok_iff.mp hafter
    cases hreset
    cases hafter
    exact ⟨g', hrest, rfl⟩

theorem foldl_feeAfter (hkeeps : ∀ tx, .initialTx tx ∉ steps) (fee : UInt64) :
    steps.foldl feeAfter fee = (steps.filterMap fee?).getLast?.getD fee := by
  refine foldl_eq_getLast? (fun step hstep fee ↦ ?_) fee
  cases step with
  | initialTx tx => exact absurd hstep (hkeeps tx)
  | _ => rfl

theorem foldl_lockHeightAfter (hkeeps : ∀ tx, .initialTx tx ∉ steps) (lockHeight : UInt64) :
    steps.foldl lockHeightAfter lockHeight =
      (steps.filterMap lockHeight?).getLast?.getD lockHeight := by
  refine foldl_eq_getLast? (fun step hstep lockHeight ↦ ?_) lockHeight
  cases step with
  | initialTx tx => exact absurd hstep (hkeeps tx)
  | _ => rfl

def Spends (names : Identifier → Except KeychainError SecretKey) (spent : UInt64 × Identifier)
    (i : Input) : Prop :=
  ∃ key, names spent.2 = .ok key ∧ Commitment.commit .commit spent.1 key = .ok i.commit

def Creates (names : Identifier → Except KeychainError SecretKey) (created : UInt64 × Identifier)
    (out : Output) : Prop :=
  ∃ key, names created.2 = .ok key ∧ out.MadeOf created.1 key

theorem spends_of_spent {ins : List Input}
    (h : steps.filterMap (spent root names) = ins.map .ok) :
    List.Forall₂ (Spends names) (steps.filterMap input?) ins := by
  have hspent : spent root names = fun step ↦ step.input?.map fun x ↦
      Input.mk <$> (Keychain.commit x.1 x.2).answer root names := by
    funext step
    cases step <;> rfl
  rw [hspent, ← List.map_filterMap] at h
  refine (forall₂_of_map_eq h).imp fun x i hi ↦ ?_
  obtain ⟨c, hc, rfl⟩ := map_eq_ok_iff.mp hi
  exact answer_commit_eq_ok hc

theorem creates_of_created {outs : List Output}
    (h : steps.filterMap (created root names) = outs.map .ok) :
    List.Forall₂ (Creates names) (steps.filterMap output?) outs := by
  have hcreated : created root names = fun step ↦ step.output?.map fun x ↦
      (makeOutput x.1 x.2).answer root names := by
    funext step
    cases step <;> rfl
  rw [hcreated, ← List.map_filterMap] at h
  exact (forall₂_of_map_eq h).imp fun x out hout ↦ answer_makeOutput_eq_ok hout

end Step

namespace Transaction

/-- A transaction that was built is the one of the last reset with what the steps after it made, signed
by the sum of all steps. -/
theorem parts_of_build {tx : Transaction} {blind : BlindingFactor} (hreach : root.Reaches cache)
    (hdistinct : root.DistinctChildren cache)
    (hbuild : (build steps).result root cache = .ok (tx, blind)) :
    (∃ base rest, Step.LastReset steps base rest) ∧
    (∀ base rest, Step.LastReset steps base rest → ∃ ins outs,
      List.Forall₂ (Step.Spends (root.names cache)) (rest.filterMap Step.input?) ins ∧
      List.Forall₂ (Step.Creates (root.names cache)) (rest.filterMap Step.output?) outs ∧
      tx.inputs = base.inputs ++ ins ∧ tx.outputs = base.outputs ++ outs ∧
      tx.fee = (rest.filterMap Step.fee?).getLast?.getD base.fee ∧
      tx.lockHeight = (rest.filterMap Step.lockHeight?).getLast?.getD base.lockHeight) ∧
    (∃ key sig, blind.toSecretKey = .ok key ∧
      Signature.sign .commit (kernelMessage tx.fee tx.lockHeight) key = .ok sig ∧
      tx.excessSig = sig.toCompact) ∧
    (∀ step ∈ steps, step.Found (root.names cache)) ∧
    blind.scalar.toZMod = (steps.map (Step.contribution (root.names cache))).sum := by
  rw [(KeyRoot.Later.refl root cache).result_eq (resolving_build steps) hreach hdistinct] at hbuild
  obtain ⟨g, hg, hsigned⟩ := answer_build_eq_ok hbuild
  obtain ⟨⟨key, sig, hkey, hsig, rfl⟩, hblind⟩ := signed_eq_ok hsigned
  refine ⟨Step.exists_lastReset steps, fun base rest hreset ↦ ?_, ⟨key, sig, hkey, hsig, rfl⟩,
    Step.found_of_changes hg, hblind⟩
  obtain ⟨g', hrest, hbase⟩ := hreset.changes hg
  rw [hbase]
  obtain ⟨ins, outs, hins, houts, hparts⟩ := Step.changes_parts hrest hreset.keeps
  obtain ⟨hfee, hlockHeight⟩ := Step.kernel_changes hrest base
  rw [Step.foldl_feeAfter hreset.keeps] at hfee
  rw [Step.foldl_lockHeightAfter hreset.keeps] at hlockHeight
  exact ⟨ins, outs, Step.spends_of_spent hins, Step.creates_of_created houts, (hparts base).1,
    (hparts base).2, hfee, hlockHeight⟩

/-- Two outputs are dropped by a reset each; their keys stay in the sum. -/
theorem parts_of_build_ones :
    ∃ tx blind, (build [.output 5 onesId, .initialTx .empty, .output 5 onesId,
        .initialTx ⟨[], [], 9, 0, [1]⟩, .input 5 onesId, .withFee 8, .withFee 3]).result
        onesRoot onesCache = .ok (tx, blind) ∧
      tx.inputs.length = 1 ∧ tx.outputs = [] ∧ tx.fee = 3 ∧ tx.lockHeight = 0 ∧
      blind.scalar = onesChild.secretKey.scalar := by
  let base : Transaction := ⟨[], [], 9, 0, [1]⟩
  let front : List Step := [.output 5 onesId, .initialTx .empty, .output 5 onesId]
  let rest : List Step := [.input 5 onesId, .withFee 8, .withFee 3]
  have hreset : Step.LastReset (front ++ .initialTx base :: rest) base rest :=
    ⟨by simp [rest], .inr ⟨front, rfl⟩⟩
  have hnet : ((front ++ .initialTx base :: rest).map
      (Step.contribution (onesRoot.names onesCache))).sum =
        onesChild.secretKey.scalar.toZMod := by
    simp [front, rest, Step.contribution, share_of_names names_onesCache]
  have hcommittable : ∀ step ∈ front ++ .initialTx base :: rest,
      step.Committable (onesRoot.names onesCache) := by
    simp only [front, rest, List.cons_append, List.nil_append, List.forall_mem_cons]
    exact ⟨committable_ones, trivial, committable_ones, trivial, committable_ones, trivial, trivial,
      List.forall_mem_nil _⟩
  have hfound : ∀ step ∈ front ++ .initialTx base :: rest,
      step.Found (onesRoot.names onesCache) := by
    simp [front, rest, Step.Found, Step.keyId?, names_onesCache]
  have hne : onesChild.secretKey.scalar.toZMod ≠ 0 := by
    rw [ne_eq, Residue.toZMod_eq_zero]
    exact onesChild.secretKey.ne_zero
  obtain ⟨⟨tx, blind⟩, hanswer⟩ := @exists_build onesRoot _ _ hcommittable hfound (hnet ▸ hne)
    (signingEnds_ones hnet rfl rfl)
  rw [← (KeyRoot.Later.refl onesRoot onesCache).result_eq (resolving_build _) reaches_onesCache
    distinctChildren_onesCache] at hanswer
  obtain ⟨-, hparts, -, -, hblind⟩ :=
    parts_of_build reaches_onesCache distinctChildren_onesCache hanswer
  obtain ⟨ins, outs, hins, houts, hinputs, houtputs, hfee, hlockHeight⟩ :=
    hparts base rest hreset
  refine ⟨tx, blind, hanswer, ?_, ?_, hfee, hlockHeight, ?_⟩
  · rw [hinputs]
    exact hins.length_eq.symm
  · rw [houtputs]
    exact List.forall₂_nil_left_iff.mp houts
  · exact Residue.toZMod_injective (hblind.trans hnet)

end Transaction

end ConfidentialTx
