import Mathlib
import ConfidentialTx.Proofs.Builder.Steps

namespace ConfidentialTx

variable {root : KeyRoot} {names : Identifier → Except KeychainError SecretKey}

namespace Step

def spent (root : KeyRoot) (names : Identifier → Except KeychainError SecretKey) :
    Step → Option (Except KeychainError Input)
  | input value id => some (Input.mk <$> (Keychain.commit value id).answer root names)
  | _ => none

def created (root : KeyRoot) (names : Identifier → Except KeychainError SecretKey) :
    Step → Option (Except KeychainError Output)
  | output value id => some ((makeOutput value id).answer root names)
  | _ => none

theorem change_withExcessSig {step : Step} {g : Transaction → Transaction}
    (hstep : step.change root names = .ok g) (tx : Transaction) (sig : Bytes) :
    ∃ sig', g { tx with excessSig := sig } = { g tx with excessSig := sig' } := by
  cases step with
  | input value id =>
    obtain ⟨c, -, rfl⟩ := map_eq_ok_iff.mp hstep
    exact ⟨sig, rfl⟩
  | output value id =>
    obtain ⟨o, -, rfl⟩ := map_eq_ok_iff.mp hstep
    exact ⟨sig, rfl⟩
  | withFee fee =>
    cases hstep
    exact ⟨sig, rfl⟩
  | withLockHeight lockHeight =>
    cases hstep
    exact ⟨sig, rfl⟩
  | initialTx tx' =>
    cases hstep
    exact ⟨tx'.excessSig, rfl⟩
  | withExcess blind =>
    cases hstep
    exact ⟨sig, rfl⟩

theorem changes_withExcessSig {steps : List Step} {g : Transaction → Transaction}
    (hsteps : changes root names steps = .ok g) (tx : Transaction) (sig : Bytes) :
    ∃ sig', g { tx with excessSig := sig } = { g tx with excessSig := sig' } := by
  induction steps generalizing tx sig g with
  | nil =>
    cases hsteps
    exact ⟨sig, rfl⟩
  | cons step steps ih =>
    obtain ⟨g₁, hstep, h⟩ := bind_eq_ok_iff.mp hsteps
    obtain ⟨g₂, hrest, h⟩ := bind_eq_ok_iff.mp h
    cases h
    obtain ⟨sig₁, h₁⟩ := change_withExcessSig hstep tx sig
    obtain ⟨sig₂, h₂⟩ := ih hrest (g₁ tx) sig₁
    exact ⟨sig₂, by rw [Function.comp_apply, h₁, h₂, Function.comp_apply]⟩

theorem change_parts {step : Step} {g : Transaction → Transaction}
    (hstep : step.change root names = .ok g) (hkeep : ∀ tx, step ≠ .initialTx tx) :
    ∃ ins outs, (step.spent root names).toList = ins.map .ok ∧
      (step.created root names).toList = outs.map .ok ∧
      ∀ tx, (g tx).inputs = tx.inputs ++ ins ∧ (g tx).outputs = tx.outputs ++ outs := by
  cases step with
  | input value id =>
    obtain ⟨c, hc, rfl⟩ := map_eq_ok_iff.mp hstep
    refine ⟨[⟨c⟩], [], ?_, rfl, fun tx ↦ ⟨rfl, (List.append_nil _).symm⟩⟩
    rw [spent, hc]
    rfl
  | output value id =>
    obtain ⟨o, ho, rfl⟩ := map_eq_ok_iff.mp hstep
    refine ⟨[], [o], rfl, ?_, fun tx ↦ ⟨(List.append_nil _).symm, rfl⟩⟩
    rw [created, ho]
    rfl
  | withFee fee =>
    cases hstep
    exact ⟨[], [], rfl, rfl, fun tx ↦ ⟨(List.append_nil _).symm, (List.append_nil _).symm⟩⟩
  | withLockHeight lockHeight =>
    cases hstep
    exact ⟨[], [], rfl, rfl, fun tx ↦ ⟨(List.append_nil _).symm, (List.append_nil _).symm⟩⟩
  | initialTx tx' => exact absurd rfl (hkeep tx')
  | withExcess blind =>
    cases hstep
    exact ⟨[], [], rfl, rfl, fun tx ↦ ⟨(List.append_nil _).symm, (List.append_nil _).symm⟩⟩

theorem filterMap_cons_toList {α β : Type} (f : α → Option β) (a : α) (as : List α) :
    (a :: as).filterMap f = (f a).toList ++ as.filterMap f := by
  rw [List.filterMap_cons]
  cases f a <;> rfl

theorem changes_parts {steps : List Step} {g : Transaction → Transaction}
    (hsteps : changes root names steps = .ok g) (hkeep : ∀ tx, .initialTx tx ∉ steps) :
    ∃ ins outs, steps.filterMap (spent root names) = ins.map .ok ∧
      steps.filterMap (created root names) = outs.map .ok ∧
      ∀ tx, (g tx).inputs = tx.inputs ++ ins ∧ (g tx).outputs = tx.outputs ++ outs := by
  induction steps generalizing g with
  | nil =>
    cases hsteps
    exact ⟨[], [], rfl, rfl, fun tx ↦ ⟨(List.append_nil _).symm, (List.append_nil _).symm⟩⟩
  | cons step steps ih =>
    obtain ⟨g₁, hstep, h⟩ := bind_eq_ok_iff.mp hsteps
    obtain ⟨g₂, hrest, h⟩ := bind_eq_ok_iff.mp h
    cases h
    obtain ⟨ins, outs, hins, houts, hfirst⟩ :=
      change_parts hstep fun tx h ↦ hkeep tx (h ▸ List.mem_cons_self)
    obtain ⟨ins', outs', hins', houts', hothers⟩ :=
      ih hrest fun tx h ↦ hkeep tx (List.mem_cons_of_mem _ h)
    refine ⟨ins ++ ins', outs ++ outs', ?_, ?_, fun tx ↦ ⟨?_, ?_⟩⟩
    · rw [filterMap_cons_toList, hins, hins', List.map_append]
    · rw [filterMap_cons_toList, houts, houts', List.map_append]
    · rw [Function.comp_apply, (hothers _).1, (hfirst tx).1, List.append_assoc]
    · rw [Function.comp_apply, (hothers _).2, (hfirst tx).2, List.append_assoc]

end Step

namespace Transaction

theorem signed_withExcessSig (tx : Transaction) (sig : Bytes) (blind : ZMod groupOrder) :
    { tx with excessSig := sig }.signed blind = tx.signed blind := by
  simp only [signed, message, withExcessSig]

/-- The steps that take up a transaction again, whatever its signature has become. -/
def resumed (tx : Transaction) (sig : Bytes) (blind : BlindingFactor) : List Step :=
  [.initialTx { tx with excessSig := sig }, .withExcess blind]

theorem answer_resumed (tx : Transaction) (sig : Bytes) (blind : BlindingFactor)
    (steps : List Step) :
    (build (tx.resumed sig blind ++ steps)).answer root names =
      (Step.changes root names steps >>= fun g ↦ (g { tx with excessSig := sig }).signed
        (blind.scalar.toZMod + (steps.map (Step.contribution names)).sum)).mapError .keychain := by
  have hcontribution : ((tx.resumed sig blind ++ steps).map (Step.contribution names)).sum =
      blind.scalar.toZMod + (steps.map (Step.contribution names)).sum := by
    simp [resumed, Step.contribution]
  have hresumed : Step.changes root names (tx.resumed sig blind) =
      .ok fun _ ↦ { tx with excessSig := sig } := rfl
  rw [answer_build, hcontribution, Step.changes_append, hresumed, ok_bind, bind_assoc]
  simp only [pure_bind, Function.comp_apply]

theorem answer_resumed_of_build {first rest : List Step} {tx : Transaction}
    {blind : BlindingFactor} (h : (build first).answer root names = .ok (tx, blind)) (sig : Bytes) :
    (build (tx.resumed sig blind ++ rest)).answer root names =
      (build (first ++ rest)).answer root names := by
  obtain ⟨g, hg, hsigned⟩ := answer_build_eq_ok h
  obtain ⟨⟨key, made, -, -, rfl⟩, hblind⟩ := signed_eq_ok hsigned
  rw [answer_resumed, answer_build, List.map_append, List.sum_append, hblind,
    Step.changes_append, hg, ok_bind, bind_assoc]
  simp only [pure_bind, Function.comp_apply]
  refine congrArg (Except.mapError BuilderError.keychain) ?_
  cases hrest : Step.changes root names rest with
  | error e => rw [error_bind, error_bind]
  | ok g' =>
    obtain ⟨sig', hsig'⟩ := Step.changes_withExcessSig hrest (g .empty) sig
    have hsame : { (g .empty).withExcessSig made with excessSig := sig } =
        { g .empty with excessSig := sig } := rfl
    rw [ok_bind, ok_bind, hsame, hsig', signed_withExcessSig]

/-- A transaction that is taken up again, with any signature, ends as it would have in one go, by the
same error or with the same transaction and blinding factor. One that comes from elsewhere keeps its
parts in front of those of the new steps, whose contributions its blinding factor gains. -/
theorem build_resumed {start cache₁ cache₂ cache₃ : KeyCache} (hreach : root.Reaches start)
    (hdistinct : root.DistinctChildren start) (h₁ : root.Later start cache₁)
    (h₂ : root.Later start cache₂) (h₃ : root.Later start cache₃) (first rest : List Step)
    (sig : Bytes) :
    (∀ tx blind, (build first).result root cache₁ = .ok (tx, blind) →
      (build (tx.resumed sig blind ++ rest)).result root cache₂ =
        (build (first ++ rest)).result root cache₃) ∧
    ∀ elsewhere cache tx blind tx' blind',
      (build first).result elsewhere cache = .ok (tx, blind) →
      (build (tx.resumed sig blind ++ rest)).result root cache₂ = .ok (tx', blind') →
      ((∀ tx, .initialTx tx ∉ rest) → ∃ ins outs,
        rest.filterMap (Step.spent root (root.names start)) = ins.map .ok ∧
        rest.filterMap (Step.created root (root.names start)) = outs.map .ok ∧
        tx'.inputs = tx.inputs ++ ins ∧ tx'.outputs = tx.outputs ++ outs) ∧
      blind'.scalar.toZMod = blind.scalar.toZMod +
        (rest.map (Step.contribution (root.names start))).sum := by
  refine ⟨fun tx blind hfirst ↦ ?_, fun elsewhere cache tx blind tx' blind' _ hrest ↦ ?_⟩
  · rw [h₁.result_eq (resolving_build _) hreach hdistinct] at hfirst
    rw [h₂.result_eq (resolving_build _) hreach hdistinct,
      h₃.result_eq (resolving_build _) hreach hdistinct]
    exact answer_resumed_of_build hfirst sig
  · rw [h₂.result_eq (resolving_build _) hreach hdistinct, answer_resumed,
      mapError_eq_ok_iff] at hrest
    obtain ⟨g, hg, hsigned⟩ := bind_eq_ok_iff.mp hrest
    obtain ⟨⟨key, made, -, -, rfl⟩, hblind⟩ := signed_eq_ok hsigned
    refine ⟨fun hkeep ↦ ?_, hblind⟩
    obtain ⟨ins, outs, hins, houts, hparts⟩ := Step.changes_parts hg hkeep
    exact ⟨ins, outs, hins, houts, (hparts _).1, (hparts _).2⟩

set_option maxRecDepth 4000 in
theorem build_resumed_lone :
    ∃ tx blind tx' blind',
      (build [.input 5 .zero, .withFee 5]).result .lone .empty = .ok (tx, blind) ∧
      (build (tx.resumed [] blind ++ [.input 2 .zero, .withFee 7])).result .lone .empty =
        .ok (tx', blind') ∧
      (build [.input 5 .zero, .withFee 5, .input 2 .zero, .withFee 7]).result .lone .empty =
        .ok (tx', blind') ∧
      tx.inputs <+: tx'.inputs := by
  have hfirst : ((build [.input 5 .zero, .withFee 5]).result .lone .empty).isOk := by
    decide +kernel
  have hwhole : ((build ([.input 5 .zero, .withFee 5] ++
      [.input 2 .zero, .withFee 7])).result .lone .empty).isOk := by
    decide +kernel
  obtain ⟨⟨tx, blind⟩, hfirst⟩ := exists_of_isOk hfirst
  obtain ⟨⟨tx', blind'⟩, hwhole⟩ := exists_of_isOk hwhole
  have hlater := KeyRoot.Later.refl .lone .empty
  obtain ⟨hsame, hparts⟩ := build_resumed (KeyRoot.reaches_empty .lone)
    KeyRoot.distinctChildren_lone hlater hlater hlater [.input 5 .zero, .withFee 5]
    [.input 2 .zero, .withFee 7] []
  have hrest := (hsame tx blind hfirst).trans hwhole
  obtain ⟨ins, outs, -, -, hinputs, -⟩ :=
    (hparts .lone .empty tx blind tx' blind' hfirst hrest).1 (by simp)
  exact ⟨tx, blind, tx', blind', hfirst, hrest, hwhole, ins, hinputs.symm⟩

end Transaction

end ConfidentialTx
