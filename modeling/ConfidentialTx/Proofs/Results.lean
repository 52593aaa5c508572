import Mathlib
import ConfidentialTx.Transaction.Validate

namespace ConfidentialTx

@[simp] theorem ok_bind {ε α β : Type} (a : α) (f : α → Except ε β) :
    (Except.ok a >>= f) = f a := rfl

@[simp] theorem error_bind {ε α β : Type} (e : ε) (f : α → Except ε β) :
    (Except.error e >>= f) = .error e := rfl

theorem exists_of_isOk {ε α : Type} {x : Except ε α} (h : x.isOk = true) : ∃ a, x = .ok a := by
  cases x with
  | ok a => exact ⟨a, rfl⟩
  | error e => cases h

theorem bind_eq_ok_iff {ε α β : Type} {x : Except ε α} {f : α → Except ε β} {b : β} :
    (x >>= f) = .ok b ↔ ∃ a, x = .ok a ∧ f a = .ok b := by
  cases x with
  | ok a =>
    constructor
    · intro h
      exact ⟨a, rfl, h⟩
    · rintro ⟨_, ha, h⟩
      cases ha
      exact h
  | error e =>
    constructor
    · intro h
      cases h
    · rintro ⟨_, ha, -⟩
      cases ha

theorem map_eq_ok_iff {ε α β : Type} {x : Except ε α} {f : α → β} {b : β} :
    f <$> x = .ok b ↔ ∃ a, x = .ok a ∧ f a = b := by
  cases x with
  | ok a =>
    constructor
    · intro h
      exact ⟨a, rfl, Except.ok.inj h⟩
    · rintro ⟨_, ha, rfl⟩
      cases ha
      rfl
  | error e =>
    constructor
    · intro h
      cases h
    · rintro ⟨_, ha, -⟩
      cases ha

theorem mapM_cons_eq_some {α β : Type} {f : α → Option β} {a : α} {as : List α} {bs : List β}
    (h : (a :: as).mapM f = some bs) :
    ∃ b rest, f a = some b ∧ as.mapM f = some rest ∧ bs = b :: rest := by
  rw [List.mapM_cons] at h
  obtain ⟨b, hb, h⟩ := Option.bind_eq_some_iff.mp h
  obtain ⟨rest, hrest, h⟩ := Option.bind_eq_some_iff.mp h
  exact ⟨b, rest, hb, hrest, (Option.some.inj h).symm⟩

theorem mapError_eq_ok_iff {ε δ α : Type} {x : Except ε α} {f : ε → δ} {a : α} :
    x.mapError f = .ok a ↔ x = .ok a := by
  cases x <;> simp [Except.mapError]

namespace Capability

theorem requireCommit_commit : commit.requireCommit = .ok () := rfl

theorem requireCommit_of_ne {cap : Capability} (h : cap ≠ .commit) :
    cap.requireCommit = .error .incapableContext := by
  simp [requireCommit, require, h]

theorem requireCommit_bind_eq_ok_iff {α : Type} {cap : Capability} {m : Except CurveError α} {a : α} :
    (cap.requireCommit >>= fun _ ↦ m) = .ok a ↔ cap = .commit ∧ m = .ok a := by
  constructor
  · intro h
    by_cases hcap : cap = .commit
    · subst hcap
      exact ⟨rfl, h⟩
    · rw [requireCommit_of_ne hcap] at h
      cases h
  · intro h
    obtain ⟨rfl, h⟩ := h
    exact h

end Capability

namespace Checked

variable {α β : Type}

/-- What a check concludes, without the events on the way. -/
def result (x : Checked α) : Except TransactionError α := x.run.value

@[simp] theorem result_pure (a : α) : (pure a : Checked α).result = .ok a := rfl

@[simp] theorem result_throw (e : TransactionError) : (throw e : Checked α).result = .error e := rfl

@[simp] theorem result_ofExcept (r : Except TransactionError α) : (ofExcept r).result = r := rfl

@[simp] theorem result_ofCurve (r : Except CurveError α) :
    (ofCurve r).result = r.mapError .ofCurve := rfl

@[simp] theorem result_log (event : LogEvent) : (log event).result = .ok () := rfl

@[simp] theorem result_bind (x : Checked α) (f : α → Checked β) :
    (x >>= f).result = x.result >>= fun a ↦ (f a).result := by
  unfold result
  rw [ExceptT.run_bind, Logged.value_bind]
  cases x.run.value with
  | ok a => rfl
  | error e => rfl

end Checked

end ConfidentialTx
