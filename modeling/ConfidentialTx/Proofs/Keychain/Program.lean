import Mathlib
import ConfidentialTx.Keychain.Program
import ConfidentialTx.Proofs.Keychain.Cache
import ConfidentialTx.Proofs.Results

namespace ConfidentialTx

theorem KeyRoot.value_ofSeed (config : KeychainConfig) (seed : Bytes) :
    (ofSeed config seed).run.value =
      (fun key ↦ ⟨key, config⟩) <$> ExtendedKey.ofSeed .commit seed := by
  unfold ofSeed
  cases ExtendedKey.ofSeed .commit seed <;> rfl

/-- A program over a new keychain can leave the cache like this. -/
def KeyRoot.Reaches (root : KeyRoot) (cache : KeyCache) : Prop :=
  ∃ (α : Type) (p : KeyProgram α), (p.run root .empty).value.2 = cache

namespace KeyProgram

variable {α β : Type} {root : KeyRoot} {names : Identifier → Except KeychainError SecretKey}

theorem run_sound (p : KeyProgram α) {cache : KeyCache} (hsound : cache.Sound root) :
    (p.run root cache).value.2.Sound root := by
  induction p generalizing cache with
  | done a => exact hsound
  | derive index next ih => exact ih _ (KeyRoot.derive_sound hsound index)
  | resolve id next ih => exact ih _ (KeyRoot.resolve_spec hsound id).2.1
  | log event next ih => exact ih hsound

def Resolving : KeyProgram α → Prop
  | done _ => True
  | derive .. => False
  | resolve _ next => ∀ answer, (next answer).Resolving
  | log _ next => next.Resolving

theorem Resolving.bind {p : KeyProgram α} {f : α → KeyProgram β} (hp : p.Resolving)
    (hf : ∀ a, (f a).Resolving) : (p.bind f).Resolving := by
  induction p with
  | done a => exact hf a
  | derive index next ih => exact hp.elim
  | resolve id next ih => exact fun answer ↦ ih answer (hp answer)
  | log event next ih => exact ih hp

/-- The result when each identifier names a key, and each index a child, once and for all. -/
def answer (root : KeyRoot) (names : Identifier → Except KeychainError SecretKey) :
    KeyProgram α → α
  | done a => a
  | derive index next => answer root names (next ((root.child index).map Prod.snd))
  | resolve id next => answer root names (next (names id))
  | log _ next => answer root names next

theorem answer_bind (p : KeyProgram α) (f : α → KeyProgram β) :
    (p.bind f).answer root names = (f (p.answer root names)).answer root names := by
  induction p with
  | done a => rfl
  | derive index next ih => exact ih _
  | resolve id next ih => exact ih _
  | log event next ih => exact ih

/-- The cache may have grown since the names were looked up. -/
theorem run_spec {p : KeyProgram α} (hp : p.Resolving) {start cache : KeyCache}
    (hstart : start.Sound root) (hdistinct : root.DistinctChildren start)
    (hsound : cache.Sound root) (hgrown : root.Grown start cache) :
    (p.run root cache).value.1 = p.answer root (root.names start) ∧
    root.Grown start (p.run root cache).value.2 := by
  induction p generalizing cache with
  | done a => exact ⟨rfl, hgrown⟩
  | derive index next ih => exact hp.elim
  | resolve id next ih =>
    obtain ⟨-, hsound', hgrown'⟩ := KeyRoot.resolve_spec hsound id
    have hnext := ih (root.resolve id cache).value.1 (hp _) hsound' (hgrown.trans hgrown')
    have hname : (root.resolve id cache).value.1 = root.names start id :=
      congrFun (KeyRoot.names_of_grown hstart hsound hgrown hdistinct) id
    simp only [run, Logged.value_bind, answer]
    rw [← hname]
    exact hnext
  | log event next ih => exact ih hp hsound hgrown

end KeyProgram

theorem KeyRoot.Reaches.sound {root : KeyRoot} {cache : KeyCache} (h : root.Reaches cache) :
    cache.Sound root := by
  obtain ⟨α, p, rfl⟩ := h
  exact p.run_sound KeyCache.sound_empty

theorem KeyRoot.reaches_empty (root : KeyRoot) : root.Reaches .empty :=
  ⟨Unit, .done (), rfl⟩

namespace Keyed

variable {ε α β : Type} {root : KeyRoot} {names : Identifier → Except KeychainError SecretKey}

def result (root : KeyRoot) (cache : KeyCache) (x : Keyed ε α) : Except ε α :=
  (x.run.run root cache).value.1

def answer (root : KeyRoot) (names : Identifier → Except KeychainError SecretKey)
    (x : Keyed ε α) : Except ε α :=
  x.run.answer root names

@[simp] theorem answer_pure (a : α) : (pure a : Keyed ε α).answer root names = .ok a := rfl

@[simp] theorem answer_ofExcept (r : Except ε α) : (ofExcept r).answer root names = r := rfl

@[simp] theorem answer_ofCurve (r : Except CurveError α) :
    (ofCurve r).answer root names = r.mapError .ofCurve := rfl

@[simp] theorem answer_log (event : LogEvent) :
    (log event : Keyed ε Unit).answer root names = .ok () := rfl

@[simp] theorem answer_secretKey (id : Identifier) :
    (Keychain.secretKey id).answer root names = names id := rfl

@[simp] theorem answer_bind (x : Keyed ε α) (f : α → Keyed ε β) :
    (x >>= f).answer root names = x.answer root names >>= fun a ↦ (f a).answer root names := by
  unfold answer
  change (x.run.bind (ExceptT.bindCont f)).answer root names = _
  rw [KeyProgram.answer_bind]
  cases x.run.answer root names with
  | ok a => rfl
  | error e => rfl

@[simp] theorem answer_mapError {δ : Type} (f : ε → δ) (x : Keyed ε α) :
    (x.mapError f).answer root names = (x.answer root names).mapError f := by
  unfold answer mapError
  rw [ExceptT.run_mk, KeyProgram.answer_bind]
  rfl

def Resolving (x : Keyed ε α) : Prop := x.run.Resolving

theorem resolving_pure (a : α) : (pure a : Keyed ε α).Resolving := trivial

theorem resolving_ofExcept (r : Except ε α) : (ofExcept r).Resolving := trivial

theorem resolving_log (event : LogEvent) : (log event : Keyed ε Unit).Resolving := trivial

theorem resolving_secretKey (id : Identifier) : (Keychain.secretKey id).Resolving :=
  fun _ ↦ trivial

theorem Resolving.bind {x : Keyed ε α} {f : α → Keyed ε β} (hx : x.Resolving)
    (hf : ∀ a, (f a).Resolving) : (x >>= f).Resolving := by
  refine KeyProgram.Resolving.bind hx fun r ↦ ?_
  cases r with
  | ok a => exact hf a
  | error e => exact trivial

theorem Resolving.mapError {δ : Type} {x : Keyed ε α} (f : ε → δ) (hx : x.Resolving) :
    (x.mapError f).Resolving :=
  KeyProgram.Resolving.bind hx fun _ ↦ trivial

end Keyed

namespace Keychain

theorem resolving_commit (value : UInt64) (id : Identifier) : (commit value id).Resolving :=
  .bind (Keyed.resolving_secretKey id) fun _ ↦ Keyed.resolving_ofExcept _

theorem resolving_switchCommitHash (id : Identifier) : (switchCommitHash id).Resolving :=
  .bind (Keyed.resolving_secretKey id) fun _ ↦
    .bind (Keyed.resolving_ofExcept _) fun _ ↦ Keyed.resolving_pure _

theorem resolving_rangeProof (value : UInt64) (id : Identifier) (c : Commitment)
    (message : Bytes) : (rangeProof value id c message).Resolving :=
  .bind (Keyed.resolving_secretKey id) fun _ ↦ Keyed.resolving_ofExcept _

theorem resolving_signWithBlinding (msg : Message) (blind : BlindingFactor) :
    (signWithBlinding msg blind).Resolving :=
  .bind (Keyed.resolving_ofExcept _) fun _ ↦ Keyed.resolving_ofExcept _

theorem resolving_secretKeys (ids : List Identifier) : (secretKeys ids).Resolving := by
  induction ids with
  | nil => exact Keyed.resolving_pure []
  | cons id ids ih =>
    exact .bind (Keyed.resolving_secretKey id) fun _ ↦ .bind ih fun _ ↦ Keyed.resolving_pure _

theorem resolving_blindSum (sum : BlindSum) : (blindSum sum).Resolving :=
  .bind (resolving_secretKeys _) fun _ ↦
    .bind (resolving_secretKeys _) fun _ ↦ Keyed.resolving_pure _

end Keychain

namespace KeyRoot

variable {root : KeyRoot} {start cache : KeyCache}

/-- Since the first state the keychain was only asked for secret keys. -/
def Later (root : KeyRoot) (start cache : KeyCache) : Prop :=
  ∃ (α : Type) (p : KeyProgram α), p.Resolving ∧ (p.run root start).value.2 = cache

theorem Later.refl (root : KeyRoot) (start : KeyCache) : root.Later start start :=
  ⟨Unit, .done (), trivial, rfl⟩

theorem Later.sound (h : root.Later start cache) (hstart : start.Sound root) : cache.Sound root := by
  obtain ⟨α, p, -, rfl⟩ := h
  exact p.run_sound hstart

theorem Later.grown (h : root.Later start cache) (hstart : start.Sound root)
    (hdistinct : root.DistinctChildren start) : root.Grown start cache := by
  obtain ⟨α, p, hp, rfl⟩ := h
  exact (KeyProgram.run_spec hp hstart hdistinct hstart (.refl root start)).2

/-- What a program concludes does not depend on when it runs. -/
theorem Later.result_eq {ε α : Type} {x : Keyed ε α} (hx : x.Resolving)
    (h : root.Later start cache) (hreach : root.Reaches start)
    (hdistinct : root.DistinctChildren start) :
    x.result root cache = x.answer root (root.names start) :=
  (KeyProgram.run_spec hx hreach.sound hdistinct (h.sound hreach.sound)
    (h.grown hreach.sound hdistinct)).1

end KeyRoot

end ConfidentialTx
