import Mathlib
import ConfidentialTx.Proofs.Keychain.Within

namespace ConfidentialTx

namespace KeyProgram

variable {ε α β : Type} {root : KeyRoot}

/-- A request that fails ends the program. -/
def Strict : KeyProgram (Except ε α) → Prop
  | done _ => True
  | derive _ next => (∀ e, ∃ e', next (.error e) = done (.error e')) ∧ ∀ id, (next (.ok id)).Strict
  | resolve _ next => (∀ e, ∃ e', next (.error e) = done (.error e')) ∧ ∀ key, (next (.ok key)).Strict
  | log _ next => next.Strict

theorem Strict.of_derive {index : UInt32} {next : Except KeychainError Identifier → KeyProgram (Except ε α)}
    (h : (derive index next).Strict) (answer : Except KeychainError Identifier) :
    (next answer).Strict := by
  cases answer with
  | ok id => exact h.2 id
  | error e =>
    obtain ⟨e', hdone⟩ := h.1 e
    rw [hdone]
    exact trivial

theorem Strict.of_resolve {id : Identifier} {next : Except KeychainError SecretKey → KeyProgram (Except ε α)}
    (h : (resolve id next).Strict) (answer : Except KeychainError SecretKey) :
    (next answer).Strict := by
  cases answer with
  | ok key => exact h.2 key
  | error e =>
    obtain ⟨e', hdone⟩ := h.1 e
    rw [hdone]
    exact trivial

theorem Strict.bindCont {p : KeyProgram (Except ε α)} {f : α → Keyed ε β} (hp : p.Strict)
    (hf : ∀ a, (f a).run.Strict) : (p.bind (ExceptT.bindCont f)).Strict := by
  induction p with
  | done r =>
    cases r with
    | ok a => exact hf a
    | error e => exact trivial
  | derive index next ih =>
    refine ⟨fun e ↦ ?_, fun id ↦ ih _ (hp.2 id)⟩
    obtain ⟨e', hdone⟩ := hp.1 e
    exact ⟨e', congrArg (bind (ExceptT.bindCont f)) hdone⟩
  | resolve id next ih =>
    refine ⟨fun e ↦ ?_, fun key ↦ ih _ (hp.2 key)⟩
    obtain ⟨e', hdone⟩ := hp.1 e
    exact ⟨e', congrArg (bind (ExceptT.bindCont f)) hdone⟩
  | log event next ih => exact ih hp

theorem keeps_run (p : KeyProgram β) {cache : KeyCache} (hsound : cache.Sound root) :
    cache.Keeps (p.run root cache).value.2 := by
  induction p generalizing cache with
  | done b => exact .refl cache
  | derive index next ih =>
    exact (root.keeps_derive index cache).trans (ih _ (KeyRoot.derive_sound hsound index))
  | resolve id next ih =>
    exact (KeyRoot.keeps_resolve hsound id).trans (ih _ (KeyRoot.resolve_spec hsound id).2.1)
  | log event next ih => exact ih hsound

/-- The result of a program that asks for no secret key. -/
def foretell (root : KeyRoot) : KeyProgram β → Option β
  | done b => some b
  | derive index next => foretell root (next ((root.child index).map Prod.snd))
  | resolve .. => none
  | log _ next => foretell root next

end KeyProgram

namespace Keyed

variable {ε α β : Type}

def Strict (x : Keyed ε α) : Prop := x.run.Strict

theorem strict_pure (a : α) : (pure a : Keyed ε α).Strict := trivial

theorem strict_ofExcept (r : Except ε α) : (ofExcept r).Strict := trivial

theorem strict_secretKey (id : Identifier) : (Keychain.secretKey id).Strict :=
  ⟨fun e ↦ ⟨e, rfl⟩, fun _ ↦ trivial⟩

theorem strict_deriveKeyId (index : UInt32) : (Keychain.deriveKeyId index).Strict :=
  ⟨fun e ↦ ⟨e, rfl⟩, fun _ ↦ trivial⟩

theorem Strict.bind {x : Keyed ε α} {f : α → Keyed ε β} (hx : x.Strict) (hf : ∀ a, (f a).Strict) :
    (x >>= f).Strict :=
  KeyProgram.Strict.bindCont hx hf

end Keyed

namespace Keychain

inductive Task
  | call (call : Call)
  | verifyRangeProof (c : Commitment) (proof : RangeProof)
  | signWithBlinding (msg : Message) (blind : BlindingFactor)
  /-- Blinds the curve's computations anew, on which no result depends. -/
  | rerandomize

inductive Reply
  | answer (answer : Answer)
  | range (range : ProofRange)
  | done

namespace Task

def program : Task → Keyed KeychainError Reply
  | .call c => return .answer (← c.program)
  | .verifyRangeProof c proof => return .range (← Keychain.verifyRangeProof c proof)
  | .signWithBlinding msg blind =>
    return .answer (.signature (← Keychain.signWithBlinding msg blind))
  | .rerandomize => return .done

theorem strict_secretKeys (ids : List Identifier) : (secretKeys ids).Strict := by
  induction ids with
  | nil => exact Keyed.strict_pure []
  | cons id ids ih =>
    exact .bind (Keyed.strict_secretKey id) fun _ ↦ .bind ih fun _ ↦ Keyed.strict_pure _

theorem strict_withKey {α : Type} (id : Identifier) (f : SecretKey → Except CurveError α)
    (wrap : α → Answer) :
    Keyed.Strict (do
      let a ← (do let key ← secretKey id; Keyed.ofCurve (f key))
      return wrap a : Keyed KeychainError Answer) :=
  .bind (.bind (Keyed.strict_secretKey id) fun _ ↦ Keyed.strict_ofExcept _)
    fun _ ↦ Keyed.strict_pure _

theorem strict_call (call : Call) : call.program.Strict := by
  cases call with
  | deriveKeyId index => exact .bind (Keyed.strict_deriveKeyId index) fun _ ↦ Keyed.strict_pure _
  | commit value id => exact strict_withKey id _ _
  | commitWithKeyIndex value index =>
    refine .bind (.bind (Keyed.strict_deriveKeyId index) fun id ↦ ?_) fun _ ↦ Keyed.strict_pure _
    exact .bind (Keyed.strict_secretKey id) fun _ ↦ Keyed.strict_ofExcept _
  | switchCommit id => exact strict_withKey id _ _
  | switchCommitHash id =>
    refine .bind (.bind (Keyed.strict_secretKey id) fun _ ↦ ?_) fun _ ↦ Keyed.strict_pure _
    exact .bind (Keyed.strict_ofExcept _) fun _ ↦ Keyed.strict_pure _
  | rangeProof value id c message => exact strict_withKey id _ _
  | rewindRangeProof id c proof => exact strict_withKey id _ _
  | sign msg id => exact strict_withKey id _ _
  | blindSum sum =>
    refine .bind (.bind (strict_secretKeys _) fun _ ↦ ?_) fun _ ↦ Keyed.strict_pure _
    exact .bind (strict_secretKeys _) fun _ ↦ Keyed.strict_pure _

theorem strict_program (task : Task) : task.program.Strict := by
  cases task with
  | call call => exact .bind (strict_call call) fun _ ↦ Keyed.strict_pure _
  | verifyRangeProof c proof => exact .bind (Keyed.strict_ofExcept _) fun _ ↦ Keyed.strict_pure _
  | signWithBlinding msg blind =>
    refine .bind (.bind (Keyed.strict_ofExcept _) fun _ ↦ ?_) fun _ ↦ Keyed.strict_pure _
    exact Keyed.strict_ofExcept _
  | rerandomize => exact Keyed.strict_pure _

end Task

/-- A task on its way: the cache when it started, and what is left of it. -/
structure Pending where
  task : Task
  start : KeyCache
  rest : KeyProgram (Except KeychainError Reply)

structure Return where
  task : Task
  start : KeyCache
  result : Except KeychainError Reply

/-- A keychain's cache with the threads that share it, what has returned so far, and the secret keys
that identifiers have led to. -/
structure System (ι : Type) where
  cache : KeyCache
  threads : ι → Option Pending
  returns : List Return
  resolved : List (Identifier × SecretKey)

namespace System

variable {ι : Type}

def idle (cache : KeyCache) : System ι := ⟨cache, fun _ ↦ none, [], []⟩

open Classical in
noncomputable def put (s : System ι) (t : ι) (p : Option Pending) : System ι :=
  { s with threads := Function.update s.threads t p }

theorem threads_put_self (s : System ι) (t : ι) (p : Option Pending) :
    (s.put t p).threads t = p := by
  simp [put]

theorem threads_put_of_ne {t t' : ι} (s : System ι) (p : Option Pending) (h : t' ≠ t) :
    (s.put t p).threads t' = s.threads t' := by
  simp [put, h]

theorem threads_put_put {s s' : System ι} {t : ι} {p : Option Pending}
    (h : s'.threads = (s.put t p).threads) (q : Option Pending) :
    (s'.put t q).threads = (s.put t q).threads := by
  simp only [put, h, Function.update_idem]

end System

inductive Section {ι : Type} (root : KeyRoot) : System ι → System ι → Prop
  | start {s : System ι} {t : ι} (task : Task) (h : s.threads t = none) :
    Section root s (s.put t (some ⟨task, s.cache, task.program.run⟩))
  | derive {s : System ι} {t : ι} {task : Task} {start : KeyCache} {index : UInt32}
      {next : Except KeychainError Identifier → KeyProgram (Except KeychainError Reply)}
      (h : s.threads t = some ⟨task, start, .derive index next⟩) :
    Section root s
      (System.put { s with cache := (root.derive index s.cache).value.2 } t
        (some ⟨task, start, next (root.derive index s.cache).value.1⟩))
  | resolve {s : System ι} {t : ι} {task : Task} {start : KeyCache} {id : Identifier}
      {next : Except KeychainError SecretKey → KeyProgram (Except KeychainError Reply)}
      (h : s.threads t = some ⟨task, start, .resolve id next⟩) :
    Section root s
      (System.put { s with
        cache := (root.resolve id s.cache).value.2
        resolved := ((root.resolve id s.cache).value.1.toOption.map (id, ·)).toList ++ s.resolved } t
        (some ⟨task, start, next (root.resolve id s.cache).value.1⟩))
  | log {s : System ι} {t : ι} {task : Task} {start : KeyCache} {event : LogEvent}
      {rest : KeyProgram (Except KeychainError Reply)}
      (h : s.threads t = some ⟨task, start, .log event rest⟩) :
    Section root s (s.put t (some ⟨task, start, rest⟩))
  /-- The section on the curve, after which the call returns. -/
  | finish {s : System ι} {t : ι} {task : Task} {start : KeyCache}
      {result : Except KeychainError Reply}
      (h : s.threads t = some ⟨task, start, .done result⟩) :
    Section root s
      (System.put { s with returns := ⟨task, start, result⟩ :: s.returns } t none)

/-- Any sections of any threads, one after the other. -/
def Runs {ι : Type} (root : KeyRoot) : System ι → System ι → Prop :=
  Relation.ReflTransGen (Section root)

variable {ι : Type} {root : KeyRoot} {cache cache' : KeyCache} {task : Task} {start : KeyCache}

/-- What is left of a task leads to what the task returns alone, from a cache that it could have had
to itself; and nothing that others do changes what is decided without secret keys. -/
structure Faithful (root : KeyRoot) (cache : KeyCache) (p : Pending) : Prop where
  strict : p.rest.Strict
  follows : ∀ reply after, (p.task.program.run.run root p.start).value = (.ok reply, after) →
    root.Distinct (cache.held ∪ after.held) →
    ∃ solo : KeyCache, solo.Sound root ∧ root.Within solo cache ∧
      (p.rest.run root solo).value = (.ok reply, after)
  foretold : ∀ result, p.task.program.run.foretell root = some result →
    p.rest.foretell root = some result

namespace Faithful

theorem initial (hsound : cache.Sound root) (task : Task) :
    Faithful root cache ⟨task, cache, task.program.run⟩ where
  strict := task.strict_program
  follows _ _ h _ := ⟨cache, hsound, .refl root cache, h⟩
  foretold _ h := h

theorem keeps {p : Pending} (h : Faithful root cache p) (hkeeps : cache.Keeps cache') :
    Faithful root cache' p where
  strict := h.strict
  follows reply after hsolo hdistinct := by
    have hbefore := hdistinct.mono (Set.union_subset_union_left _ hkeeps.held_subset)
    obtain ⟨solo, hsound, hwithin, hrest⟩ := h.follows reply after hsolo hbefore
    exact ⟨solo, hsound, hwithin.keeps hkeeps, hrest⟩
  foretold := h.foretold

theorem derive {index : UInt32}
    {next : Except KeychainError Identifier → KeyProgram (Except KeychainError Reply)}
    (hcache : cache.Sound root) (h : Faithful root cache ⟨task, start, .derive index next⟩) :
    Faithful root (root.derive index cache).value.2
      ⟨task, start, next (root.derive index cache).value.1⟩ where
  strict := h.strict.of_derive _
  follows reply after hsolo hdistinct := by
    have hkeeps := root.keeps_derive index cache
    have hbefore := hdistinct.mono (Set.union_subset_union_left _ hkeeps.held_subset)
    obtain ⟨solo, hsound, hwithin, hrest⟩ := h.follows reply after hsolo hbefore
    refine ⟨(root.derive index solo).value.2, KeyRoot.derive_sound hsound index,
      hwithin.derive hcache index, ?_⟩
    rw [KeyRoot.derive_eq_child hcache, ← KeyRoot.derive_eq_child hsound]
    simpa only [KeyProgram.run, Logged.value_bind] using hrest
  foretold result hresult := by
    rw [KeyRoot.derive_eq_child hcache]
    exact h.foretold result hresult

theorem resolve {id : Identifier}
    {next : Except KeychainError SecretKey → KeyProgram (Except KeychainError Reply)}
    (hcache : cache.Sound root) (h : Faithful root cache ⟨task, start, .resolve id next⟩) :
    Faithful root (root.resolve id cache).value.2
      ⟨task, start, next (root.resolve id cache).value.1⟩ where
  strict := h.strict.of_resolve _
  follows reply after hsolo hdistinct := by
    have hkeeps := KeyRoot.keeps_resolve hcache id
    have hbefore := hdistinct.mono (Set.union_subset_union_left _ hkeeps.held_subset)
    obtain ⟨solo, hsound, hwithin, hrest⟩ := h.follows reply after hsolo hbefore
    simp only [KeyProgram.run, Logged.value_bind] at hrest
    have hsound' := (KeyRoot.resolve_spec hsound id).2.1
    have hafter := (next (root.resolve id solo).value.1).keeps_run hsound'
    rw [hrest] at hafter
    cases hkey : (root.resolve id solo).value.1 with
    | error e =>
      obtain ⟨e', hdone⟩ := h.strict.1 e
      rw [hkey, hdone] at hrest
      cases hrest
    | ok key =>
      have hheld := hbefore.mono (Set.union_subset_union_right _ hafter.held_subset)
      obtain ⟨hsame, hwithin'⟩ := KeyRoot.resolve_of_within hsound hcache hwithin hheld hkey
      rw [hkey] at hrest
      rw [hsame]
      exact ⟨_, hsound', hwithin', hrest⟩
  foretold result hresult := by
    cases h.foretold result hresult

theorem log {event : LogEvent} {rest : KeyProgram (Except KeychainError Reply)}
    (h : Faithful root cache ⟨task, start, .log event rest⟩) :
    Faithful root cache ⟨task, start, rest⟩ where
  strict := h.strict
  follows := h.follows
  foretold := h.foretold

end Faithful

/-- The return is that of the task alone, where it succeeds, and the one that is decided without
secret keys, if it is. -/
structure Returned (root : KeyRoot) (cache : KeyCache) (r : Return) : Prop where
  alone : ∀ reply after, (r.task.program.run.run root r.start).value = (.ok reply, after) →
    root.Distinct (cache.held ∪ after.held) → r.result = .ok reply
  foretold : ∀ result, r.task.program.run.foretell root = some result → r.result = result

theorem Returned.keeps {r : Return} (h : Returned root cache r) (hkeeps : cache.Keeps cache') :
    Returned root cache' r where
  alone reply after hsolo hdistinct := h.alone reply after hsolo
    (hdistinct.mono (Set.union_subset_union_left _ hkeeps.held_subset))
  foretold := h.foretold

theorem Faithful.finish {result : Except KeychainError Reply}
    (h : Faithful root cache ⟨task, start, .done result⟩) :
    Returned root cache ⟨task, start, result⟩ where
  alone reply after hsolo hdistinct := by
    obtain ⟨solo, -, -, hrest⟩ := h.follows reply after hsolo hdistinct
    cases hrest
    rfl
  foretold result' hresult := Option.some.inj (h.foretold result' hresult)

def Leads (root : KeyRoot) (cache : KeyCache) (id : Identifier) (key : SecretKey) : Prop :=
  id = root.id ∧ key = root.key.secretKey ∨
    id ≠ root.id ∧ ∃ i found, cache.id? i = some id ∧ root.child i = .ok (found, id) ∧ found.secretKey = key

theorem Leads.keeps {id : Identifier} {key : SecretKey} (h : Leads root cache id key)
    (hkeeps : cache.Keeps cache') : Leads root cache' id key := by
  rcases h with hroot | ⟨hroot, i, found, hi, hchild, hkey⟩
  · exact .inl hroot
  · exact .inr ⟨hroot, i, found, hkeeps i id hi, hchild, hkey⟩

theorem leads_resolve {id : Identifier} {key : SecretKey} (hsound : cache.Sound root)
    (h : (root.resolve id cache).value.1 = .ok key) :
    Leads root (root.resolve id cache).value.2 id key := by
  by_cases hroot : id = root.id
  · rw [KeyRoot.resolve, if_pos hroot] at h
    exact .inl ⟨hroot, (Except.ok.inj h).symm⟩
  · obtain ⟨found, hfound, hkey⟩ := KeyRoot.resolve_eq_ok hroot h
    obtain ⟨i, hi, hchild⟩ := (KeyRoot.resolve_spec hsound id).2.1.key id found hfound
    exact .inr ⟨hroot, i, found, hi, hchild, hkey⟩

theorem Leads.unique {id : Identifier} {key key' : SecretKey}
    (hdistinct : root.Distinct cache.held) (h : Leads root cache id key)
    (h' : Leads root cache id key') : key = key' := by
  rcases h with ⟨hroot, rfl⟩ | ⟨hroot, i, found, hi, hchild, rfl⟩
  · rcases h' with ⟨-, rfl⟩ | ⟨hroot', -⟩
    · rfl
    · exact absurd hroot hroot'
  · rcases h' with ⟨hroot', -⟩ | ⟨-, j, found', hj, hchild', rfl⟩
    · exact absurd hroot' hroot
    · obtain rfl := hdistinct i ⟨id, hi⟩ j ⟨id, hj⟩ _ _ _ hchild hchild'
      rw [hchild] at hchild'
      cases hchild'
      rfl

/-- What holds between any two sections. -/
structure Consistent (root : KeyRoot) (s : System ι) : Prop where
  sound : s.cache.Sound root
  pending : ∀ t p, s.threads t = some p → Faithful root s.cache p
  returned : ∀ r ∈ s.returns, Returned root s.cache r
  resolved : ∀ x ∈ s.resolved, Leads root s.cache x.1 x.2

namespace Consistent

variable {s s' : System ι}

theorem idle (hsound : cache.Sound root) : Consistent root (.idle cache : System ι) where
  sound := hsound
  pending _ _ h := by cases h
  returned _ h := by cases h
  resolved _ h := by cases h

theorem put {t t' : ι} {next : Option Pending} {p : Pending} (h : Consistent root s)
    (hthreads : s'.threads = s.threads) (hkeeps : s.cache.Keeps cache)
    (hnext : ∀ q, next = some q → Faithful root cache q)
    (hp : (s'.put t next).threads t' = some p) : Faithful root cache p := by
  by_cases ht : t' = t
  · subst ht
    rw [System.threads_put_self] at hp
    exact hnext p hp
  · rw [System.threads_put_of_ne _ _ ht, hthreads] at hp
    exact (h.pending t' p hp).keeps hkeeps

theorem returned_keeps (h : Consistent root s) (hkeeps : s.cache.Keeps cache) :
    ∀ r ∈ s.returns, Returned root cache r :=
  fun r hr ↦ (h.returned r hr).keeps hkeeps

theorem resolved_keeps (h : Consistent root s) (hkeeps : s.cache.Keeps cache) :
    ∀ x ∈ s.resolved, Leads root cache x.1 x.2 :=
  fun x hx ↦ (h.resolved x hx).keeps hkeeps

theorem step (h : Consistent root s) (hstep : Section root s s') : Consistent root s' := by
  cases hstep with
  | start task hidle =>
    refine ⟨h.sound, fun t p hp ↦ h.put rfl (.refl _) ?_ hp, h.returned, h.resolved⟩
    rintro q ⟨⟩
    exact .initial h.sound task
  | @derive t task start index next hthread =>
    have hkeeps := root.keeps_derive index s.cache
    refine ⟨KeyRoot.derive_sound h.sound index, fun t p hp ↦ h.put rfl hkeeps ?_ hp,
      h.returned_keeps hkeeps, h.resolved_keeps hkeeps⟩
    rintro q ⟨⟩
    exact (h.pending _ _ hthread).derive h.sound
  | @resolve t task start id next hthread =>
    have hkeeps := KeyRoot.keeps_resolve h.sound id
    refine ⟨(KeyRoot.resolve_spec h.sound id).2.1, fun t p hp ↦ h.put rfl hkeeps ?_ hp,
      h.returned_keeps hkeeps, fun x hx ↦ ?_⟩
    · rintro q ⟨⟩
      exact (h.pending _ _ hthread).resolve h.sound
    · rcases List.mem_append.mp hx with hnew | hold
      · cases hkey : (root.resolve id s.cache).value.1 with
        | error e =>
          rw [hkey] at hnew
          cases hnew
        | ok key =>
          rw [hkey] at hnew
          obtain rfl := List.mem_singleton.mp hnew
          exact leads_resolve h.sound hkey
      · exact h.resolved_keeps hkeeps x hold
  | log hthread =>
    refine ⟨h.sound, fun t p hp ↦ h.put rfl (.refl _) ?_ hp, h.returned, h.resolved⟩
    rintro q ⟨⟩
    exact (h.pending _ _ hthread).log
  | finish hthread =>
    refine ⟨h.sound, fun t p hp ↦ h.put rfl (.refl _) ?_ hp, fun r hr ↦ ?_, h.resolved⟩
    · rintro q ⟨⟩
    · rcases List.mem_cons.mp hr with rfl | hold
      · exact (h.pending _ _ hthread).finish
      · exact h.returned r hold

theorem runs (h : Consistent root s) (hrun : Runs root s s') : Consistent root s' := by
  induction hrun with
  | refl => exact h
  | tail _ hstep ih => exact ih.step hstep

end Consistent

/-- The thread comes to the end of its task if it is left alone. -/
def CanReturn (root : KeyRoot) (s : System ι) (t : ι) (task : Task) (start : KeyCache) : Prop :=
  ∃ s' result, Runs root s s' ∧ s'.threads = (s.put t none).threads ∧
    s'.returns = ⟨task, start, result⟩ :: s.returns

theorem CanReturn.head {s s' : System ι} {t : ι} {p : Option Pending}
    (h : CanReturn root s' t task start) (hstep : Section root s s')
    (hthreads : s'.threads = (s.put t p).threads) (hreturns : s'.returns = s.returns) :
    CanReturn root s t task start := by
  obtain ⟨last, result, hrun, hlast, hreturned⟩ := h
  exact ⟨last, result, hrun.head hstep, hlast.trans (System.threads_put_put hthreads none),
    by rw [hreturned, hreturns]⟩

theorem canReturn {t : ι} {rest : KeyProgram (Except KeychainError Reply)} {s : System ι}
    (h : s.threads t = some ⟨task, start, rest⟩) : CanReturn root s t task start := by
  induction rest generalizing s with
  | done result => exact ⟨_, result, .single (.finish h), rfl, rfl⟩
  | derive index next ih =>
    exact (ih _ (System.threads_put_self ..)).head (.derive h) rfl rfl
  | resolve id next ih =>
    exact (ih _ (System.threads_put_self ..)).head (.resolve h) rfl rfl
  | log event next ih => exact (ih (System.threads_put_self ..)).head (.log h) rfl rfl

/-- The second task derives a child between the sections of the first, which derives the same child
and then asks for its key. -/
theorem runs_between {first second : Task} {index : UInt32} {id : Identifier} {key : SecretKey}
    {result result' : Except KeychainError Reply}
    {next next₂ : Except KeychainError Identifier → KeyProgram (Except KeychainError Reply)}
    {next' : Except KeychainError SecretKey → KeyProgram (Except KeychainError Reply)}
    (hfirst : first.program.run = .derive index next) (hnext : next (.ok id) = .resolve id next')
    (hdone : next' (.ok key) = .done result) (hsecond : second.program.run = .derive index next₂)
    (hnext₂ : next₂ (.ok id) = .done result')
    (hderive : (root.derive index cache).value = (.ok id, cache'))
    (hderive' : (root.derive index cache').value = (.ok id, cache'))
    (hresolve : (root.resolve id cache').value = (.ok key, cache')) :
    ∃ s : System Bool, Runs root (.idle cache) s ∧ s.cache = cache' ∧
      s.returns = [⟨first, cache, result⟩, ⟨second, cache', result'⟩] := by
  let s₁ : System Bool := (System.idle cache).put true (some ⟨first, cache, .derive index next⟩)
  let s₂ : System Bool := System.put { s₁ with cache := cache' } true
    (some ⟨first, cache, .resolve id next'⟩)
  let s₃ : System Bool := s₂.put false (some ⟨second, cache', .derive index next₂⟩)
  let s₄ : System Bool := s₃.put false (some ⟨second, cache', .done result'⟩)
  let s₅ : System Bool := System.put { s₄ with returns := [⟨second, cache', result'⟩] } false none
  let s₆ : System Bool := System.put { s₅ with resolved := [(id, key)] } true
    (some ⟨first, cache, .done result⟩)
  have h₁ : Section root (.idle cache) s₁ := by
    have hidle : (System.idle cache : System Bool).threads true = none := rfl
    have h : Section root (.idle cache) _ := .start first hidle
    rwa [hfirst] at h
  have h₂ : Section root s₁ s₂ := by
    have h : Section root s₁ _ := .derive (System.threads_put_self ..)
    rwa [show s₁.cache = cache from rfl, hderive, hnext] at h
  have h₃ : Section root s₂ s₃ := by
    have hidle : s₂.threads false = none := by simp [s₂, s₁, System.put, System.idle]
    have h : Section root s₂ _ := .start second hidle
    rwa [hsecond] at h
  have h₄ : Section root s₃ s₄ := by
    have h : Section root s₃ _ := .derive (System.threads_put_self ..)
    rw [show s₃.cache = cache' from rfl, hderive', hnext₂] at h
    exact h
  have h₅ : Section root s₄ s₅ := .finish (System.threads_put_self ..)
  have h₆ : Section root s₅ s₆ := by
    have hpending : s₅.threads true = some ⟨first, cache, .resolve id next'⟩ := by
      simp [s₅, s₄, s₃, s₂, System.put]
    have h : Section root s₅ _ := .resolve hpending
    rw [show s₅.cache = cache' from rfl, hresolve, hdone] at h
    exact h
  have hreturned : s₆.threads true = some ⟨first, cache, .done result⟩ :=
    System.threads_put_self ..
  have h₇ : Section root s₆ _ := .finish hreturned
  exact ⟨_, .tail (.tail (.tail (.tail (.tail (.tail (.single h₁) h₂) h₃) h₄) h₅) h₆) h₇, rfl, rfl⟩

theorem sections_commitWithKeyIndex (value : UInt64) (index : UInt32) :
    ∃ next, (Task.call (.commitWithKeyIndex value index)).program.run = .derive index next ∧
      ∀ id, ∃ next', next (.ok id) = .resolve id next' ∧
        ∀ key, ∃ result, next' (.ok key) = .done result := by
  refine ⟨_, rfl, fun id ↦ ⟨_, rfl, fun key ↦ ?_⟩⟩
  simp only [KeyProgram.bind, ExceptT.bindCont, Keyed.ofCurve]
  cases Commitment.commit .commit value key with
  | ok c => exact ⟨_, rfl⟩
  | error e => exact ⟨_, rfl⟩

theorem run_derive_resolve {task : Task} {index : UInt32} {id : Identifier} {key : SecretKey}
    {result : Except KeychainError Reply}
    {next : Except KeychainError Identifier → KeyProgram (Except KeychainError Reply)}
    {next' : Except KeychainError SecretKey → KeyProgram (Except KeychainError Reply)}
    (hprogram : task.program.run = .derive index next) (hnext : next (.ok id) = .resolve id next')
    (hdone : next' (.ok key) = .done result)
    (hderive : (root.derive index cache).value = (.ok id, cache'))
    (hresolve : (root.resolve id cache').value = (.ok key, cache')) :
    (task.program.run.run root cache).value = (result, cache') := by
  simp only [hprogram, KeyProgram.run, Logged.value_bind, hderive, hnext, hresolve, hdone]
  rfl

/-- In any run of any threads, a call that would succeed alone from the cache at its start returns the
same; all derivations of a child return the same identifier; and no identifier leads to two secret
keys. No two of the children that these runs have derived may share an identifier. -/
theorem interleaved {s : System ι} (hreach : root.Reaches cache) (hrun : Runs root (.idle cache) s) :
    (∀ r ∈ s.returns, ∀ reply after,
      (r.task.program.run.run root r.start).value = (.ok reply, after) →
      root.Distinct (s.cache.held ∪ after.held) → r.result = .ok reply) ∧
    (∀ r ∈ s.returns, ∀ r' ∈ s.returns, ∀ index,
      r.task = .call (.deriveKeyId index) → r'.task = .call (.deriveKeyId index) →
      r.result = r'.result ∧
        ∀ key id, root.child index = .ok (key, id) →
          r.result = .ok (.answer (.identifier id))) ∧
    (∀ id key key', (id, key) ∈ s.resolved → (id, key') ∈ s.resolved →
      root.Distinct s.cache.held → key = key') ∧
    ∀ t p, s.threads t = some p → CanReturn root s t p.task p.start := by
  have hconsistent := (Consistent.idle hreach.sound : Consistent root (.idle cache : System ι)).runs
    hrun
  have hderive : ∀ r ∈ s.returns, ∀ index, r.task = .call (.deriveKeyId index) →
      r.result = (root.child index).map fun child ↦ .answer (.identifier child.2) := by
    intro r hr index htask
    refine (hconsistent.returned r hr).foretold _ ?_
    rw [htask]
    change KeyProgram.foretell root (.derive index _) = _
    rw [KeyProgram.foretell]
    cases root.child index with
    | ok child => rfl
    | error e => rfl
  refine ⟨?_, ?_, ?_, ?_⟩
  · intro r hr reply after hsolo hdistinct
    exact (hconsistent.returned r hr).alone reply after hsolo hdistinct
  · intro r hr r' hr' index htask htask'
    rw [hderive r hr index htask, hderive r' hr' index htask']
    refine ⟨rfl, fun key id hchild ↦ ?_⟩
    rw [hchild]
    rfl
  · intro id key key' hkey hkey' hdistinct
    exact (hconsistent.resolved _ hkey).unique hdistinct (hconsistent.resolved _ hkey')
  · intro t p hp
    exact canReturn hp

set_option maxRecDepth 10000 in
/-- One thread derives the first child while another, which has derived it for a commitment, has yet to
ask for its key. -/
theorem interleaved_lone :
    ∃ s : System Bool, Runs KeyRoot.lone (.idle .empty) s ∧
      s.returns.map Return.task =
        [.call (.commitWithKeyIndex 7 0), .call (.deriveKeyId 0)] ∧
      ∀ r ∈ s.returns, ∃ reply,
        r.task.program.result KeyRoot.lone r.start = .ok reply ∧ r.result = .ok reply := by
  let first : Task := .call (.commitWithKeyIndex 7 0)
  let second : Task := .call (.deriveKeyId 0)
  have hsolo : (first.program.result KeyRoot.lone .empty).isOk := by decide +kernel
  have hderived : (KeyRoot.lone.child 0).isOk := by decide +kernel
  obtain ⟨reply, hreply⟩ := exists_of_isOk hsolo
  obtain ⟨⟨key, id⟩, hchild⟩ := exists_of_isOk hderived
  have hderive := KeyRoot.derive_new (show KeyCache.empty.id? 0 = none from rfl) hchild
  have hderive' := KeyRoot.lone.derive_insert .empty 0 id key
  obtain ⟨found, hresolve⟩ := KeyRoot.lone.exists_resolve_insert .empty 0 id key
  have honly : ∀ i ∈ (KeyCache.empty.insert 0 id key).held, i = 0 := by
    rintro i ⟨id', hid'⟩
    by_contra hne
    rw [KeyCache.id?_insert_of_ne _ _ _ hne] at hid'
    cases hid'
  generalize KeyCache.empty.insert 0 id key = held at hderive hderive' hresolve honly
  have hdistinct : KeyRoot.lone.Distinct (held.held ∪ held.held) := by
    intro i hi j hj _ _ _ _ _
    rw [Set.union_self] at hi hj
    rw [honly i hi, honly j hj]
  obtain ⟨next, hprogram, hnext⟩ := sections_commitWithKeyIndex 7 0
  obtain ⟨next', hresolves, hdone⟩ := hnext id
  obtain ⟨result, hresult⟩ := hdone found
  have hfirst := run_derive_resolve hprogram hresolves hresult hderive hresolve
  obtain rfl : result = .ok reply := by
    rw [Keyed.result, hfirst] at hreply
    exact hreply
  obtain ⟨next₂, hprogram₂, hnext₂⟩ : ∃ next, second.program.run = .derive 0 next ∧
      next (.ok id) = .done (.ok (.answer (.identifier id))) := ⟨_, rfl, rfl⟩
  have hsecond : (second.program.run.run KeyRoot.lone held).value =
      (.ok (.answer (.identifier id)), held) := by
    simp only [hprogram₂, KeyProgram.run, Logged.value_bind, hderive', hnext₂]
    rfl
  obtain ⟨s, hrun, hcache, hreturns⟩ := runs_between hprogram hresolves hresult hprogram₂ hnext₂
    hderive hderive' hresolve
  obtain ⟨halone, -⟩ := interleaved (KeyRoot.reaches_empty _) hrun
  rw [hcache, hreturns] at halone
  refine ⟨s, hrun, by rw [hreturns]; rfl, fun r hr ↦ ?_⟩
  rw [hreturns] at hr
  rcases List.mem_pair.mp hr with rfl | rfl
  · exact ⟨reply, by rw [Keyed.result, hfirst], halone _ hr reply held hfirst hdistinct⟩
  · exact ⟨_, by rw [Keyed.result, hsecond], halone _ hr _ held hsecond hdistinct⟩

end Keychain

end ConfidentialTx
