import ConfidentialTx.Keychain.Cache

namespace ConfidentialTx

inductive KeyProgram (α : Type)
  | done (result : α)
  | derive (index : UInt32) (next : Except KeychainError Identifier → KeyProgram α)
  | resolve (id : Identifier) (next : Except KeychainError SecretKey → KeyProgram α)
  | log (event : LogEvent) (next : KeyProgram α)

namespace KeyProgram

variable {α β : Type}

def bind (f : α → KeyProgram β) : KeyProgram α → KeyProgram β
  | done a => f a
  | derive index next => derive index fun answer ↦ bind f (next answer)
  | resolve id next => resolve id fun answer ↦ bind f (next answer)
  | log event next => log event (bind f next)

instance : Monad KeyProgram where
  pure := done
  bind p f := bind f p

def run (root : KeyRoot) : KeyProgram α → KeyCache → Logged (α × KeyCache)
  | done a, cache => pure (a, cache)
  | derive index next, cache => do
    let (answer, cache) ← root.derive index cache
    run root (next answer) cache
  | resolve id next, cache => do
    let (answer, cache) ← root.resolve id cache
    run root (next answer) cache
  | log event next, cache => do
    Logged.log event
    run root next cache

theorem bind_done (p : KeyProgram α) : bind done p = p := by
  induction p with
  | done a => rfl
  | derive index next ih => simp only [bind, ih]
  | resolve id next ih => simp only [bind, ih]
  | log event next ih => simp only [bind, ih]

theorem bind_bind {γ : Type} (p : KeyProgram α) (f : α → KeyProgram β) (g : β → KeyProgram γ) :
    bind g (bind f p) = bind (fun a ↦ bind g (f a)) p := by
  induction p with
  | done a => rfl
  | derive index next ih => simp only [bind, ih]
  | resolve id next ih => simp only [bind, ih]
  | log event next ih => simp only [bind, ih]

instance : LawfulMonad KeyProgram :=
  LawfulMonad.mk' KeyProgram bind_done (fun _ _ ↦ rfl) bind_bind

theorem run_bind (root : KeyRoot) (p : KeyProgram α) (f : α → KeyProgram β) (cache : KeyCache) :
    run root (bind f p) cache = run root p cache >>= fun r ↦ run root (f r.1) r.2 := by
  induction p generalizing cache with
  | done a => simp [bind, run]
  | derive index next ih => simp only [bind, run, ih, bind_assoc]
  | resolve id next ih => simp only [bind, run, ih, bind_assoc]
  | log event next ih => simp only [bind, run, ih, bind_assoc]

end KeyProgram

abbrev Keyed (ε α : Type) := ExceptT ε KeyProgram α

namespace Keyed

variable {ε α : Type}

def ofExcept (r : Except ε α) : Keyed ε α :=
  ExceptT.mk (.done r)

def log (event : LogEvent) : Keyed ε Unit :=
  ExceptT.mk (.log event (.done (.ok ())))

def ofCurve (r : Except CurveError α) : Keyed KeychainError α :=
  ofExcept (r.mapError .ofCurve)

def mapError {δ : Type} (f : ε → δ) (p : Keyed ε α) : Keyed δ α :=
  ExceptT.mk (p.run.bind fun r ↦ .done (r.mapError f))

end Keyed

end ConfidentialTx
