import LazyVectors.Failure
/-!
Results that come with warnings. Warnings are kept in the order in which they were raised, and a
failure does not take back those raised before it.
-/

set_option autoImplicit false

namespace LazyVectors

inductive Warning where
  | introducedNA (source target : Kind)
  | partialRecycling (items replacement : Nat)
  | coercedToList
  deriving DecidableEq, Repr

theorem bind_eq_ok {α β : Type} {r : Except Failure α} {f : α → Except Failure β} {b : β} :
    (r >>= f) = .ok b ↔ ∃ a, r = .ok a ∧ f a = .ok b := by
  cases r <;> simp [bind, Except.bind]

theorem map_eq_ok {α β : Type} {r : Except Failure α} {f : α → β} {b : β} :
    r.map f = .ok b ↔ ∃ a, r = .ok a ∧ f a = b := by
  cases r <;> simp [Except.map]

/-- A result and the warnings raised on the way to it. -/
structure Noted (α : Type) where
  warnings : List Warning
  result : Except Failure α

namespace Noted

def ok {α : Type} (a : α) : Noted α := ⟨[], .ok a⟩

def fail {α : Type} (e : Failure) : Noted α := ⟨[], .error e⟩

def ofExcept {α : Type} (r : Except Failure α) : Noted α := ⟨[], r⟩

def warn (w : Warning) : Noted Unit := ⟨[w], .ok ()⟩

def bind {α β : Type} (m : Noted α) (f : α → Noted β) : Noted β :=
  match m.result with
  | .error e => ⟨m.warnings, .error e⟩
  | .ok a => ⟨m.warnings ++ (f a).warnings, (f a).result⟩

instance : Monad Noted where
  pure := ok
  bind := bind

instance : MonadExceptOf Failure Noted where
  throw := fail
  tryCatch m handle :=
    match m.result with
    | .error e => ⟨m.warnings ++ (handle e).warnings, (handle e).result⟩
    | .ok a => ⟨m.warnings, .ok a⟩

instance : MonadLift (Except Failure) Noted where
  monadLift := ofExcept

@[ext] theorem ext {α : Type} {m n : Noted α} (hw : m.warnings = n.warnings)
    (hr : m.result = n.result) : m = n := by
  cases m; cases n; simp_all

theorem bind_eq {α β : Type} (m : Noted α) (f : α → Noted β) : (m >>= f) = bind m f := rfl

@[simp] theorem ok_bind {α β : Type} (a : α) (f : α → Noted β) : bind (ok a) f = f a := rfl

theorem lift_ok_bind {α β : Type} (a : α) (f : α → Noted β) :
    ((liftM (.ok a : Except Failure α) : Noted α) >>= f) = f a := rfl

theorem result_bind {α β : Type} (m : Noted α) (f : α → Noted β) :
    (m >>= f).result = m.result >>= fun a => (f a).result := by
  obtain ⟨w, r⟩ := m
  cases r <;> rfl

@[simp] theorem result_lift {α : Type} (r : Except Failure α) :
    (liftM r : Noted α).result = r := rfl

end Noted

end LazyVectors
