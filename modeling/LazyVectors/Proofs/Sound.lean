import LazyVectors.Noted
set_option autoImplicit false

namespace LazyVectors

namespace Failure

/-- A subscript, a length, a kind or a key that does not fit. What foreign objects report is not
among these. -/
def Expected : Failure → Prop
  | index _ | coercion _ | foreignAccess .positions | foreignAccess (.invalid _) => True
  | runtime fault =>
    match fault with
    | .notSubsettable _ | .fieldOfAtomic | .invalidField | .allocation _ => True
    | _ => False
  | _ => False

def Unexpected (e : Failure) : Prop := ¬e.Expected

section
variable (f : IndexFault) (g : CoercionFault) (k : Kind) (n : Nat) (shown : String)

@[simp] theorem expected_index : (index f).Expected := trivial

@[simp] theorem expected_coercion : (coercion g).Expected := trivial

@[simp] theorem expected_positions : (foreignAccess .positions).Expected := trivial

@[simp] theorem expected_invalid : (foreignAccess (.invalid shown)).Expected := trivial

@[simp] theorem expected_notSubsettable : (runtime (.notSubsettable k)).Expected := trivial

@[simp] theorem expected_fieldOfAtomic : (runtime .fieldOfAtomic).Expected := trivial

@[simp] theorem expected_invalidField : (runtime .invalidField).Expected := trivial

@[simp] theorem expected_allocation : (runtime (.allocation n)).Expected := trivial

end

@[simp] theorem unexpected_internal (f : InternalFault) : (internal f).Unexpected := id

@[simp] theorem not_unexpected_iff {e : Failure} : ¬e.Unexpected ↔ e.Expected :=
  Classical.not_not

end Failure

/-- A result has `P`, and a failure is none of `F`. -/
def Sound {α : Type} (F : Failure → Prop) (P : α → Prop) : Except Failure α → Prop
  | .ok a => P a
  | .error e => ¬F e

abbrev Avoids {α : Type} (F : Failure → Prop) (r : Except Failure α) : Prop :=
  Sound F (fun _ => True) r

/-- The failure that stands for an access out of range. -/
def OutOfRange (e : Failure) : Prop := e = .internal .outOfRange

theorem OutOfRange.unexpected {e : Failure} (h : OutOfRange e) : e.Unexpected :=
  h ▸ Failure.unexpected_internal _

abbrev Ordinary {α : Type} (r : Except Failure α) : Prop := Avoids Failure.Unexpected r

namespace Sound

variable {α β : Type} {F G : Failure → Prop} {P Q : α → Prop} {R : β → Prop}
  {r : Except Failure α}

theorem bind {f : α → Except Failure β} (hr : Sound F P r) (hf : ∀ a, P a → Sound F R (f a)) :
    Sound F R (r >>= f) := by
  cases r with
  | error e => exact hr
  | ok a => exact hf a hr

theorem map {f : α → β} (hr : Sound F P r) (hf : ∀ a, P a → R (f a)) : Sound F R (r.map f) := by
  cases r with
  | error e => exact hr
  | ok a => exact hf a hr

theorem error {e : Failure} (h : e.Expected) : Sound Failure.Unexpected P (.error e) :=
  Failure.not_unexpected_iff.2 h

theorem ite {c : Prop} [Decidable c] {r' : Except Failure α} (hthen : c → Sound F P r)
    (helse : ¬c → Sound F P r') : Sound F P (if c then r else r') := by
  split
  · rename_i hc
    exact hthen hc
  · rename_i hc
    exact helse hc

theorem imp (hr : Sound F P r) (h : ∀ a, r = .ok a → P a → Q a) : Sound F Q r := by
  cases r with
  | error e => exact hr
  | ok a => exact h a rfl hr

theorem weaken (hr : Sound F P r) (h : ∀ e, G e → F e) : Sound G P r := by
  cases r with
  | error e => exact fun he => hr (h e he)
  | ok a => exact hr

end Sound

namespace Avoids

variable {α β : Type} {F : Failure → Prop} {P : α → Prop} {r : Except Failure α}

theorem ok (a : α) : Avoids F (.ok a) := trivial

theorem bind {f : α → Except Failure β} (hr : Avoids F r) (hf : ∀ a, r = .ok a → Avoids F (f a)) :
    Avoids F (r >>= f) := by
  cases r with
  | error e => exact hr
  | ok a => exact hf a rfl

theorem map (f : α → β) (hr : Avoids F r) : Avoids F (r.map f) := by
  cases r with
  | error e => exact hr
  | ok a => trivial

theorem sound (hr : Avoids F r) (h : ∀ a, r = .ok a → P a) : Sound F P r :=
  Sound.imp hr fun a ha _ => h a ha

end Avoids

namespace Ordinary

variable {α : Type} {F : Failure → Prop} {r : Except Failure α}

theorem error {e : Failure} (h : e.Expected) : Ordinary (.error e : Except Failure α) :=
  Failure.not_unexpected_iff.2 h

theorem avoids (hr : Ordinary r) (hF : ∀ e, F e → e.Unexpected) : Avoids F r := Sound.weaken hr hF

end Ordinary

end LazyVectors
