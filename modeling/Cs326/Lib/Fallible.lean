/-!
# Computations that can fail

`Except` as the C functions here use it: the value they return, or the fault that stops them. The binds are taken apart
from the front (`bind_eq_ok`).
-/

namespace Cs326

universe u v

variable {ε : Type u} {α β : Type v} {x : Except ε α} {k : α → Except ε β} {b : β}

@[simp] theorem ok_bind (a : α) (k : α → Except ε β) : (Except.ok a >>= k) = k a := rfl

@[simp] theorem error_bind (e : ε) (k : α → Except ε β) : (Except.error e >>= k) = .error e := rfl

@[simp] theorem pure_ok (a : α) : (pure a : Except ε α) = .ok a := rfl

theorem bind_eq_ok : x >>= k = .ok b ↔ ∃ a, x = .ok a ∧ k a = .ok b := by
  cases x with
  | ok a => simp
  | error e => simp

theorem bind_ok (h : x >>= k = .ok b) : ∃ a, x = .ok a ∧ k a = .ok b := bind_eq_ok.mp h

end Cs326
