import Mathlib.Logic.Function.Basic
import Mathlib.Data.List.Basic

/-!
# Tables of file descriptors

A process names its open files by small numbers. `open` and `pipe` take the lowest number that is free (`lowest`),
`dup2` makes a number name the file of another one, `close` frees a number. The files themselves are of any type: what a
table shares with another one after a fork is the values.
-/

namespace Cs326

/-- The open files by number, none from `bound` on. -/
structure FdTable (α : Type*) where
  file : Nat → Option α
  bound : Nat
  free : ∀ fd, bound ≤ fd → file fd = none

namespace FdTable

variable {α β : Type*} (t : FdTable α) (fd old new n : Nat) (f : α)

/-- No file is open. -/
def empty : FdTable α where
  file _ := none
  bound := 0
  free _ _ := rfl

def set : FdTable α where
  file := Function.update t.file fd (some f)
  bound := max t.bound (fd + 1)
  free := by
    intro fd' h
    rw [Function.update_of_ne (by omega), t.free _ (by omega)]

def close : FdTable α where
  file := Function.update t.file fd none
  bound := t.bound
  free := by
    intro fd' h
    rw [Function.update_apply]
    split
    · rfl
    · exact t.free _ h

/-- The lowest number that is free. -/
def lowest : Nat := ((List.range t.bound).find? fun fd => (t.file fd).isNone).getD t.bound

/-- `open`: the file gets the lowest free number. -/
def alloc : FdTable α := t.set t.lowest f

/-- `dup2(old, new)`: when `old` is open, `new` names its file. -/
def dup2 : FdTable α :=
  match t.file old with
  | some f => t.set new f
  | none => t

/-- The same numbers for other files. -/
def map (g : α → β) : FdTable β where
  file fd := (t.file fd).map g
  bound := t.bound
  free fd h := by rw [t.free fd h]; rfl

@[simp] theorem empty_file : (empty : FdTable α).file fd = none := rfl

theorem set_file : (t.set fd f).file n = if n = fd then some f else t.file n := by
  simp only [set, Function.update_apply]

theorem close_file : (t.close fd).file n = if n = fd then none else t.file n := by
  simp only [close, Function.update_apply]

theorem alloc_file : (t.alloc f).file n = if n = t.lowest then some f else t.file n := t.set_file ..

@[simp] theorem map_file (g : α → β) : (t.map g).file fd = (t.file fd).map g := rfl

variable {t fd old new n f}

theorem dup2_file (h : t.file old = some f) : (t.dup2 old new).file n = if n = new then some f else t.file n := by
  unfold dup2
  rw [h]
  exact t.set_file ..

theorem lowest_free (t : FdTable α) : t.file t.lowest = none := by
  unfold lowest
  cases h : (List.range t.bound).find? fun fd => (t.file fd).isNone with
  | none => exact t.free _ (Nat.le_refl _)
  | some fd => simpa using List.find?_some h

/-- The numbers that are in use lie below the lowest free one as long as there is no gap. -/
theorem le_lowest (h : ∀ fd < n, t.file fd ≠ none) : n ≤ t.lowest := by
  by_contra hlt
  exact h t.lowest (Nat.lt_of_not_le hlt) t.lowest_free

theorem lowest_ne (h : t.file fd ≠ none) : t.lowest ≠ fd := by
  rintro rfl
  exact h t.lowest_free

end FdTable

end Cs326
