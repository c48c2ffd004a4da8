import Mathlib.Algebra.Order.Group.Nat

/-!
# Byte memory

A memory maps addresses to bytes; `n`-byte words are little endian. A load sees exactly the bytes it reads
(`loadBytes_congr`), a store changes exactly the bytes it writes (`storeBytes_of_not_mem`), and a load of what was
stored yields the value back (`loadBytes_storeBytes`).
-/

namespace Cs326

abbrev Mem := Nat → UInt8

/-- The `n`-byte word at `a`. -/
def loadBytes (m : Mem) : Nat → Nat → Nat
  | 0, _ => 0
  | n + 1, a => (m a).toNat + 256 * loadBytes m n (a + 1)

/-- Write the low `n` bytes of `v` at `a`. -/
def storeBytes (m : Mem) (n a v : Nat) : Mem := fun x =>
  if a ≤ x ∧ x < a + n then UInt8.ofNat (v / 256 ^ (x - a)) else m x

/-- Set `n` bytes at `a` to `c`. -/
def fillBytes (m : Mem) (n a : Nat) (c : UInt8) : Mem := fun x => if a ≤ x ∧ x < a + n then c else m x

variable {m m' : Mem} {n k a b v x : Nat} {c : UInt8}

theorem loadBytes_lt (m : Mem) (n a : Nat) : loadBytes m n a < 256 ^ n := by
  induction n generalizing a with
  | zero => simp [loadBytes]
  | succ n ih =>
    have h1 := ih (a + 1)
    have h2 : (m a).toNat < 256 := (m a).toNat_lt
    rw [loadBytes, pow_succ]
    omega

/-- A load sees the bytes it reads. -/
theorem loadBytes_congr (h : ∀ x, a ≤ x → x < a + n → m' x = m x) : loadBytes m' n a = loadBytes m n a := by
  induction n generalizing a with
  | zero => rfl
  | succ n ih =>
    rw [loadBytes, loadBytes, h a (Nat.le_refl a) (by omega), ih fun x h1 h2 => h x (by omega) (by omega)]

theorem storeBytes_of_not_mem (h : x < a ∨ a + n ≤ x) : storeBytes m n a v x = m x := if_neg (by omega)

theorem fillBytes_of_not_mem (h : x < a ∨ a + n ≤ x) : fillBytes m n a c x = m x := if_neg (by omega)

/-- The words of a stored value, from the `k`th byte on. -/
theorem loadBytes_storeBytes_aux (h : k + b ≤ n) :
    loadBytes (storeBytes m n a v) k (a + b) = v / 256 ^ b % 256 ^ k := by
  induction k generalizing b with
  | zero => simp [loadBytes, Nat.mod_one]
  | succ k ih =>
    have hbyte : (storeBytes m n a v (a + b)).toNat = v / 256 ^ b % 256 := by
      rw [storeBytes, if_pos (by omega), Nat.add_sub_cancel_left]
      simp
    rw [loadBytes, hbyte, Nat.add_assoc, ih (by omega), pow_succ, ← Nat.div_div_eq_div_mul, Nat.pow_succ',
      Nat.mod_mul]

/-- A load of what was stored. -/
theorem loadBytes_storeBytes (hv : v < 256 ^ n) : loadBytes (storeBytes m n a v) n a = v := by
  have := loadBytes_storeBytes_aux (m := m) (v := v) (a := a) (b := 0) (k := n) (n := n) (by omega)
  rw [Nat.add_zero, pow_zero, Nat.div_one] at this
  rw [this, Nat.mod_eq_of_lt hv]

/-- A load elsewhere. -/
theorem loadBytes_storeBytes_of_disjoint (h : b + k ≤ a ∨ a + n ≤ b) :
    loadBytes (storeBytes m n a v) k b = loadBytes m k b :=
  loadBytes_congr fun _ _ _ => storeBytes_of_not_mem (by omega)

end Cs326
