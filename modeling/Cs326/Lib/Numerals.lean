import Cs326.Lib.CString
import Mathlib.Algebra.Group.Int.Defs
import Mathlib.Algebra.Group.Nat.Defs
import Mathlib.Data.Int.DivMod
import Mathlib.Data.List.TakeWhile

/-!
# Decimal numerals

`strtol` in base 10 and `atoi`, on the bytes of a string: white space, a sign, digits, and whatever else comes behind
them. A value that does not fit a `long` is replaced by the nearest that does, and `atoi` keeps the low 32 bits. The
digits of a number below `2 ^ 31` are read as that number (`Numeral.unsigned_atoi`), in particular those that `%d`
prints of it (`numeral_decimal`).
-/

namespace Cs326

def isspace (b : UInt8) : Bool := b == 32 || 9 ≤ b && b ≤ 13

/-- The number that digits spell. -/
def digitsValue (ds : List UInt8) : Nat := ds.foldl (fun n b => 10 * n + (b.toNat - 48)) 0

/-- `strtol(s, NULL, 10)`. -/
def strtol (s : List UInt8) : Int :=
  let s := s.dropWhile isspace
  let sign := s.head?
  let n : Nat := digitsValue ((if sign = some 45 ∨ sign = some 43 then s.tail else s).takeWhile isdigit)
  if sign = some 45 then -min (n : Int) (2 ^ 63) else min (n : Int) (2 ^ 63 - 1)

/-- `atoi`. -/
def atoi (s : List UInt8) : Int := (strtol s).bmod (2 ^ 32)

/-- An `int` as `unsigned int`. -/
def unsigned (x : Int) : Nat := (x % 2 ^ 32).toNat

/-- Digits that spell `n`. -/
structure Numeral (ds : List UInt8) (n : Nat) : Prop where
  ne_nil : ds ≠ []
  digits : ∀ b ∈ ds, isdigit b = true
  value : digitsValue ds = n

variable {b : UInt8} {ds : List UInt8} {n : Nat}

/-- What is not a digit. -/
theorem ne_of_isdigit {c : UInt8} (hb : isdigit b = true) (hc : isdigit c = false) : b ≠ c := by
  rintro rfl
  rw [hb] at hc
  cases hc

theorem not_isspace_of_isdigit (hb : isdigit b = true) : isspace b = false := by
  have hb : 48 ≤ b.toNat ∧ b.toNat ≤ 57 := by simpa [isdigit, UInt8.le_iff_toNat_le] using hb
  have h13 : ¬b ≤ 13 := by
    rw [UInt8.le_iff_toNat_le]
    exact Nat.not_le.mpr (Nat.lt_of_lt_of_le (by decide) hb.1)
  have h32 : b ≠ 32 := by
    rintro rfl
    exact absurd hb.1 (by decide)
  simp [isspace, h13, h32]

theorem Numeral.strtol (h : Numeral ds n) (hn : n < 2 ^ 63) : strtol ds = n := by
  obtain ⟨hne, hd, rfl⟩ := h
  have htake : ds.takeWhile isdigit = ds := List.takeWhile_eq_self_iff.mpr hd
  cases ds with
  | nil => exact absurd rfl hne
  | cons b ds =>
    have hb := hd b List.mem_cons_self
    have hminus : b ≠ 45 := ne_of_isdigit hb (by decide)
    have hplus : b ≠ 43 := ne_of_isdigit hb (by decide)
    unfold Cs326.strtol
    simp only [List.dropWhile_cons, not_isspace_of_isdigit hb, List.head?_cons, Option.some.injEq, hminus, hplus,
      Bool.false_eq_true, if_false, or_self, htake]
    omega

/-- What `%d` prints. -/
def decimal (n : Nat) : List UInt8 := chars (Nat.toDigits 10 n)

theorem toNat_of_isDigit {c : Char} (h : c.isDigit = true) :
    c.toNat.toUInt8.toNat = c.toNat ∧ 48 ≤ c.toNat ∧ c.toNat ≤ 57 := by
  have hc : 48 ≤ c.toNat ∧ c.toNat ≤ 57 := by
    simpa [Char.isDigit, UInt32.le_iff_toNat_le] using h
  refine ⟨?_, hc⟩
  rw [Nat.toUInt8_eq, UInt8.toNat_ofNat_of_lt']
  exact Nat.lt_of_le_of_lt hc.2 (by decide)

theorem digitsValue_chars {cs : List Char} (h : ∀ c ∈ cs, c.isDigit = true) :
    digitsValue (chars cs) = Nat.ofDigitChars 10 cs 0 := by
  unfold digitsValue chars
  rw [Nat.ofDigitChars_eq_foldl, List.foldl_map]
  refine List.foldl_ext _ _ _ fun n c hc => ?_
  rw [(toNat_of_isDigit (h c hc)).1]
  rfl

theorem numeral_decimal (n : Nat) : Numeral (decimal n) n := by
  have hdigits : ∀ c ∈ Nat.toDigits 10 n, c.isDigit = true :=
    fun c hc => Nat.isDigit_of_mem_toDigits (by decide) (Nat.le_refl 10) hc
  refine ⟨?_, ?_, ?_⟩
  · unfold decimal chars
    rw [ne_eq, List.map_eq_nil_iff]
    exact Nat.toDigits_ne_nil
  · intro b hb
    obtain ⟨c, hc, rfl⟩ := List.mem_map.mp hb
    obtain ⟨hb, hge, hle⟩ := toNat_of_isDigit (hdigits c hc)
    simp [isdigit, UInt8.le_iff_toNat_le, hb, hge, hle]
  · exact (digitsValue_chars hdigits).trans (Nat.ofDigitChars_toDigits (by decide) (Nat.le_refl 10))

theorem not_mem_decimal (hb : isdigit b = false) (n : Nat) : b ∉ decimal n := by
  intro h
  rw [(numeral_decimal n).digits b h] at hb
  cases hb

theorem decimal_length_le {n k : Nat} (hk : 0 < k) (hn : n < 10 ^ k) : (decimal n).length ≤ k := by
  unfold decimal chars
  rw [List.length_map]
  exact (Nat.length_toDigits_le_iff (by decide) hk).mpr hn

theorem Numeral.atoi_eq (h : Numeral ds n) (hn : n < 2 ^ 31) : atoi ds = n := by
  unfold atoi
  rw [h.strtol (by omega)]
  exact Int.bmod_eq_of_le (by omega) (by omega)

/-- **A numeral is read back.** -/
theorem Numeral.unsigned_atoi (h : Numeral ds n) (hn : n < 2 ^ 31) : unsigned (atoi ds) = n := by
  have hmod : (n : Int).bmod (2 ^ 32) = n := Int.bmod_eq_of_le (by omega) (by omega)
  unfold atoi unsigned
  rw [h.strtol (by omega), hmod]
  omega

end Cs326
