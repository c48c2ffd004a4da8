import Mathlib.Order.Nat
import Mathlib.Tactic.SplitIfs

/-!
# Uptime

`printUptime` of `inspector.c`, as the fields that it prints. The time of day is told right in every branch
(`clock_eq`), but the days are counted modulo 30, and a branch whose unit is the whole of `t` is left to the one for the
smaller units, which prints zeros (`uptime_exact_iff`).
-/

namespace Cs326.Inspector

/-- The fields of the line; `none`: it is omitted. -/
structure Uptime where
  years : Option Nat := none
  days : Option Nat := none
  hours : Option Nat := none
  minutes : Option Nat := none
  seconds : Nat
  deriving DecidableEq

/-- The line for `t`, which is not negative. -/
def printUptime (t : Nat) : Uptime :=
  if t > 86400 * 365 then
    let years := t / (60 * 60 * 24 * 365)
    let t := t - years * (60 * 60 * 24 * 365)
    let days := t % (86400 * 30) / 86400
    let hours := t % 86400 / 3600
    let minutes := t % 3600 / 60
    let seconds := t % 60
    if days = 0 ∧ hours = 0 then { years := some years, minutes := some minutes, seconds := seconds }
    else
      { years := some years, days := some days, hours := some hours, minutes := some minutes, seconds := seconds }
  else if t > 3600 * 24 then
    let days := t % (86400 * 30) / 86400
    let hours := t % 86400 / 3600
    let minutes := t % 3600 / 60
    let seconds := t % 60
    { days := some days, hours := some hours, minutes := some minutes, seconds := seconds }
  else if t > 3600 then
    let hours := t % 86400 / 3600
    let minutes := t % 3600 / 60
    let seconds := t % 60
    { hours := some hours, minutes := some minutes, seconds := seconds }
  else if t > 60 then
    let minutes := t % 3600 / 60
    let seconds := t % 60
    { minutes := some minutes, seconds := seconds }
  else { seconds := t % 60 }

/-- The seconds that the fields add up to. -/
def Uptime.total (u : Uptime) : Nat :=
  u.years.getD 0 * (365 * 86400) + u.days.getD 0 * 86400 + u.hours.getD 0 * 3600 + u.minutes.getD 0 * 60 + u.seconds

/-- The fields add up to `t`, and each of the smaller ones stays below the next unit. -/
def UptimeExact (t : Nat) : Prop :=
  (printUptime t).total = t ∧ (printUptime t).hours.getD 0 < 24 ∧ (printUptime t).minutes.getD 0 < 60 ∧
    (printUptime t).seconds < 60

/-! ## The units -/

variable {t : Nat}

/-- The time of day. -/
theorem clock_eq (t : Nat) : t % 86400 / 3600 * 3600 + t % 3600 / 60 * 60 + t % 60 = t % 86400 := by omega

/-- Days that are counted modulo 30. -/
theorem days_eq_iff (t : Nat) : t % 2592000 / 86400 * 86400 + t % 86400 = t ↔ t < 2592000 := by omega

/-- The part of the hour. -/
theorem minutes_eq (t : Nat) : t % 3600 / 60 * 60 + t % 60 = t % 3600 := by omega

/-- What is told of the rest behind the years. -/
theorem rest_eq_iff (t r : Nat) : t / 31536000 * 31536000 + r = t ↔ r = t % 31536000 := by omega

theorem hours_lt (t : Nat) : t % 86400 / 3600 < 24 := by omega

theorem minutes_lt (t : Nat) : t % 3600 / 60 < 60 := by omega

theorem seconds_lt (t : Nat) : t % 60 < 60 := by omega

/-! ## The fields -/

theorem printUptime_years (h : t > 86400 * 365) : printUptime t = {
    years := some (t / 31536000)
    days := if t % 31536000 % 2592000 / 86400 = 0 ∧ t % 31536000 % 86400 / 3600 = 0 then none
      else some (t % 31536000 % 2592000 / 86400)
    hours := if t % 31536000 % 2592000 / 86400 = 0 ∧ t % 31536000 % 86400 / 3600 = 0 then none
      else some (t % 31536000 % 86400 / 3600)
    minutes := some (t % 31536000 % 3600 / 60)
    seconds := t % 31536000 % 60 } := by
  have hrest : t - t / 31536000 * 31536000 = t % 31536000 := by omega
  rw [printUptime, if_pos h]
  simp only [Nat.reduceMul, hrest]
  split_ifs <;> rfl

theorem printUptime_days (h : ¬t > 86400 * 365) (hday : t > 3600 * 24) : printUptime t = {
    days := some (t % 2592000 / 86400)
    hours := some (t % 86400 / 3600)
    minutes := some (t % 3600 / 60)
    seconds := t % 60 } := by
  rw [printUptime, if_neg h, if_pos hday]

theorem printUptime_hours (h : ¬t > 3600 * 24) (hhour : t > 3600) : printUptime t = {
    hours := some (t % 86400 / 3600)
    minutes := some (t % 3600 / 60)
    seconds := t % 60 } := by
  rw [printUptime, if_neg (by omega), if_neg h, if_pos hhour]

theorem printUptime_minutes (h : ¬t > 3600) (hminute : t > 60) : printUptime t = {
    minutes := some (t % 3600 / 60)
    seconds := t % 60 } := by
  rw [printUptime, if_neg (by omega), if_neg (by omega), if_neg h, if_pos hminute]

theorem printUptime_seconds (h : ¬t > 60) : printUptime t = { seconds := t % 60 } := by
  rw [printUptime, if_neg (by omega), if_neg (by omega), if_neg (by omega), if_neg h]

/-- Where the zeros of a year's first day are left out. -/
theorem getD_zero {a : Nat} {p : Prop} [Decidable p] (hp : p → a = 0) :
    (if p then none else some a).getD 0 = a := by
  split_ifs with h
  · exact (hp h).symm
  · rfl

theorem total_years (h : t > 86400 * 365) : (printUptime t).total = t / 31536000 * 31536000 +
    (t % 31536000 % 2592000 / 86400 * 86400 + t % 31536000 % 86400) := by
  have hclock := clock_eq (t % 31536000)
  rw [printUptime_years h, Uptime.total, getD_zero And.left, getD_zero And.right]
  simp only [Option.getD_some, Nat.reduceMul, Nat.add_assoc] at hclock ⊢
  rw [hclock]

theorem total_days (h : ¬t > 86400 * 365) (hday : t > 3600 * 24) :
    (printUptime t).total = t % 2592000 / 86400 * 86400 + t % 86400 := by
  have hclock := clock_eq t
  rw [printUptime_days h hday, Uptime.total]
  simp only [Option.getD_some, Option.getD_none, Nat.zero_mul, Nat.zero_add, Nat.add_assoc] at hclock ⊢
  rw [hclock]

theorem total_hours (h : ¬t > 3600 * 24) (hhour : t > 3600) : (printUptime t).total = t % 86400 := by
  rw [printUptime_hours h hhour, Uptime.total]
  simp only [Option.getD_some, Option.getD_none, Nat.zero_mul, Nat.zero_add]
  exact clock_eq t

theorem total_minutes (h : ¬t > 3600) (hminute : t > 60) : (printUptime t).total = t % 3600 := by
  rw [printUptime_minutes h hminute, Uptime.total]
  simp only [Option.getD_some, Option.getD_none, Nat.zero_mul, Nat.zero_add]
  exact minutes_eq t

theorem total_seconds (h : ¬t > 60) : (printUptime t).total = t % 60 := by
  rw [printUptime_seconds h, Uptime.total]
  simp only [Option.getD_none, Nat.zero_mul, Nat.zero_add]

/-- Whatever is omitted, the smaller fields stay below the next unit. -/
theorem printUptime_lt (t : Nat) : (printUptime t).hours.getD 0 < 24 ∧ (printUptime t).minutes.getD 0 < 60 ∧
    (printUptime t).seconds < 60 := by
  by_cases hyear : t > 86400 * 365
  · rw [printUptime_years hyear, getD_zero And.right]
    exact ⟨hours_lt _, minutes_lt _, seconds_lt _⟩
  by_cases hday : t > 3600 * 24
  · rw [printUptime_days hyear hday]
    exact ⟨hours_lt t, minutes_lt t, seconds_lt t⟩
  by_cases hhour : t > 3600
  · rw [printUptime_hours hday hhour]
    exact ⟨hours_lt t, minutes_lt t, seconds_lt t⟩
  by_cases hminute : t > 60
  · rw [printUptime_minutes hhour hminute]
    exact ⟨Nat.zero_lt_succ 23, minutes_lt t, seconds_lt t⟩
  · rw [printUptime_seconds hminute]
    exact ⟨Nat.zero_lt_succ 23, Nat.zero_lt_succ 59, seconds_lt t⟩

/-- **The uptime is exact** if and only if it is none of the units, and what is more than whole years is less than 30
days. -/
theorem uptime_exact_iff (t : Nat) :
    UptimeExact t ↔ (t ≠ 60 ∧ t ≠ 3600 ∧ t ≠ 86400 ∧ t ≠ 31536000) ∧ t % 31536000 < 2592000 := by
  have htotal : UptimeExact t ↔ (printUptime t).total = t := and_iff_left (printUptime_lt t)
  rw [htotal]
  by_cases hyear : t > 86400 * 365
  · rw [total_years hyear, rest_eq_iff, days_eq_iff]
    have hunits : t ≠ 60 ∧ t ≠ 3600 ∧ t ≠ 86400 ∧ t ≠ 31536000 := by omega
    exact (and_iff_right hunits).symm
  by_cases hday : t > 3600 * 24
  · rw [total_days hyear hday, days_eq_iff]
    omega
  by_cases hhour : t > 3600
  · rw [total_hours hday hhour]
    omega
  by_cases hminute : t > 60
  · rw [total_minutes hhour hminute]
    omega
  · rw [total_seconds hminute]
    omega

/-- A minute is told as `0 seconds`, and 30 days as `0 days`. -/
theorem minute_not_exact : ¬UptimeExact 60 ∧ ¬UptimeExact (30 * 86400) :=
  ⟨fun h => absurd h.1 (by decide), fun h => absurd h.1 (by decide)⟩

end Cs326.Inspector
