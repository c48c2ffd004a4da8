import Mathlib.Data.List.Basic
import Mathlib.Tactic.IntervalCases

/-!
# Printed numbers

The conversions `%zu`, `%ld` and `%p` of `printf`, as the C library of Linux prints them. Each prints different numbers
differently, and without the characters that separate the fields of a line: two lines that print the same have the same
fields, one after the other (`append_cons_inj`).
-/

namespace Cs326.Printf

/-- `%zu`. -/
def zu (n : Nat) : List Char := Nat.toDigits 10 n

/-- `%ld`. -/
def ld (n : Int) : List Char := if n < 0 then '-' :: Nat.toDigits 10 n.natAbs else Nat.toDigits 10 n.natAbs

/-- `%p`. -/
def p (a : Nat) : List Char := if a = 0 then ['(', 'n', 'i', 'l', ')'] else '0' :: 'x' :: Nat.toDigits 16 a

/-! ## Fields -/

section Fields

variable {α : Type*} {l l' r r' : List α} {c : α}

/-- A field ends where its separator is. -/
theorem append_cons_inj (h : c ∉ l) (h' : c ∉ l') : l ++ c :: r = l' ++ c :: r' ↔ l = l' ∧ r = r' := by
  constructor
  · intro he
    induction l generalizing l' with
    | nil =>
      cases l' with
      | nil => exact ⟨rfl, (List.cons.inj he).2⟩
      | cons d l' => exact absurd (List.mem_cons.mpr (.inl (List.cons.inj he).1)) h'
    | cons d l ih =>
      cases l' with
      | nil => exact absurd (List.mem_cons.mpr (.inl (List.cons.inj he).1.symm)) h
      | cons d' l' =>
        obtain ⟨rfl, htail⟩ := List.cons.inj he
        obtain ⟨rfl, rfl⟩ := ih (fun hc => h (List.mem_cons_of_mem _ hc)) (fun hc => h' (List.mem_cons_of_mem _ hc))
          htail
        exact ⟨rfl, rfl⟩
  · rintro ⟨rfl, rfl⟩
    rfl

/-- Lines that are different, and each ends with the same separator which it does not contain otherwise, are the lines
of one text. -/
theorem flatMap_injective {β : Type*} {text : β → List α} (htext : ∀ b, c ∉ text b) (hinj : Function.Injective text) :
    Function.Injective fun bs : List β => bs.flatMap fun b => text b ++ [c] := by
  intro bs bs' he
  induction bs generalizing bs' with
  | nil =>
    cases bs' with
    | nil => rfl
    | cons b' bs' => simp at he
  | cons b bs ih =>
    cases bs' with
    | nil => simp at he
    | cons b' bs' =>
      simp only [List.flatMap_cons, List.append_assoc, List.singleton_append] at he
      obtain ⟨hb, hbs⟩ := (append_cons_inj (htext b) (htext b')).mp he
      rw [hinj hb, ih hbs]

end Fields

/-! ## Digits -/

variable {b n m : Nat} {c : Char}

theorem digitChar_inj {d e : Nat} (hd : d < 16) (he : e < 16) (h : Nat.digitChar d = Nat.digitChar e) : d = e := by
  have hall : ∀ d < 16, ∀ e < 16, Nat.digitChar d = Nat.digitChar e → d = e := by decide
  exact hall d hd e he h

theorem mem_toDigits (hb : 1 < b) (hc : c ∈ Nat.toDigits b n) : ∃ d < b, c = Nat.digitChar d := by
  induction n using Nat.strongRecOn with
  | ind n ih =>
    rw [Nat.toDigits_eq_if hb] at hc
    split at hc
    · rename_i hlt
      exact ⟨n, hlt, List.mem_singleton.mp hc⟩
    · rename_i hge
      rcases List.mem_append.mp hc with hc | hc
      · exact ih _ (Nat.div_lt_self (by omega) hb) hc
      · exact ⟨n % b, Nat.mod_lt _ (by omega), List.mem_singleton.mp hc⟩

/-- What is not a digit does not stand in a number. -/
theorem not_mem_toDigits (hb : 1 < b) (hb' : b ≤ 16) (hc : ∀ d < 16, c ≠ Nat.digitChar d) : c ∉ Nat.toDigits b n := by
  intro hmem
  obtain ⟨d, hd, rfl⟩ := mem_toDigits hb hmem
  exact hc d (by omega) rfl

/-- Different numbers have different digits. -/
theorem toDigits_inj (hb : 1 < b) (hb' : b ≤ 16) (h : Nat.toDigits b n = Nat.toDigits b m) : n = m := by
  induction n using Nat.strongRecOn generalizing m with
  | ind n ih =>
    rw [Nat.toDigits_eq_if hb, Nat.toDigits_eq_if (n := m) hb] at h
    have hne : ∀ k, Nat.toDigits b k ≠ [] := fun k => Nat.toDigits_ne_nil
    split at h
    · rename_i hn
      split at h
      · exact digitChar_inj (by omega) (by omega) (List.singleton_inj.mp h)
      · obtain ⟨he, -⟩ := List.append_inj' (show [] ++ [Nat.digitChar n] = _ from h) rfl
        exact absurd he.symm (hne _)
    · rename_i hn
      split at h
      · obtain ⟨he, -⟩ := List.append_inj' (show _ = [] ++ [Nat.digitChar m] from h) rfl
        exact absurd he (hne _)
      · obtain ⟨he, hlast⟩ := List.append_inj' h rfl
        have hdiv := ih _ (Nat.div_lt_self (by omega) hb) he
        have hmod : n % b = m % b := by
          have hlt := Nat.mod_lt n (Nat.lt_of_succ_lt hb)
          have hlt' := Nat.mod_lt m (Nat.lt_of_succ_lt hb)
          exact digitChar_inj (by omega) (by omega) (List.singleton_inj.mp hlast)
        rw [← Nat.div_add_mod n b, ← Nat.div_add_mod m b, hdiv, hmod]

/-! ## Conversions -/

theorem zu_inj : zu n = zu m ↔ n = m := by
  constructor
  · exact toDigits_inj (by decide) (by decide)
  · exact congrArg zu

theorem not_mem_zu (hc : ∀ d < 16, c ≠ Nat.digitChar d) : c ∉ zu n := not_mem_toDigits (by decide) (by decide) hc

theorem not_mem_ld {n : Int} (hc : ∀ d < 16, c ≠ Nat.digitChar d) (hminus : c ≠ '-') : c ∉ ld n := by
  have hdigits : c ∉ Nat.toDigits 10 n.natAbs := not_mem_zu hc
  unfold ld
  split
  · exact fun h => (List.mem_cons.mp h).elim hminus hdigits
  · exact hdigits

theorem ld_inj {n m : Int} : ld n = ld m ↔ n = m := by
  have hminus : ∀ k l, Nat.toDigits 10 k ≠ '-' :: l := by
    intro k l he
    have hmem : '-' ∉ Nat.toDigits 10 k := not_mem_zu (by decide)
    rw [he] at hmem
    exact hmem List.mem_cons_self
  constructor
  · intro h
    unfold ld at h
    split at h
    · rename_i hn
      split at h
      · have := toDigits_inj (by decide) (by decide) (List.cons.inj h).2
        omega
      · exact absurd h.symm (hminus _ _)
    · rename_i hn
      split at h
      · exact absurd h (hminus _ _)
      · have := toDigits_inj (by decide) (by decide) h
        omega
  · exact congrArg ld

theorem not_mem_p (hc : ∀ d < 16, c ≠ Nat.digitChar d) (hx : c ∉ ['(', 'n', 'i', 'l', ')', 'x']) : c ∉ p n := by
  unfold p
  split
  · exact fun h => hx (List.mem_append_left ['x'] h)
  · have hdigits : c ∉ Nat.toDigits 16 n := not_mem_toDigits (by decide) (by decide) hc
    have h0 : c ≠ '0' := hc 0 (by decide)
    have hx' : c ≠ 'x' := by
      rintro rfl
      exact hx (by decide)
    simp [hdigits, h0, hx']

theorem p_inj : p n = p m ↔ n = m := by
  constructor
  · intro h
    unfold p at h
    split at h
    · split at h
      · omega
      · cases h
    · split at h
      · cases h
      · exact toDigits_inj (by decide) (by decide) (List.cons.inj (List.cons.inj h).2).2
  · exact congrArg p

end Cs326.Printf
