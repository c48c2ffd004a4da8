import Mathlib.Data.List.Perm.Basic
import Mathlib.Order.Lattice

/-!
# Exchange sort

Passes over a list that exchange neighbours with the wrong order of keys. A pass is a permutation (`pass_perm`), leaves
the elements with one key in their order (`pass_filter`), and brings the greatest key to the end (`pass_eq`). So after
`n - 1` passes a list of length `n` is sorted (`passes_sorted`), and stably (`passes_filter`).
-/

namespace Cs326

variable {α β κ : Type*} [LinearOrder κ] {key : α → κ} {l l' front settled : List α} {x y : α}

/-- The neighbours are compared from the front on. -/
def pass (key : α → κ) : List α → List α
  | [] => []
  | [x] => [x]
  | x :: y :: l => if key y < key x then y :: pass key (x :: l) else x :: pass key (y :: l)
termination_by l => l.length

def passes (key : α → κ) : Nat → List α → List α
  | 0, l => l
  | n + 1, l => passes key n (pass key l)

/-! ## One pass -/

theorem pass_perm (key : α → κ) (l : List α) : (pass key l).Perm l := by
  induction l using pass.induct key with
  | case1 => rw [pass]
  | case2 x => rw [pass]
  | case3 x y l h ih =>
    rw [pass, if_pos h]
    exact (ih.cons y).trans (.swap x y l)
  | case4 x y l h ih =>
    rw [pass, if_neg h]
    exact ih.cons x

theorem pass_length (key : α → κ) (l : List α) : (pass key l).length = l.length := (pass_perm key l).length_eq

/-- Nothing but the keys is looked at. -/
theorem pass_map (key : α → κ) (f : β → α) (l : List β) : pass key (l.map f) = (pass (key ∘ f) l).map f := by
  induction l using pass.induct (key ∘ f) with
  | case1 => rw [pass, List.map_nil, pass]
  | case2 x => rw [pass, List.map_singleton, pass]
  | case3 x y l h ih =>
    rw [List.map_cons] at ih
    rw [List.map_cons, List.map_cons, pass, if_pos (show key (f y) < key (f x) from h), ih, pass, if_pos h,
      List.map_cons]
  | case4 x y l h ih =>
    rw [List.map_cons] at ih
    rw [List.map_cons, List.map_cons, pass, if_neg (show ¬key (f y) < key (f x) from h), ih, pass, if_neg h,
      List.map_cons]

/-- Elements with one key keep their order. -/
theorem pass_filter (key : α → κ) (k : κ) (l : List α) :
    (pass key l).filter (fun x => key x = k) = l.filter fun x => key x = k := by
  induction l using pass.induct key with
  | case1 => rw [pass]
  | case2 x => rw [pass]
  | case3 x y l h ih =>
    rw [pass, if_pos h, List.filter_cons, ih]
    simp only [List.filter_cons]
    by_cases hy : key y = k
    · have hx : key x ≠ k := by
        rintro rfl
        exact absurd hy (ne_of_lt h)
      simp [hx, hy]
    · simp [hy]
  | case4 x y l h ih =>
    rw [pass, if_neg h]
    by_cases hx : key x = k
    · rw [List.filter_cons_of_pos (by simpa using hx), List.filter_cons_of_pos (by simpa using hx), ih]
    · rw [List.filter_cons_of_neg (by simpa using hx), List.filter_cons_of_neg (by simpa using hx), ih]

/-- **The greatest key comes to the end.** -/
theorem pass_eq (key : α → κ) (x : α) (l : List α) :
    ∃ front last, pass key (x :: l) = front ++ [last] ∧ ∀ y ∈ front, key y ≤ key last := by
  induction l generalizing x with
  | nil => exact ⟨[], x, by rw [pass]; rfl, by simp⟩
  | cons y l ih =>
    by_cases h : key y < key x
    · obtain ⟨front, last, hpass, hle⟩ := ih x
      have hx : key x ≤ key last := by
        have hmem : x ∈ front ++ [last] := hpass ▸ (pass_perm key (x :: l)).mem_iff.mpr List.mem_cons_self
        rcases List.mem_append.mp hmem with hmem | hmem
        · exact hle x hmem
        · rw [List.mem_singleton.mp hmem]
      refine ⟨y :: front, last, by rw [pass, if_pos h, hpass]; rfl, ?_⟩
      exact List.forall_mem_cons.mpr ⟨h.le.trans hx, hle⟩
    · obtain ⟨front, last, hpass, hle⟩ := ih y
      have hy : key y ≤ key last := by
        have hmem : y ∈ front ++ [last] := hpass ▸ (pass_perm key (y :: l)).mem_iff.mpr List.mem_cons_self
        rcases List.mem_append.mp hmem with hmem | hmem
        · exact hle y hmem
        · rw [List.mem_singleton.mp hmem]
      refine ⟨x :: front, last, by rw [pass, if_neg h, hpass]; rfl, ?_⟩
      exact List.forall_mem_cons.mpr ⟨(not_lt.mp h).trans hy, hle⟩

/-- A sorted list stays as it is. -/
theorem pass_sorted (h : l.Pairwise fun x y => key x ≤ key y) : pass key l = l := by
  induction l using pass.induct key with
  | case1 => rw [pass]
  | case2 x => rw [pass]
  | case3 x y l hlt ih => exact absurd hlt (not_lt.mpr (List.rel_of_pairwise_cons h List.mem_cons_self))
  | case4 x y l hlt ih => rw [pass, if_neg hlt, ih h.of_cons]

/-- What is settled at the end stays there. -/
theorem pass_append (hsorted : settled.Pairwise fun x y => key x ≤ key y)
    (hle : ∀ x ∈ front, ∀ y ∈ settled, key x ≤ key y) : pass key (front ++ settled) = pass key front ++ settled := by
  induction front using pass.induct key with
  | case1 =>
    rw [pass]
    exact pass_sorted hsorted
  | case2 x =>
    have hall : (x :: settled).Pairwise fun x y => key x ≤ key y :=
      List.pairwise_cons.mpr ⟨hle x (List.mem_singleton_self x), hsorted⟩
    rw [pass]
    exact pass_sorted hall
  | case3 x y l h ih =>
    have hrest : pass key (x :: l ++ settled) = pass key (x :: l) ++ settled := by
      refine ih fun z hz => hle z ?_
      rcases List.mem_cons.mp hz with rfl | hz
      · exact List.mem_cons_self
      · exact List.mem_cons_of_mem _ (List.mem_cons_of_mem _ hz)
    rw [List.cons_append, List.cons_append, pass, if_pos h, pass, if_pos h, ← List.cons_append, hrest]
    rfl
  | case4 x y l h ih =>
    have hrest := ih fun z hz => hle z (List.mem_cons_of_mem _ hz)
    rw [List.cons_append, List.cons_append, pass, if_neg h, pass, if_neg h, ← List.cons_append, hrest]
    rfl

/-! ## All passes -/

theorem passes_perm (key : α → κ) (n : Nat) (l : List α) : (passes key n l).Perm l := by
  induction n generalizing l with
  | zero => exact .refl l
  | succ n ih => exact (ih (pass key l)).trans (pass_perm key l)

theorem passes_map (key : α → κ) (f : β → α) (n : Nat) (l : List β) :
    passes key n (l.map f) = (passes (key ∘ f) n l).map f := by
  induction n generalizing l with
  | zero => rfl
  | succ n ih => rw [passes, pass_map, ih, passes]

/-- **The sort is stable.** -/
theorem passes_filter (key : α → κ) (k : κ) (n : Nat) (l : List α) :
    (passes key n l).filter (fun x => key x = k) = l.filter fun x => key x = k := by
  induction n generalizing l with
  | zero => rfl
  | succ n ih => exact (ih (pass key l)).trans (pass_filter key k l)

/-- All but the first `n + 1` elements are where they belong. -/
def Settled (key : α → κ) (n : Nat) (l : List α) : Prop :=
  ∃ front settled, l = front ++ settled ∧ front.length ≤ n + 1 ∧ (settled.Pairwise fun x y => key x ≤ key y) ∧
    ∀ x ∈ front, ∀ y ∈ settled, key x ≤ key y

theorem Settled.sorted (h : Settled key 0 l) : l.Pairwise fun x y => key x ≤ key y := by
  obtain ⟨front, settled, rfl, hlen, hsorted, hle⟩ := h
  match front with
  | [] => exact hsorted
  | [x] => exact List.pairwise_cons.mpr ⟨hle x (List.mem_singleton_self x), hsorted⟩
  | _ :: _ :: _ => simp at hlen

/-- A pass settles one more. -/
theorem Settled.pass {n : Nat} (h : Settled key (n + 1) l) : Settled key n (pass key l) := by
  obtain ⟨front, settled, rfl, hlen, hsorted, hle⟩ := h
  rw [pass_append hsorted hle]
  cases front with
  | nil => exact ⟨[], settled, by rw [Cs326.pass], Nat.zero_le _, hsorted, by simp⟩
  | cons x l =>
    obtain ⟨front, last, hpass, hlast⟩ := pass_eq key x l
    have hmem : ∀ y ∈ front ++ [last], y ∈ x :: l := fun y hy => (pass_perm key (x :: l)).mem_iff.mp (hpass ▸ hy)
    have hlen' := pass_length key (x :: l)
    rw [hpass] at hlen' ⊢
    rw [List.length_append, List.length_singleton] at hlen'
    refine ⟨front, last :: settled, by simp, by omega, ?_, ?_⟩
    · exact List.pairwise_cons.mpr ⟨hle last (hmem last (by simp)), hsorted⟩
    · intro y hy
      exact List.forall_mem_cons.mpr ⟨hlast y hy, hle y (hmem y (List.mem_append_left _ hy))⟩

theorem Settled.passes {n : Nat} (h : Settled key n l) : (passes key n l).Pairwise fun x y => key x ≤ key y := by
  induction n generalizing l with
  | zero => exact h.sorted
  | succ n ih => exact ih h.pass

/-- **The sort sorts.** -/
theorem passes_sorted (key : α → κ) (l : List α) :
    (passes key (l.length - 1) l).Pairwise fun x y => key x ≤ key y := by
  apply Settled.passes
  exact ⟨l, [], (List.append_nil l).symm, by omega, .nil, by simp⟩

/-- Which of two elements with one key comes first. -/
theorem sublist_of_passes {n : Nat} (hxy : [x, y].Sublist (passes key n l)) (hkey : key x = key y) :
    [x, y].Sublist l := by
  have hfilter := hxy.filter fun z => key z = key y
  rw [passes_filter] at hfilter
  have hboth : [x, y].filter (fun z => key z = key y) = [x, y] := by simp [hkey]
  rw [hboth] at hfilter
  exact hfilter.trans List.filter_sublist

end Cs326
