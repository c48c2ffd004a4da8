import Cs326.Lib.Selection

/-!
# Running minima

The selection loop `best = bound; for (i ...) if (ok(i) && key(i) < best) { best = key(i); at = i; }` over any linear
order. It finds nothing iff no admissible key is below the bound (`runningMin_eq_none`); what it finds is the first
admissible index of least key (`runningMin_eq_some`).
-/

namespace Cs326

variable {ι α : Type*} [LinearOrder α]

/-- One iteration: keep the best key so far and where it was seen. -/
def minStep (ok : ι → Bool) (key : ι → α) (acc : α × Option ι) (i : ι) : α × Option ι :=
  if ok i ∧ key i < acc.1 then (key i, some i) else acc

/-- The index where the loop last lowered its bound, if it did. -/
def runningMin (ok : ι → Bool) (key : ι → α) (bound : α) (l : List ι) : Option ι :=
  (l.foldl (minStep ok key) (bound, none)).2

variable {ok : ι → Bool} {key : ι → α} {bound : α} {l : List ι}

/-- The loop selects by `<`. -/
theorem runningMin_eq_selection : runningMin ok key bound l = selection (fun a b => a < b) ok key bound l := rfl

/-- The loop finds nothing iff every admissible key is at least the bound. -/
theorem runningMin_eq_none : runningMin ok key bound l = none ↔ ∀ j ∈ l, ok j → bound ≤ key j := by
  rw [runningMin_eq_selection, selection_eq_none ranking_lt]
  simp only [not_lt]

/-- What the loop finds is the first admissible element of least key. -/
theorem runningMin_eq_some {i : ι} (h : runningMin ok key bound l = some i) :
    ok i ∧ key i < bound ∧
      ∃ l₁ l₂, l = l₁ ++ i :: l₂ ∧ (∀ j ∈ l₁, ok j → key i < key j) ∧ ∀ j ∈ l₂, ok j → key i ≤ key j := by
  rw [runningMin_eq_selection] at h
  obtain ⟨hi, hb, l₁, l₂, hl, h₁, h₂⟩ := selection_eq_some ranking_lt h
  exact ⟨hi, hb, l₁, l₂, hl, h₁, fun j hj ho => not_lt.mp (h₂ j hj ho)⟩

/-- Over `0, ..., n - 1`: the least key, the lowest index on ties. -/
theorem runningMin_range {ok : Nat → Bool} {key : Nat → α} {n i : Nat}
    (h : runningMin ok key bound (List.range n) = some i) :
    i < n ∧ ok i ∧ key i < bound ∧ ∀ j < n, ok j → key i ≤ key j ∧ (j < i → key i < key j) := by
  obtain ⟨hi, hb, l₁, l₂, hl, h₁, h₂⟩ := runningMin_eq_some h
  have hsorted : (l₁ ++ i :: l₂).Pairwise (· < ·) := hl ▸ List.pairwise_lt_range
  rw [List.pairwise_append, List.pairwise_cons] at hsorted
  have hmem : ∀ j, j < n ↔ j ∈ l₁ ∨ j = i ∨ j ∈ l₂ := by
    intro j; rw [← List.mem_range, hl, List.mem_append, List.mem_cons]
  refine ⟨(hmem i).mpr (.inr (.inl rfl)), hi, hb, fun j hj hok => ?_⟩
  rcases (hmem j).mp hj with hj | rfl | hj
  · exact ⟨(h₁ j hj hok).le, fun _ => h₁ j hj hok⟩
  · exact ⟨le_rfl, fun hji => absurd hji (Nat.lt_irrefl _)⟩
  · exact ⟨h₂ j hj hok, fun hji => absurd hji (Nat.lt_asymm (hsorted.2.1.1 j hj))⟩

end Cs326
