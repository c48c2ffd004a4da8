import Mathlib.Data.List.Induction
import Mathlib.Order.Lattice

/-!
# Selection loops

The loop `best = bound; for (x ...) if (ok(x) && better(key(x), best)) { best = key(x); at = x; }` for a comparison that
is transitive, and whose negation is (`Ranking`). A strict comparison selects the first of the best elements, one that
is not strict the last (`selection_eq_some`); nothing is selected iff no admissible key is better than the bound
(`selection_eq_none`).
-/

namespace Cs326

variable {ι α : Type*}

/-- A comparison by which a loop may select. -/
structure Ranking (better : α → α → Prop) : Prop where
  trans : ∀ {a b c}, better a b → better b c → better a c
  not_trans : ∀ {a b c}, ¬better a b → ¬better b c → ¬better a c

theorem ranking_lt [LinearOrder α] : Ranking fun a b : α => a < b where
  trans := lt_trans
  not_trans h h' := not_lt.mpr ((not_lt.mp h').trans (not_lt.mp h))

theorem ranking_le [LinearOrder α] : Ranking fun a b : α => a ≤ b where
  trans := le_trans
  not_trans h h' := not_le.mpr ((not_le.mp h').trans (not_le.mp h))

theorem ranking_ge [LinearOrder α] : Ranking fun a b : α => b ≤ a where
  trans h h' := le_trans h' h
  not_trans h h' := not_le.mpr ((not_le.mp h).trans (not_le.mp h'))

/-- What beats the element held is ahead of what does not. -/
theorem Ranking.lt_of_not {better : α → α → Prop} (hr : Ranking better) {a b c : α} (h : better a b)
    (h' : ¬better c b) : better a c :=
  by_contra fun hn => hr.not_trans hn h' h

variable (better : α → α → Prop) [DecidableRel better]

/-- One iteration: keep the best key so far and where it was seen. -/
def selectStep (ok : ι → Bool) (key : ι → α) (acc : α × Option ι) (i : ι) : α × Option ι :=
  if ok i ∧ better (key i) acc.1 then (key i, some i) else acc

/-- The element where the loop last moved its bound, if it did. -/
def selection (ok : ι → Bool) (key : ι → α) (bound : α) (l : List ι) : Option ι :=
  (l.foldl (selectStep better ok key) (bound, none)).2

/-- What the loop knows after the elements `l`: the bound still stands and no admissible key is better, or the element
it holds is better than all before it and none behind it is better. -/
def SelectedAfter (ok : ι → Bool) (key : ι → α) (bound : α) (l : List ι) : α × Option ι → Prop
  | (b, none) => b = bound ∧ ∀ j ∈ l, ok j → ¬better (key j) bound
  | (b, some i) => b = key i ∧ ok i ∧ better (key i) bound ∧
      ∃ l₁ l₂, l = l₁ ++ i :: l₂ ∧ (∀ j ∈ l₁, ok j → better (key i) (key j)) ∧ ∀ j ∈ l₂, ok j → ¬better (key j) (key i)

variable {better} {ok : ι → Bool} {key : ι → α} {bound : α} {l : List ι} {i : ι}

theorem selectedAfter_step (hr : Ranking better) {acc : α × Option ι} (h : SelectedAfter better ok key bound l acc)
    (x : ι) : SelectedAfter better ok key bound (l ++ [x]) (selectStep better ok key acc x) := by
  obtain ⟨b, at'⟩ := acc
  unfold selectStep
  split
  case isTrue hx =>
    obtain ⟨hok, hlt⟩ := hx
    cases at' with
    | none =>
      obtain ⟨rfl, hl⟩ := h
      exact ⟨rfl, hok, hlt, l, [], rfl, fun j hj ho => hr.lt_of_not hlt (hl j hj ho), by simp⟩
    | some i =>
      obtain ⟨rfl, _, hb, l₁, l₂, rfl, h₁, h₂⟩ := h
      refine ⟨rfl, hok, hr.trans hlt hb, l₁ ++ i :: l₂, [], rfl, fun j hj ho => ?_, by simp⟩
      rcases List.mem_append.mp hj with hj | hj
      · exact hr.trans hlt (h₁ j hj ho)
      · rcases List.mem_cons.mp hj with rfl | hj
        · exact hlt
        · exact hr.lt_of_not hlt (h₂ j hj ho)
  case isFalse hx =>
    have hge : ok x → ¬better (key x) b := fun ho hlt => hx ⟨ho, hlt⟩
    cases at' with
    | none =>
      obtain ⟨rfl, hl⟩ := h
      refine ⟨rfl, fun j hj ho => ?_⟩
      rcases List.mem_append.mp hj with hj | hj
      · exact hl j hj ho
      · rw [List.mem_singleton.mp hj] at ho ⊢; exact hge ho
    | some i =>
      obtain ⟨rfl, hi, hb, l₁, l₂, rfl, h₁, h₂⟩ := h
      refine ⟨rfl, hi, hb, l₁, l₂ ++ [x], by simp, h₁, fun j hj ho => ?_⟩
      rcases List.mem_append.mp hj with hj | hj
      · exact h₂ j hj ho
      · rw [List.mem_singleton.mp hj] at ho ⊢; exact hge ho

theorem selectedAfter_foldl (hr : Ranking better) (l : List ι) :
    SelectedAfter better ok key bound l (l.foldl (selectStep better ok key) (bound, none)) := by
  induction l using List.reverseRecOn with
  | nil => exact ⟨rfl, by simp⟩
  | append_singleton l x ih => rw [List.foldl_append]; exact selectedAfter_step hr ih x

/-- The loop selects nothing iff no admissible key is better than the bound. -/
theorem selection_eq_none (hr : Ranking better) :
    selection better ok key bound l = none ↔ ∀ j ∈ l, ok j → ¬better (key j) bound := by
  have h : SelectedAfter better ok key bound l _ := selectedAfter_foldl hr l
  unfold selection
  generalize l.foldl (selectStep better ok key) (bound, none) = acc at h
  obtain ⟨b, at'⟩ := acc
  cases at' with
  | none =>
    constructor
    · intro _
      exact h.2
    · intro _
      rfl
  | some i =>
    obtain ⟨_, hi, hb, l₁, l₂, rfl, _, _⟩ := h
    constructor
    · intro h
      cases h
    · intro hall
      exact absurd hb (hall i (by simp) hi)

/-- What the loop selects beats the elements before it, and none behind it beats it. -/
theorem selection_eq_some (hr : Ranking better) (h : selection better ok key bound l = some i) :
    ok i ∧ better (key i) bound ∧
      ∃ l₁ l₂, l = l₁ ++ i :: l₂ ∧ (∀ j ∈ l₁, ok j → better (key i) (key j)) ∧
        ∀ j ∈ l₂, ok j → ¬better (key j) (key i) := by
  have ha : SelectedAfter better ok key bound l _ := selectedAfter_foldl hr l
  unfold selection at h
  generalize l.foldl (selectStep better ok key) (bound, none) = acc at h ha
  obtain ⟨b, at'⟩ := acc
  obtain rfl : at' = some i := h
  exact ha.2

end Cs326
