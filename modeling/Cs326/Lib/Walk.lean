import Mathlib.Data.List.Infix

/-!
# Walks up and down

A list of moves walked from a depth. `depthAfter` gives the depth reached, or nothing if the walk goes up from depth
`0`. It does not if and only if no prefix has more moves up than moves down, the depth counted with these
(`depthAfter_isSome_iff`).
-/

namespace Cs326

inductive Move
  | up
  | stay
  | down
  deriving DecidableEq

variable {σ : Type*} {move : σ → Move} {s : σ} {ss ts : List σ} {d : Nat}

def depthAfter (move : σ → Move) : Nat → List σ → Option Nat
  | d, [] => some d
  | d, s :: ss =>
    match move s with
    | .up => if d = 0 then none else depthAfter move (d - 1) ss
    | .stay => depthAfter move d ss
    | .down => depthAfter move (d + 1) ss

theorem depthAfter_up (h : move s = .up) :
    depthAfter move d (s :: ss) = if d = 0 then none else depthAfter move (d - 1) ss := by
  rw [depthAfter, h]

theorem depthAfter_stay (h : move s = .stay) : depthAfter move d (s :: ss) = depthAfter move d ss := by
  rw [depthAfter, h]

theorem depthAfter_down (h : move s = .down) : depthAfter move d (s :: ss) = depthAfter move (d + 1) ss := by
  rw [depthAfter, h]

theorem depthAfter_append (d : Nat) (ss ts : List σ) :
    depthAfter move d (ss ++ ts) = (depthAfter move d ss).bind fun e => depthAfter move e ts := by
  induction ss generalizing d with
  | nil => rfl
  | cons s ss ih =>
    rw [List.cons_append]
    cases h : move s with
    | up =>
      rw [depthAfter_up h, depthAfter_up h]
      split_ifs
      · rfl
      · exact ih _
    | stay => rw [depthAfter_stay h, depthAfter_stay h, ih]
    | down => rw [depthAfter_down h, depthAfter_down h, ih]

theorem forall_prefix_cons {P : List σ → Prop} : (∀ l, l <+: s :: ss → P l) ↔ P [] ∧ ∀ l, l <+: ss → P (s :: l) := by
  constructor
  · intro h
    exact ⟨h [] List.nil_prefix, fun l hl => h _ (List.prefix_cons_inj s |>.mpr hl)⟩
  · rintro ⟨hnil, hcons⟩ l hl
    rcases List.prefix_cons_iff.mp hl with rfl | ⟨t, rfl, ht⟩
    · exact hnil
    · exact hcons t ht

/-- **A walk that stays below its start.** -/
theorem depthAfter_isSome_iff : (depthAfter move d ss).isSome = true ↔
    ∀ l, l <+: ss → l.countP (fun s => move s = .up) ≤ d + l.countP (fun s => move s = .down) := by
  induction ss generalizing d with
  | nil => simp [depthAfter]
  | cons s ss ih =>
    rw [forall_prefix_cons]
    simp only [List.countP_nil, Nat.zero_le, true_and, List.countP_cons]
    cases h : move s with
    | up =>
      simp only [depthAfter_up h, decide_true, if_true, reduceCtorEq, decide_false, Bool.false_eq_true, if_false]
      split_ifs with hd
      · refine ⟨fun hnone => absurd hnone (by simp), fun hall => ?_⟩
        have hone := hall [] List.nil_prefix
        simp [hd] at hone
      · rw [ih]
        refine forall₂_congr fun l _ => ?_
        omega
    | stay =>
      simp only [depthAfter_stay h, reduceCtorEq, decide_false, Bool.false_eq_true, if_false]
      exact ih
    | down =>
      simp only [depthAfter_down h, decide_true, if_true, reduceCtorEq, decide_false, Bool.false_eq_true, if_false]
      rw [ih]
      refine forall₂_congr fun l _ => ?_
      omega

end Cs326
