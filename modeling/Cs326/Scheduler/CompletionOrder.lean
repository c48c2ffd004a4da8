import Cs326.Lib.CInt
import Cs326.Lib.ExchangeSort
import Mathlib.Algebra.Order.Floor.Ring
import Mathlib.Data.List.FinRange
import Mathlib.Data.Rat.Floor
import Mathlib.Tactic.Linarith

/-!
# The completion order

The end of `main` in `scheduler.c`: the times are put into an `int` array, the names into another, and both are sorted
by one double loop. The loop stays inside the arrays and makes the passes of an exchange sort over the pairs
(`sort_listing_eq`), so it is a stable sort of them (`paired_exchange_sort`). An `int` has no fraction, so the order of
the lines is that of the completion times if and only if processes that end in the same second stand in the table in the
order in which they end (`real_order_iff`).
-/

namespace Cs326.Scheduler

/-! ## `main` -/

/-- `times` and `names`. -/
structure Listing (ν : Type) where
  times : List Int
  names : List ν

/-- What is read of a process. -/
structure Finished (K : Type) where
  name : List UInt8
  completion_time : K

section

variable {ν : Type}

/-- The body of the inner loop; `none`: an access outside of an array. -/
def exchange (a : Listing ν) (j : Nat) : Option (Listing ν) := do
  if (← a.times[j + 1]?) < (← a.times[j]?) then
    let tempTime ← a.times[j]?
    let tempName ← a.names[j]?
    let times := a.times.set j (← a.times[j + 1]?)
    let names := a.names.set j (← a.names[j + 1]?)
    return ⟨times.set (j + 1) tempTime, names.set (j + 1) tempName⟩
  else return a

def sort_listing (num : Nat) (a : Listing ν) : Option (Listing ν) :=
  (List.range (num - 1)).foldlM (fun a _ => (List.range (num - 1)).foldlM exchange a) a

variable {K : Type} [Field K] [LinearOrder K] [FloorRing K]

/-- A number without its fraction. -/
def trunc (x : K) : Int := if 0 ≤ x then ⌊x⌋ else ⌈x⌉

/-- The range of `int`. -/
def InRange (n : Int) : Prop := -2 ^ 31 ≤ n ∧ n ≤ INT_MAX

instance (n : Int) : Decidable (InRange n) := inferInstanceAs (Decidable (_ ∧ _))

/-- A `double` as `int`; `none`: it has no room there. -/
def toInt (x : K) : Option Int := if InRange (trunc x) then some (trunc x) else none

/-- What is printed under `Completion Order`, where `label` stands in `names` for a process. -/
def completion_order (label : Finished K → ν) (pcbs : List (Finished K)) : Option (List ν) := do
  let times ← pcbs.mapM fun pcb => toInt pcb.completion_time
  let a ← sort_listing pcbs.length ⟨times, pcbs.map label⟩
  return a.names

end

/-! ## The double loop -/

section Loop

variable {ν : Type} {l front : List (Int × ν)} {x y : Int × ν}

def listing (l : List (Int × ν)) : Listing ν := ⟨l.map Prod.fst, l.map Prod.snd⟩

theorem listing_map {α : Type*} (time : α → Int) (label : α → ν) (l : List α) :
    listing (l.map fun p => (time p, label p)) = ⟨l.map time, l.map label⟩ := by
  simp [listing, Function.comp_def]

theorem get_front {α β : Type*} (f : α → β) (front : List α) (x : α) (l : List α) :
    ((front ++ x :: l).map f)[front.length]? = some (f x) := by
  simp

theorem set_front {α β : Type*} (f : α → β) (front : List α) (x y : α) (l : List α) :
    ((front ++ x :: l).map f).set front.length (f y) = (front ++ y :: l).map f := by
  simp [List.set_append_right]

theorem get_second {α β : Type*} (f : α → β) (front : List α) (x y : α) (l : List α) :
    ((front ++ x :: y :: l).map f)[front.length + 1]? = some (f y) := by
  simp

theorem swap_front {α β : Type*} (f : α → β) (front : List α) (x y : α) (l : List α) :
    (((front ++ x :: y :: l).map f).set front.length (f y)).set (front.length + 1) (f x) =
      (front ++ y :: x :: l).map f := by
  rw [set_front f front x y]
  simp [List.set_append_right]

/-- One exchange. -/
theorem exchange_eq (front l : List (Int × ν)) (x y : Int × ν) :
    exchange (listing (front ++ x :: y :: l)) front.length =
      some (listing (front ++ if y.1 < x.1 then y :: x :: l else x :: y :: l)) := by
  unfold exchange listing
  simp only [get_front, get_second, Option.bind_eq_bind, Option.bind_some, Option.pure_def, swap_front]
  split_ifs <;> rfl

/-- **The inner loop** is a pass. -/
theorem inner_loop (front : List (Int × ν)) (x : Int × ν) (l : List (Int × ν)) :
    (List.range' front.length l.length).foldlM exchange (listing (front ++ x :: l)) =
      some (listing (front ++ pass Prod.fst (x :: l))) := by
  induction l generalizing front x with
  | nil =>
    rw [pass]
    rfl
  | cons y l ih =>
    rw [List.length_cons, List.range'_succ, List.foldlM_cons, exchange_eq, Option.bind_eq_bind, Option.bind_some]
    split_ifs with h
    · have hrest := ih (front ++ [y]) x
      rw [List.length_append, List.length_singleton, List.append_assoc, List.append_assoc] at hrest
      rw [pass, if_pos h]
      exact hrest
    · have hrest := ih (front ++ [x]) y
      rw [List.length_append, List.length_singleton, List.append_assoc, List.append_assoc] at hrest
      rw [pass, if_neg h]
      exact hrest

theorem inner_loop_eq (l : List (Int × ν)) :
    (List.range (l.length - 1)).foldlM exchange (listing l) = some (listing (pass Prod.fst l)) := by
  cases l with
  | nil =>
    rw [pass]
    rfl
  | cons x l =>
    rw [List.range_eq_range']
    exact inner_loop [] x l

/-- **The double loop** makes the passes of the sort. -/
theorem sort_listing_eq (l : List (Int × ν)) :
    sort_listing l.length (listing l) = some (listing (passes Prod.fst (l.length - 1) l)) := by
  have hloop : ∀ (is : List Nat) (l : List (Int × ν)) (n : Nat), n = l.length →
      is.foldlM (fun a _ => (List.range (n - 1)).foldlM exchange a) (listing l) =
        some (listing (passes Prod.fst is.length l)) := by
    intro is
    induction is with
    | nil => exact fun _ _ _ => rfl
    | cons i is ih =>
      rintro l _ rfl
      rw [List.foldlM_cons, inner_loop_eq, Option.bind_eq_bind, Option.bind_some, ih _ _ (pass_length _ l).symm]
      rfl
  unfold sort_listing
  rw [hloop _ l _ rfl, List.length_range]

/-- The same for the times and the labels of any elements. -/
theorem sort_listing_map {α : Type*} (time : α → Int) (label : α → ν) (l : List α) :
    sort_listing l.length ⟨l.map time, l.map label⟩ =
      some ⟨(passes time (l.length - 1) l).map time, (passes time (l.length - 1) l).map label⟩ := by
  have hloop := sort_listing_eq (l.map fun p => (time p, label p))
  rw [passes_map, List.length_map, listing_map, listing_map] at hloop
  exact hloop

/-- **The double loop sorts both arrays in one order**, that of the times; equal times stay in the order of their
indices. -/
theorem paired_exchange_sort (n : Nat) (times : Fin n → Int) (names : Fin n → ν) :
    ∃ order : List (Fin n), order.Perm (List.finRange n) ∧
      sort_listing n ⟨List.ofFn times, List.ofFn names⟩ = some ⟨order.map times, order.map names⟩ ∧
      (order.map times).Pairwise (· ≤ ·) ∧ order.Pairwise fun i j => times i = times j → i < j := by
  have hloop := sort_listing_map times names (List.finRange n)
  have hsorted := passes_sorted times (List.finRange n)
  rw [List.length_finRange] at hloop hsorted
  refine ⟨passes times (n - 1) (List.finRange n), passes_perm _ _ _, ?_, ?_, ?_⟩
  · rw [List.ofFn_eq_map, List.ofFn_eq_map]
    exact hloop
  · exact List.pairwise_map.mpr hsorted
  · apply List.pairwise_iff_forall_sublist.mpr
    intro i j hij htime
    -- two indices with one time stand as in the list of all indices
    exact List.pairwise_iff_forall_sublist.mp (List.pairwise_lt_finRange n) (sublist_of_passes hij htime)

end Loop

/-! ## The order of the lines -/

section Order

variable {ν K : Type} [Field K] [LinearOrder K] [FloorRing K] {pcbs order : List (Finished K)} {x y : K}

/-- The lines name the processes in the order of their completion times. -/
def RealOrder (pcbs : List (Finished K)) : Prop :=
  ∃ order, completion_order id pcbs = some order ∧
    completion_order Finished.name pcbs = some (order.map Finished.name) ∧ order.Perm pcbs ∧
      order.Pairwise fun p q => p.completion_time ≤ q.completion_time

/-- The second in which a process ends. -/
def second (p : Finished K) : Int := trunc p.completion_time

theorem mapM_toInt {times : List Int} : pcbs.mapM (fun pcb => toInt pcb.completion_time) = some times ↔
    (∀ p ∈ pcbs, InRange (second p)) ∧ pcbs.map second = times := by
  induction pcbs generalizing times with
  | nil => simp [eq_comm]
  | cons p pcbs ih =>
    rw [List.mapM_cons, List.forall_mem_cons, List.map_cons]
    by_cases hp : InRange (second p)
    · have htime : toInt p.completion_time = some (second p) := if_pos hp
      rw [htime, and_iff_right hp]
      cases hrest : pcbs.mapM fun pcb => toInt pcb.completion_time with
      | none =>
        have hnone : ¬∀ p ∈ pcbs, InRange (second p) := by
          intro h
          cases hrest.symm.trans (ih.mpr ⟨h, rfl⟩)
        simp [hnone]
      | some times' =>
        obtain ⟨hall, rfl⟩ := ih.mp hrest
        rw [and_iff_right hall]
        exact Option.some_inj
    · have htime : toInt p.completion_time = none := if_neg hp
      rw [htime]
      simp [hp]

/-- **The lines** are the processes sorted by their seconds. -/
theorem completion_order_eq {label : Finished K → ν} {lines : List ν} : completion_order label pcbs = some lines ↔
    (∀ p ∈ pcbs, InRange (second p)) ∧
      (passes second (pcbs.length - 1) pcbs).map label = lines := by
  have hsort := sort_listing_map second label pcbs
  unfold completion_order
  constructor
  · intro h
    obtain ⟨times, htimes, h⟩ := Option.bind_eq_some_iff.mp h
    obtain ⟨hall, rfl⟩ := mapM_toInt.mp htimes
    rw [hsort] at h
    exact ⟨hall, Option.some.inj h⟩
  · rintro ⟨hall, rfl⟩
    rw [mapM_toInt.mpr ⟨hall, rfl⟩, Option.bind_eq_bind, Option.bind_some, hsort]
    rfl

theorem trunc_mono [IsStrictOrderedRing K] (h : x ≤ y) : trunc x ≤ trunc y := by
  unfold trunc
  split_ifs with hx hy hy
  · exact Int.floor_mono h
  · exact absurd (hx.trans h) hy
  · exact (Int.ceil_nonpos.mpr (not_le.mp hx).le).trans (Int.floor_nonneg.mpr hy)
  · exact Int.ceil_mono h

/-- The times are in the range of `int`, and processes that end in one second stand in the order in which they end. -/
def SecondsInOrder (pcbs : List (Finished K)) : Prop :=
  (∀ p ∈ pcbs, InRange (second p)) ∧
    pcbs.Pairwise fun p q => second p = second q → p.completion_time ≤ q.completion_time

theorem RealOrder.seconds (h : RealOrder pcbs) : SecondsInOrder pcbs := by
  obtain ⟨order, horder, -, -, hsorted⟩ := h
  obtain ⟨hall, hpasses⟩ := completion_order_eq.mp horder
  rw [List.map_id] at hpasses
  subst hpasses
  refine ⟨hall, List.pairwise_iff_forall_sublist.mpr ?_⟩
  intro p q hpq hsecond
  -- the order of the table is kept in a second
  have hsub := hpq.filter fun r => second r = second q
  rw [← passes_filter second (second q) (pcbs.length - 1) pcbs] at hsub
  have hboth : [p, q].filter (fun r => second r = second q) = [p, q] := by simp [hsecond]
  rw [hboth] at hsub
  exact List.pairwise_iff_forall_sublist.mp hsorted (hsub.trans List.filter_sublist)

/-- **The order is the real one** if and only if the seconds tell it. -/
theorem real_order_iff [IsStrictOrderedRing K] (pcbs : List (Finished K)) :
    RealOrder pcbs ↔ SecondsInOrder pcbs := by
  constructor
  · intro h
    exact h.seconds
  · rintro ⟨hall, hseconds⟩
    refine ⟨_, completion_order_eq.mpr ⟨hall, rfl⟩, completion_order_eq.mpr ⟨hall, ?_⟩, ?_, ?_⟩
    · rw [List.map_id]
    · rw [List.map_id]
      exact passes_perm _ _ _
    · rw [List.map_id]
      apply List.pairwise_iff_forall_sublist.mpr
      intro p q hpq
      have hle := List.pairwise_iff_forall_sublist.mp (passes_sorted second pcbs) hpq
      rcases eq_or_lt_of_le hle with hsecond | hlt
      · exact List.pairwise_iff_forall_sublist.mp hseconds (sublist_of_passes hpq hsecond) hsecond
      · exact (lt_of_not_ge fun h => absurd (trunc_mono h) (not_le.mpr hlt)).le

/-- `b` ends 0.2 seconds after `a`, in the same second. -/
def a_then_b : List (Finished ℚ) := [⟨[97], 6 / 5⟩, ⟨[98], 7 / 5⟩]

theorem second_a_then_b : ∀ p ∈ a_then_b, second p = 1 := by
  have hone : ∀ x : ℚ, 1 ≤ x → x < 2 → trunc x = 1 := by
    intro x hle hlt
    unfold trunc
    rw [if_pos (by linarith), Int.floor_eq_iff]
    constructor <;> norm_num <;> assumption
  intro p hp
  rcases List.mem_pair.mp hp with rfl | rfl
  · exact hone _ (by norm_num) (by norm_num)
  · exact hone _ (by norm_num) (by norm_num)

theorem real_order_a_then_b : RealOrder a_then_b := by
  refine (real_order_iff a_then_b).mpr ⟨?_, List.pairwise_pair.mpr fun _ => by norm_num⟩
  intro p hp
  rw [second_a_then_b p hp]
  decide

/-- In a table that has `b` in front of `a`, it stays there. -/
theorem same_second_not_real_order : ¬RealOrder a_then_b.reverse := by
  intro h
  have hpair := List.pairwise_pair.mp h.seconds.2
  have hseconds : second (⟨[98], 7 / 5⟩ : Finished ℚ) = second (⟨[97], 6 / 5⟩ : Finished ℚ) := by
    rw [second_a_then_b _ (by simp [a_then_b]), second_a_then_b _ (by simp [a_then_b])]
  have hle := hpair hseconds
  norm_num at hle

end Order

end Cs326.Scheduler
