import Cs326.Lib.Cyclic
import Cs326.Scheduler.Table

/-!
# What the algorithms call

One lemma for each selection loop, stated for any table: the first process accepted (`basic`, the two scans of `rr`),
the waiting process of least key (`selectLeast`) and the draws of `insanity`. `rr` switches to the waiting process
nearest forward of the current one on the cycle of indices (`rr_eq_switch`).
-/

namespace Cs326.Scheduler

variable {s : SchedulerState} {accept : Nat → Bool} {i : Nat} {pid : Int}

theorem waiting_iff : s.waiting i = true ↔ (s.pcbs i).state = .WAITING := by simp [SchedulerState.waiting]

theorem firstProcess_eq_some (h : firstProcess s accept = some i) :
    i < s.num_processes ∧ accept i = true ∧ ∀ j < i, accept j = false := by
  obtain ⟨ha, hi, hlt⟩ := List.find?_range_eq_some.mp h
  exact ⟨List.mem_range.mp hi, ha, fun j hj => by simpa using hlt j hj⟩

theorem firstProcess_eq_none : firstProcess s accept = none ↔ ∀ j < s.num_processes, accept j = false := by
  simp [firstProcess, List.find?_eq_none]

/-! ## `basic` and `rr` -/

theorem basic_eq_ret : basic s = .ret ↔ ∀ j < s.num_processes, s.waiting j = false := by
  unfold basic
  rw [← firstProcess_eq_none]
  cases firstProcess s s.waiting <;> simp

theorem basic_eq_switch (h : basic s = .context_switch pid) :
    ∃ i < s.num_processes, pid = i ∧ s.waiting i = true := by
  unfold basic at h
  split at h
  · rename_i i hi
    obtain ⟨hn, hw, _⟩ := firstProcess_eq_some hi
    exact ⟨i, hn, (Call.context_switch.inj h).symm, hw⟩
  · cases h

/-- `rr` returns exactly when its second scan, which is `basic`, does. -/
theorem rr_eq_ret : rr s = .ret ↔ ∀ j < s.num_processes, s.waiting j = false := by
  unfold rr
  split
  · rename_i i hi
    obtain ⟨hn, hw, _⟩ := firstProcess_eq_some hi
    simp only [Bool.and_eq_true] at hw
    constructor
    · intro h
      cases h
    · intro h
      rw [h i hn] at hw
      exact absurd hw.1 (by simp)
  · exact basic_eq_ret

/-- **The cyclic successor.** `rr` takes the waiting process nearest forward of the current one. -/
theorem rr_eq_switch (h : rr s = .context_switch pid) :
    ∃ i < s.num_processes, pid = i ∧ s.waiting i = true ∧ ∀ j < s.num_processes, s.waiting j = true →
      turn s.num_processes s.current_process i ≤ turn s.num_processes s.current_process j := by
  unfold rr at h
  split at h
  · -- the first scan: some waiting process lies behind the current index
    rename_i i hi
    obtain ⟨hn, hw, hlt⟩ := firstProcess_eq_some hi
    simp only [Bool.and_eq_true, decide_eq_true_eq] at hw
    refine ⟨i, hn, (Call.context_switch.inj h).symm, hw.1, fun j hj hwj => ?_⟩
    have hij : s.current_process < j → i ≤ j := fun hcj => by
      by_contra hji
      have := hlt j (by omega)
      simp [hwj, hcj] at this
    unfold turn
    rw [if_pos hw.2]
    split <;> omega
  · -- the second scan: all of them lie at or before it
    rename_i hnone
    have hle : ∀ j < s.num_processes, s.waiting j = true → j ≤ s.current_process := by
      intro j hj hwj
      have := firstProcess_eq_none.mp hnone j hj
      simpa [hwj] using this
    split at h
    · rename_i i hi
      obtain ⟨hn, hw, hlt⟩ := firstProcess_eq_some hi
      refine ⟨i, hn, (Call.context_switch.inj h).symm, hw, fun j hj hwj => ?_⟩
      have hi' := hle i hn hw
      have hj' := hle j hj hwj
      have hij : i ≤ j := by
        by_contra hji
        have := hlt j (by omega)
        simp [hwj] at this
      unfold turn
      rw [if_neg (by omega), if_neg (by omega)]
      omega
    · cases h

/-! ## The least key -/

section Least

variable {α : Type*} [LinearOrder α] {key : ProcessCtlBlock → α} {bound : α}

theorem selectLeast_ne_ret : selectLeast s key bound pid ≠ .ret := by
  unfold selectLeast; split <;> simp

/-- Some process that the loop can select is waiting. -/
def Selectable (s : SchedulerState) (key : ProcessCtlBlock → α) (bound : α) : Prop :=
  ∃ j < s.num_processes, s.waiting j = true ∧ key (s.pcbs j) < bound

/-- With a selectable process, the loop switches to the first one of least key. -/
theorem selectLeast_of_selectable (pid : Int) (h : Selectable s key bound) :
    ∃ i < s.num_processes, selectLeast s key bound pid = .context_switch i ∧ s.waiting i = true ∧
      key (s.pcbs i) < bound ∧ ∀ j < s.num_processes, s.waiting j = true →
        key (s.pcbs i) ≤ key (s.pcbs j) ∧ (j < i → key (s.pcbs i) < key (s.pcbs j)) := by
  obtain ⟨j, hj, hw, hb⟩ := h
  unfold selectLeast
  cases hr : runningMin s.waiting (fun i => key (s.pcbs i)) bound (List.range s.num_processes) with
  | none => exact absurd hb (not_lt.mpr (runningMin_eq_none.mp hr j (List.mem_range.mpr hj) hw))
  | some i =>
    obtain ⟨hi, hwi, hbi, hmin⟩ := runningMin_range hr
    exact ⟨i, hi, rfl, hwi, hbi, hmin⟩

/-- Without one, `pid` keeps the value it was initialised with. -/
theorem selectLeast_of_not_selectable (h : ¬Selectable s key bound) :
    selectLeast s key bound pid = .context_switch pid := by
  unfold selectLeast
  have : runningMin s.waiting (fun i => key (s.pcbs i)) bound (List.range s.num_processes) = none := by
    refine runningMin_eq_none.mpr fun j hj hw => not_lt.mp fun hb => h ⟨j, List.mem_range.mp hj, hw, hb⟩
  rw [this]

end Least

/-! ## `insanity` -/

theorem insanity_eq_some {draws : List Nat} {c : Call} (hn : 0 < s.num_processes) (h : insanity s draws = some c) :
    ∃ i < s.num_processes, c = .context_switch i ∧ s.waiting i = true := by
  induction draws with
  | nil => cases h
  | cons r draws ih =>
    simp only [insanity] at h
    split at h
    · rename_i hw
      exact ⟨r % s.num_processes, Nat.mod_lt _ hn, (Option.some.inj h).symm, hw⟩
    · exact ih h

/-! ## Every algorithm -/

/-- An algorithm that returns without a call has seen no waiting process. -/
theorem run_ret {algo : Algorithm} {inp : Input} (hn : 0 < s.num_processes) (h : algo.run s inp = some .ret) :
    ∀ j < s.num_processes, s.waiting j = false := by
  cases algo with
  | basic => exact basic_eq_ret.mp (Option.some.inj h)
  | rr => exact rr_eq_ret.mp (Option.some.inj h)
  | sjf => exact absurd (Option.some.inj h) selectLeast_ne_ret
  | priority => exact absurd (Option.some.inj h) selectLeast_ne_ret
  | fifo | psjf | sctf =>
    simp only [Algorithm.run, fifo, psjf, sctf, Option.some.injEq] at h
    split at h
    · cases h
    · exact absurd h selectLeast_ne_ret
  | insanity =>
    obtain ⟨i, _, hc, _⟩ := insanity_eq_some hn h
    cases hc

end Cs326.Scheduler
