import Cs326.Scheduler.Invariant
import Mathlib.Data.List.Nodup

/-!
# `basic`, `rr` and `insanity` conserve work

The three algorithms that only ever switch to a process they have seen waiting: each of their calls is sound in every
table (`soundCalls_of_safe`), so their runs keep the invariant.
-/

namespace Cs326.Scheduler

variable {algo : Algorithm} {specs : List ProcessSpec} {tr : List Event} {m : Machine}

/-- The algorithms whose calls are sound whatever the table. -/
def Algorithm.Safe (algo : Algorithm) : Prop := algo = .basic ∨ algo = .rr ∨ algo = .insanity

theorem sound_of_safe (h : algo.Safe) (inp : Input) {s : SchedulerState} (hn : 0 < s.num_processes) :
    Sound algo inp s := by
  intro pid hrun
  rcases h with rfl | rfl | rfl
  · obtain ⟨i, hi, rfl, hw⟩ := basic_eq_switch (Option.some.inj hrun)
    exact ⟨i, hi, rfl, waiting_iff.mp hw⟩
  · obtain ⟨i, hi, rfl, hw, _⟩ := rr_eq_switch (Option.some.inj hrun)
    exact ⟨i, hi, rfl, waiting_iff.mp hw⟩
  · obtain ⟨i, hi, hc, hw⟩ := insanity_eq_some hn hrun
    exact ⟨i, hi, Call.context_switch.inj hc, waiting_iff.mp hw⟩

theorem Reaches.soundCalls (h : Reaches algo specs tr m) (ha : algo.Safe) (hne : specs ≠ []) : SoundCalls algo tr := by
  intro c hc
  refine sound_of_safe ha c.1 ?_
  obtain ⟨_, m', hr, hc⟩ := h.of_call hc
  rw [hc, atCall_num_processes, hr.num_processes]
  exact List.length_pos_iff.mpr hne

/-- No process arrives twice. -/
theorem Inv.arrived_nodup (h : Inv specs tr m) : (arrived tr).Nodup := by
  rw [List.nodup_iff_count_le_one]
  intro i
  rw [h.once i]
  split <;> omega

theorem TableInv.workload {k b : Nat} {s : SchedulerState} (h : TableInv specs k b s) {i : Nat}
    (hi : i < specs.length) : (s.pcbs i).workload = (specs[i]).workload.toNat := by
  rw [h.load_workload]
  simp [load, List.getElem?_eq_getElem hi]

/-- **Work conservation.** At most the current process is running; after `handle_arrivals` exactly the processes of a
later quantum are `CREATED`, and none arrives twice; no process does more than its work, and it has done all of it when
it terminates; a terminated process stays terminated; behind the loop of `main` every process has done its work. -/
theorem work_conservation (ha : algo = .basic ∨ algo = .rr ∨ algo = .insanity) (hne : specs ≠ [])
    (h : Reaches algo specs tr m) (hq : quanta tr < 2 ^ 32) :
    (∀ i < specs.length, (m.sstate.pcbs i).state = .RUNNING → i = m.sstate.current_process) ∧
    (∀ c ∈ calls tr, ∀ i < specs.length,
      (c.2.pcbs i).state = .CREATED ↔ c.2.current_quantum < (c.2.pcbs i).creation_quantum) ∧
    (arrived tr).Nodup ∧
    (∀ i < specs.length, (m.sstate.pcbs i).executed_work ≤ (m.sstate.pcbs i).workload ∧
      ((m.sstate.pcbs i).state = .TERMINATED → (m.sstate.pcbs i).executed_work = (m.sstate.pcbs i).workload)) ∧
    (∀ tr' m', Run (Step algo) m tr' m' → quanta (tr ++ tr') < 2 ^ 32 → ∀ i < specs.length,
      (m.sstate.pcbs i).state = .TERMINATED → (m'.sstate.pcbs i).state = .TERMINATED) ∧
    (m.control = .finished → ∀ i, (hi : i < specs.length) →
      (m.sstate.pcbs i).executed_work = (specs[i]).workload.toNat) := by
  have hsound := h.soundCalls ha hne
  have hinv := h.inv hne hq hsound
  refine ⟨hinv.single, fun c hc i hi => ?_, hinv.arrived_nodup,
    fun i _ => ⟨hinv.table.work i, hinv.table.done i⟩, fun tr' m' h' hq' i _ hT => ?_, fun hfin i hi => ?_⟩
  · obtain ⟨k, caller, main_ctx, hcall⟩ := h.callInv hne hq hsound c hc
    rw [hcall.table.created i hi, hcall.table.quantum]
    rfl
  · have hreach : Reaches algo specs (tr ++ tr') m' := h.trans h'
    exact hinv.terminated_run h' hq' (hreach.soundCalls ha hne).right hT
  · have hctl := hinv.control
    simp only [ControlInv, hfin] at hctl
    rw [hinv.table.done i (hctl i (hinv.table.num ▸ hi)), hinv.table.workload hi]

/-- A process of one work unit that is interrupted once, when another one arrives: it is dispatched twice, both
terminate, and `main` leaves its loop. -/
theorem work_conservation_two :
    ∃ tr m, Reaches .basic [⟨"A", 0, 1, 0⟩, ⟨"B", 1, 1, 0⟩] tr m ∧ (dispatches tr).map (·.1) = [0, 0, 1] ∧
      m.control = .finished ∧ (m.sstate.pcbs 0).executed_work = 1 ∧ (m.sstate.pcbs 1).executed_work = 1 := by
  let inps := ⟨false, [], 0⟩ :: ⟨false, [], 0⟩ :: ⟨true, [], 0⟩ :: List.replicate 85 (⟨false, [], 0⟩ : Input)
  let check : List Event × Machine → Bool := fun r => decide ((dispatches r.1).map (·.1) = [0, 0, 1]) &&
    decide (r.2.control = .finished) && decide (quanta r.1 < 2 ^ 32)
  have hcheck : ((exec .basic inps (Machine.init [⟨"A", 0, 1, 0⟩, ⟨"B", 1, 1, 0⟩])).any check) = true := by
    decide +kernel
  obtain ⟨⟨tr, m⟩, hexec, hr⟩ := (Option.any_eq_true _ _).mp hcheck
  simp only [check, Bool.and_eq_true, decide_eq_true_eq] at hr
  obtain ⟨⟨hmap, hfin⟩, hq⟩ := hr
  have hreach : Reaches .basic [⟨"A", 0, 1, 0⟩, ⟨"B", 1, 1, 0⟩] tr m := run_of_exec hexec
  have hwork := (work_conservation (.inl rfl) (by simp) hreach hq).2.2.2.2.2 hfin
  exact ⟨tr, m, hreach, hmap, hfin, hwork 0 (by decide), hwork 1 (by decide)⟩

end Cs326.Scheduler
