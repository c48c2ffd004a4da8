import Cs326.Scheduler.Invariant
import Mathlib.Algebra.BigOperators.Group.Finset.Piecewise

/-!
# How many steps are left

A unit of work is one test of the loop of `process()` and twenty check points, at each of which the machine stands once
before the test of `g_interrupt` and once behind it. So where a context leads back into `process()` tells how many steps
the process still takes, whoever executes in between (`Machine.stepsOf`). An interrupt takes the step that the check
point takes anyway, and `main` takes two for each process, the call and the look at the table behind the termination.
So every step but a call that finds nobody waiting brings the machine one step nearer to its end (`Inv.stepsLeft`).
-/

namespace Cs326.Scheduler

variable {algo : Algorithm} {specs : List ProcessSpec} {tr ev : List Event} {m m' : Machine} {s : SchedulerState}
  {inp : Input} {caller : Context}

/-- The units of work that are left. -/
def ProcessCtlBlock.unitsLeft (p : ProcessCtlBlock) : Nat := p.workload - p.executed_work

/-- The steps of `process()` from where the context leads. -/
def Context.stepsLeft (units : Nat) : Context → Nat
  | .checkPoint _ i => 41 * units - 2 * i - 1
  | _ => 41 * units + 1

/-- The steps of `process()` from this place on. -/
def Control.stepsLeft (units : Nat) : Control → Nat
  | .checkPoint _ i => 41 * units - 2 * i
  | .afterCheck _ i => 41 * units - 2 * i - 1
  | _ => 41 * units + 1

/-- The steps of a process, and the two of `main`. -/
def Machine.stepsOf (m : Machine) (i : Nat) : Nat :=
  match (m.sstate.pcbs i).state with
  | .CREATED => 41 * (m.sstate.pcbs i).unitsLeft + 3
  | .WAITING => (m.sstate.pcbs i).context.stepsLeft (m.sstate.pcbs i).unitsLeft + 2
  | .RUNNING => m.control.stepsLeft (m.sstate.pcbs i).unitsLeft + 2
  | .TERMINATED => 0

/-- Which of its two steps `main` has taken; behind its loop one is counted that is not taken. -/
def Control.ofMain : Control → Nat
  | .mainLoop => 1
  | .mainCheck => 2
  | .finished => 1
  | _ => 0

def Machine.stepsLeft (m : Machine) : Nat :=
  ∑ i ∈ Finset.range m.sstate.num_processes, m.stepsOf i + m.control.ofMain

/-! ## The steps of one process -/

theorem stepsOf_created {i : Nat} (h : (m.sstate.pcbs i).state = .CREATED) :
    m.stepsOf i = 41 * (m.sstate.pcbs i).unitsLeft + 3 := by
  unfold Machine.stepsOf
  rw [h]

theorem stepsOf_waiting {i : Nat} (h : (m.sstate.pcbs i).state = .WAITING) :
    m.stepsOf i = (m.sstate.pcbs i).context.stepsLeft (m.sstate.pcbs i).unitsLeft + 2 := by
  unfold Machine.stepsOf
  rw [h]

theorem stepsOf_running {i : Nat} (h : (m.sstate.pcbs i).state = .RUNNING) :
    m.stepsOf i = m.control.stepsLeft (m.sstate.pcbs i).unitsLeft + 2 := by
  unfold Machine.stepsOf
  rw [h]

theorem stepsOf_terminated {i : Nat} (h : (m.sstate.pcbs i).state = .TERMINATED) : m.stepsOf i = 0 := by
  unfold Machine.stepsOf
  rw [h]

/-- Where the process does not run, the place in the program does not count. -/
theorem stepsOf_congr {i : Nat} (hrun : (m.sstate.pcbs i).state ≠ .RUNNING)
    (hpcb : m'.sstate.pcbs i = m.sstate.pcbs i) : m'.stepsOf i = m.stepsOf i := by
  unfold Machine.stepsOf
  rw [hpcb]
  cases hst : (m.sstate.pcbs i).state with
  | RUNNING => exact absurd hst hrun
  | CREATED | WAITING | TERMINATED => rfl

/-- A context that leads back into `process()` is resumed where it says. -/
theorem Resumable.stepsLeft {i : Nat} {ctx : Context} (h : Resumable s i ctx) (units pid : Nat) :
    (ctx.resume pid).stepsLeft units = ctx.stepsLeft units := by
  rcases h with rfl | ⟨t, _, rfl, _⟩
  · rfl
  · rfl

/-- **One process takes a step**, or `main` takes one for it, and the others are left where they are. -/
theorem stepsLeft_of_one {pid : Nat} (hn : m'.sstate.num_processes = m.sstate.num_processes)
    (hpid : pid < m.sstate.num_processes)
    (hothers : ∀ i < m.sstate.num_processes, i ≠ pid → m'.stepsOf i = m.stepsOf i)
    (hone : m.stepsOf pid + m.control.ofMain = m'.stepsOf pid + m'.control.ofMain + 1) :
    m.stepsLeft = m'.stepsLeft + 1 := by
  have hmem : pid ∈ Finset.range m.sstate.num_processes := Finset.mem_range.mpr hpid
  have hrest : ∑ i ∈ (Finset.range m.sstate.num_processes).erase pid, m'.stepsOf i =
      ∑ i ∈ (Finset.range m.sstate.num_processes).erase pid, m.stepsOf i := by
    refine Finset.sum_congr rfl fun i hi => ?_
    obtain ⟨hne, hi⟩ := Finset.mem_erase.mp hi
    exact hothers i (Finset.mem_range.mp hi) hne
  unfold Machine.stepsLeft
  rw [hn, ← Finset.add_sum_erase _ _ hmem, ← Finset.add_sum_erase _ m'.stepsOf hmem, hrest]
  omega

/-! ## The steps of the machine -/

/-- **Between the interrupts** each step counts. -/
theorem Inv.stepsLeft_quiet (h : Inv specs tr m) (hq : Quiet m ev m') : m.stepsLeft = m'.stepsLeft + 1 := by
  have hctl := h.control
  have hpos : 0 < m.sstate.num_processes := h.table.num ▸ Nat.lt_of_le_of_lt (Nat.zero_le _) h.table.current
  -- whoever is not executing does not run
  have hexec : ∀ pid, Executing m.sstate m.main_ctx pid → pid < m.sstate.num_processes ∧
      ∀ i < m.sstate.num_processes, i ≠ pid → (m.sstate.pcbs i).state ≠ .RUNNING := by
    intro pid he
    refine ⟨he.current ▸ h.table.num ▸ h.table.current, fun i hi hne hrun => hne ?_⟩
    rw [h.single i (h.table.num ▸ hi) hrun, he.current]
  cases hq with
  | @loop s c hall =>
    have hmain : InMain s := hctl
    refine stepsLeft_of_one rfl hpos (fun i hi _ => stepsOf_congr (hmain.idle i hi) rfl) ?_
    have hstay : (Machine.mk s c .mainLoop).stepsOf 0 = (Machine.mk s c .mainCheck).stepsOf 0 :=
      stepsOf_congr (hmain.idle 0 hpos) rfl
    rw [hstay]
    rfl
  | @finish s c hsome hall =>
    have hmain : InMain s := hctl
    refine stepsLeft_of_one rfl hpos (fun i hi _ => stepsOf_congr (hmain.idle i hi) rfl) ?_
    have hstay : (Machine.mk s c .finished).stepsOf 0 = (Machine.mk s c .mainCheck).stepsOf 0 :=
      stepsOf_congr (hmain.idle 0 hpos) rfl
    rw [hstay]
    rfl
  | @work s c pid hlt =>
    obtain ⟨hpid, hidle⟩ := hexec pid hctl
    have hrun := hctl.running
    refine stepsLeft_of_one rfl hpid (fun i hi hne => stepsOf_congr (hidle i hi hne) rfl) ?_
    rw [stepsOf_running hrun, stepsOf_running (m := ⟨s, c, .checkPoint pid 0⟩) hrun]
    rfl
  | @terminate s c pid hge =>
    obtain ⟨hpid, hidle⟩ := hexec pid hctl
    have hrun := hctl.running
    obtain rfl : c = .mainLoop := hctl.main
    refine stepsLeft_of_one rfl hpid (fun i hi hne => stepsOf_congr (hidle i hi hne) ?_) ?_
    · exact (setPcb_pcbs ..).trans (if_neg hne)
    · rw [stepsOf_running hrun, stepsOf_terminated (by simp)]
      have hunits : (s.pcbs pid).unitsLeft = 0 := by
        unfold ProcessCtlBlock.unitsLeft
        omega
      rw [hunits]
      rfl
  | @pass s c pid i =>
    obtain ⟨he, hi, hlt⟩ := hctl
    obtain ⟨hpid, hidle⟩ := hexec pid he
    have hrun := he.running
    refine stepsLeft_of_one rfl hpid (fun i hi hne => stepsOf_congr (hidle i hi hne) rfl) ?_
    rw [stepsOf_running hrun, stepsOf_running (m := ⟨s, c, .afterCheck pid i⟩) hrun]
    have hleft : (s.pcbs pid).executed_work < (s.pcbs pid).workload := hlt
    simp only [Control.stepsLeft, Control.ofMain, ProcessCtlBlock.unitsLeft]
    omega
  | @next s c pid i hnext =>
    obtain ⟨he, hi, hlt⟩ := hctl
    obtain ⟨hpid, hidle⟩ := hexec pid he
    have hrun := he.running
    refine stepsLeft_of_one rfl hpid (fun i hi hne => stepsOf_congr (hidle i hi hne) rfl) ?_
    rw [stepsOf_running hrun, stepsOf_running (m := ⟨s, c, .checkPoint pid (i + 1)⟩) hrun]
    have hleft : (s.pcbs pid).executed_work < (s.pcbs pid).workload := hlt
    simp only [Control.stepsLeft, Control.ofMain, ProcessCtlBlock.unitsLeft]
    omega
  | @unit s c pid i hlast =>
    obtain ⟨he, hi, hlt⟩ := hctl
    obtain ⟨hpid, hidle⟩ := hexec pid he
    have hrun := he.running
    refine stepsLeft_of_one rfl hpid (fun i hi hne => stepsOf_congr (hidle i hi hne) ?_) ?_
    · exact (setPcb_pcbs ..).trans (if_neg hne)
    · rw [stepsOf_running hrun, stepsOf_running (by simpa using hrun)]
      have hwork : ((s.incWork pid).pcbs pid).workload = (s.pcbs pid).workload := erase_workload (incWork_erase ..)
      have hleft : (s.pcbs pid).executed_work < (s.pcbs pid).workload := hlt
      simp only [Control.stepsLeft, Control.ofMain, ProcessCtlBlock.unitsLeft, hwork, incWork_executed_work, if_true]
      omega

/-- What an interrupt leaves to a process that it does not interrupt: one that arrives has all of its steps to take. -/
theorem Inv.stepsOf_atCall (h : Inv specs tr m) (control : Control) {i : Nat}
    (hrun : (m.sstate.pcbs i).state ≠ .RUNNING) :
    (Machine.mk (atCall m.sstate) m.main_ctx control).stepsOf i = m.stepsOf i := by
  by_cases ha : arrives m.sstate i
  · have hcreated := h.table.created_of_arrives ha
    rw [stepsOf_created hcreated, stepsOf_waiting (by rw [atCall_state, if_pos (.inl ha)])]
    dsimp only
    rw [atCall_context, if_pos ha, ProcessCtlBlock.unitsLeft, atCall_workload, atCall_executed_work]
    rfl
  · have hpcb : (atCall m.sstate).pcbs i = m.sstate.pcbs i := by
      rw [atCall_pcbs, if_neg ha, preempt_pcbs, if_neg fun hc => hrun hc.2]
    exact stepsOf_congr hrun hpcb

/-- A process that a switch does not touch. -/
theorem Switched.stepsOf_eq {new i : Nat} (hs : Switched s new m'.sstate) (hne : i ≠ new)
    (hctx : (m'.sstate.pcbs i).context = (s.pcbs i).context) (hrun : (s.pcbs i).state ≠ .RUNNING) (c : Context)
    (control : Control) : m'.stepsOf i = (Machine.mk s c control).stepsOf i := by
  have hst : (m'.sstate.pcbs i).state = (s.pcbs i).state := by rw [hs.state, if_neg hne]
  have hunits : (m'.sstate.pcbs i).unitsLeft = (s.pcbs i).unitsLeft := by
    rw [ProcessCtlBlock.unitsLeft, hs.work, erase_workload (hs.erase i)]
    rfl
  unfold Machine.stepsOf
  rw [hst, hctx, hunits]
  dsimp only
  cases hst' : (s.pcbs i).state with
  | RUNNING => exact absurd hst' hrun
  | CREATED | WAITING | TERMINATED => rfl

/-- The process that a switch resumes. -/
theorem Switched.stepsOf_new {new : Nat} {ctx : Context} (hs : Switched s new m'.sstate)
    (hctl : m'.control = ctx.resume new) (hres : Resumable s new ctx) :
    m'.stepsOf new = ctx.stepsLeft (s.pcbs new).unitsLeft + 2 := by
  have hunits : (m'.sstate.pcbs new).unitsLeft = (s.pcbs new).unitsLeft := by
    rw [ProcessCtlBlock.unitsLeft, hs.work, erase_workload (hs.erase new)]
    rfl
  rw [stepsOf_running (by rw [hs.state, if_pos rfl]), hctl, hunits, hres.stepsLeft]

theorem Resumable.ofMain {i : Nat} {ctx : Context} (h : Resumable s i ctx) (pid : Nat) :
    (ctx.resume pid).ofMain = 0 := by
  rcases h with rfl | ⟨t, _, rfl, _⟩
  · rfl
  · rfl

section Dispatch

variable {new : Nat}

/-- `main` starts or resumes a process. -/
theorem Inv.stepsLeft_main (h : Inv specs tr m) (hm : m.control = .mainLoop) (hnew : new < m.sstate.num_processes)
    (hw : ((atCall m.sstate).pcbs new).state = .WAITING)
    (hsw : context_switch new .mainLoop ⟨atCall m.sstate, m.main_ctx, m.control⟩ =
      (m', [.dispatch new (atCall m.sstate)])) : m.stepsLeft = m'.stepsLeft + 1 := by
  have hcall : CallInv specs (quanta tr) .mainLoop m.main_ctx (atCall m.sstate) := h.toCall (hm ▸ .main)
  have hn : m.sstate.num_processes = specs.length := h.table.num
  obtain ⟨m'', he, hs, hcases⟩ := context_switch_valid (m := ⟨atCall m.sstate, m.main_ctx, m.control⟩) .mainLoop
    (show new < (atCall m.sstate).num_processes by simpa using hnew)
  obtain rfl : m' = m'' := congrArg Prod.fst (hsw.symm.trans he)
  have horigin := hcall.origin.resolve_right fun ⟨_, _, hcaller, _⟩ => by cases hcaller
  have hres : Resumable (atCall m.sstate) new ((atCall m.sstate).pcbs new).context :=
    (hcall.saved new (hn ▸ hnew) hw).resolve_right fun hr => not_resumable_mainLoop hr.2
  -- there is no process to go back to, so the new one is resumed from its own context
  obtain ⟨hctl, hctx⟩ : m'.control = ((atCall m.sstate).pcbs new).context.resume new ∧
      ∀ i, (m'.sstate.pcbs i).context = ((atCall m.sstate).pcbs i).context := by
    rcases hcases with ⟨hsame, hpos, -⟩ | ⟨-, hctl, -, hctx⟩ | ⟨hno, -⟩
    · rcases horigin.2 with h0 | hT
      · exact absurd h0 (Nat.ne_of_gt hpos)
      · rw [← show new = (atCall m.sstate).current_process from hsame, hw] at hT
        cases hT
    · exact ⟨hctl, hctx⟩
    · exact absurd horigin.2 hno
  have hmain : InMain m.sstate := by
    have hinv := h.control
    unfold ControlInv at hinv
    rwa [hm] at hinv
  refine stepsLeft_of_one (hs.num.trans (atCall_num_processes _)) hnew (fun i hi hne => ?_) ?_
  · rw [hs.stepsOf_eq hne (hctx i) (hcall.idle i (hn ▸ hi)) m.main_ctx m.control]
    exact h.stepsOf_atCall m.control (hmain.idle i hi)
  · rw [hs.stepsOf_new hctl hres, ← h.stepsOf_atCall m.control (hmain.idle new hnew), stepsOf_waiting hw, hctl,
      hres.ofMain, hm]
    rfl

/-- A process is interrupted. -/
theorem Inv.stepsLeft_interrupt (h : Inv specs tr m) {pid t : Nat} (hm : m.control = .checkPoint pid t)
    (hnew : new < m.sstate.num_processes) (hw : ((atCall m.sstate).pcbs new).state = .WAITING)
    (hsw : context_switch new (.checkPoint pid t) ⟨atCall m.sstate, m.main_ctx, m.control⟩ =
      (m', [.dispatch new (atCall m.sstate)])) : m.stepsLeft = m'.stepsLeft + 1 := by
  have hcall : CallInv specs (quanta tr) (.checkPoint pid t) m.main_ctx (atCall m.sstate) :=
    h.toCall (hm ▸ .process pid t)
  have hn : m.sstate.num_processes = specs.length := h.table.num
  obtain ⟨m'', he, hs, hcases⟩ := context_switch_valid (m := ⟨atCall m.sstate, m.main_ctx, m.control⟩)
    (.checkPoint pid t) (show new < (atCall m.sstate).num_processes by simpa using hnew)
  obtain rfl : m' = m'' := congrArg Prod.fst (hsw.symm.trans he)
  obtain ⟨hexec, ht, hleft⟩ : Executing m.sstate m.main_ctx pid ∧ t < 20 ∧ Unfinished m.sstate pid := by
    have hinv := h.control
    unfold ControlInv at hinv
    rwa [hm] at hinv
  have hpid : pid < m.sstate.num_processes := hexec.current ▸ hn ▸ h.table.current
  have hidle : ∀ i < m.sstate.num_processes, i ≠ pid → (m.sstate.pcbs i).state ≠ .RUNNING := by
    intro i hi hne hrun
    exact hne ((h.single i (hn ▸ hi) hrun).trans hexec.current.symm)
  have hcaller : Resumable (atCall m.sstate) pid (.checkPoint pid t) := .inr ⟨t, ht, rfl, unfinished_atCall.mpr hleft⟩
  have hunits : ((atCall m.sstate).pcbs pid).unitsLeft = (m.sstate.pcbs pid).unitsLeft := by
    rw [ProcessCtlBlock.unitsLeft, atCall_workload, atCall_executed_work]
    rfl
  -- one step less for the interrupted process
  have hone : m.stepsOf pid = (Context.checkPoint pid t).stepsLeft (m.sstate.pcbs pid).unitsLeft + 2 + 1 := by
    have hwork : (m.sstate.pcbs pid).executed_work < (m.sstate.pcbs pid).workload := hleft
    rw [stepsOf_running hexec.running, hm]
    simp only [Control.stepsLeft, Context.stepsLeft, ProcessCtlBlock.unitsLeft]
    omega
  have hothers : ∀ i < m.sstate.num_processes, i ≠ pid → i ≠ new →
      (m'.sstate.pcbs i).context = ((atCall m.sstate).pcbs i).context → m'.stepsOf i = m.stepsOf i := by
    intro i hi hne hne' hctx
    rw [hs.stepsOf_eq hne' hctx (hcall.idle i (hn ▸ hi)) m.main_ctx m.control]
    exact h.stepsOf_atCall m.control (hidle i hi hne)
  have hcur : (atCall m.sstate).current_process = pid := (atCall_current_process _).trans hexec.current.symm
  have hwait : ((atCall m.sstate).pcbs pid).state = .WAITING := by
    rw [atCall_state, if_pos (.inr ⟨hexec.current, hexec.running⟩)]
  rcases hcases with ⟨hsame, -, hctl, -, hctx⟩ | ⟨h0, -⟩ | ⟨-, hne, hctl, -, hctx⟩
  · -- the interrupted process goes on
    obtain rfl : new = pid := hsame.trans hcur
    refine stepsLeft_of_one (hs.num.trans (atCall_num_processes _)) hpid
      (fun i hi hne => hothers i hi hne hne (hctx i)) ?_
    rw [hone, hs.stepsOf_new hctl hcaller, hunits, hctl, hcaller.ofMain, hm]
    rfl
  · rcases h0 with h0 | hT
    · rw [atCall_current_quantum] at h0
      exact absurd h0 (Nat.ne_of_gt hexec.pos)
    · rw [hcur, hwait] at hT
      cases hT
  · -- it waits where it is, and another one goes on
    replace hne : new ≠ pid := fun h => hne (h.trans hcur.symm)
    have hres : Resumable (atCall m.sstate) new ((atCall m.sstate).pcbs new).context :=
      (hcall.saved new (hn ▸ hnew) hw).resolve_right fun hr => hne (hr.1.trans hcur)
    refine stepsLeft_of_one (hs.num.trans (atCall_num_processes _)) hpid (fun i hi hip => ?_) ?_
    · by_cases hin : i = new
      · rw [hin, hs.stepsOf_new hctl hres, ← h.stepsOf_atCall m.control (hidle new hnew hne), stepsOf_waiting hw]
      · refine hothers i hi hip hin ?_
        rw [hctx i]
        exact if_neg fun h => hip (h.trans hcur)
    · have hsaved : (m'.sstate.pcbs pid).context = .checkPoint pid t := (hctx pid).trans (if_pos hcur.symm)
      have hstay : (m'.sstate.pcbs pid).state = .WAITING := by rw [hs.state, if_neg (Ne.symm hne), hwait]
      have hunits' : (m'.sstate.pcbs pid).unitsLeft = (m.sstate.pcbs pid).unitsLeft := by
        rw [ProcessCtlBlock.unitsLeft, hs.work, erase_workload (hs.erase pid)]
        exact hunits
      rw [hone, stepsOf_waiting hstay, hsaved, hunits', hctl, hres.ofMain, hm]
      rfl

/-- **An interrupt that switches** counts. -/
theorem Inv.stepsLeft_dispatch (h : Inv specs tr m) (hc : Calls m.control caller)
    (hnew : new < m.sstate.num_processes) (hw : ((atCall m.sstate).pcbs new).state = .WAITING)
    (hsw : context_switch new caller ⟨atCall m.sstate, m.main_ctx, m.control⟩ =
      (m', [.dispatch new (atCall m.sstate)])) : m.stepsLeft = m'.stepsLeft + 1 := by
  cases hm : m.control <;> rw [hm] at hc <;> cases hc
  · exact h.stepsLeft_main hm hnew hw hsw
  · exact h.stepsLeft_interrupt hm hnew hw hsw

end Dispatch

end Cs326.Scheduler
