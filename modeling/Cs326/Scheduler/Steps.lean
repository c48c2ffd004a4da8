import Cs326.Scheduler.Algorithms
import Cs326.Scheduler.Machine

/-!
# What a step of the machine does

Every later proof about runs reads the machine through this file. `step_cases` lists the steps: an interrupt, which is
`interrupt_handler` (`handler_cases`), or a piece of a process or of `main` that keeps the current process and the
quantum. `atCall s` is the table the scheduling algorithm is called with, and `context_switch_valid` what the switch to
an index of the table does to it.
-/

namespace Cs326.Scheduler

/-! ## Traces -/

section Traces

variable (a b : List Event) (l : List Nat)

@[simp] theorem calls_append : calls (a ++ b) = calls a ++ calls b := List.filterMap_append
@[simp] theorem dispatches_append : dispatches (a ++ b) = dispatches a ++ dispatches b := List.filterMap_append
@[simp] theorem arrived_append : arrived (a ++ b) = arrived a ++ arrived b := List.filterMap_append
@[simp] theorem terminated_append : terminated (a ++ b) = terminated a ++ terminated b := List.filterMap_append
@[simp] theorem quanta_append : quanta (a ++ b) = quanta a + quanta b := by simp [quanta]

@[simp] theorem calls_arrivals : calls (l.map Event.arrival) = [] := by simp [calls]
@[simp] theorem dispatches_arrivals : dispatches (l.map Event.arrival) = [] := by simp [dispatches]
@[simp] theorem terminated_arrivals : terminated (l.map Event.arrival) = [] := by simp [terminated]
@[simp] theorem arrived_arrivals : arrived (l.map Event.arrival) = l := by simp [arrived]

@[simp] theorem quanta_nil : quanta [] = 0 := rfl

/-- The trace of a prefix of a run has no more quanta. -/
theorem quanta_lt_of_append {k : Nat} (h : quanta (a ++ b) < k) : quanta a < k := by
  rw [quanta_append] at h; omega

end Traces

/-! ## The table -/

/-- What `read_spec` stored in the block and nothing ever changes. -/
def ProcessCtlBlock.erase (p : ProcessCtlBlock) : ProcessCtlBlock :=
  { p with state := .CREATED, context := .zeroed, executed_work := 0 }

section Table

variable (s : SchedulerState) (i j : Nat)

theorem erase_load (specs : List ProcessSpec) : ((load specs).pcbs i).erase = (load specs).pcbs i := by
  unfold load; dsimp only; split <;> rfl

theorem setPcb_pcbs (p : ProcessCtlBlock) : (s.setPcb i p).pcbs j = if j = i then p else s.pcbs j := by
  simp only [SchedulerState.setPcb, Function.update_apply]

section Fields

variable (st : ProcessState) (ctx : Context)

@[simp] theorem setState_state :
    ((s.setState i st).pcbs j).state = if j = i then st else (s.pcbs j).state := by
  rw [SchedulerState.setState, setPcb_pcbs]; split <;> rfl

@[simp] theorem setState_context : ((s.setState i st).pcbs j).context = (s.pcbs j).context := by
  rw [SchedulerState.setState, setPcb_pcbs]; split <;> simp_all

@[simp] theorem setState_executed_work : ((s.setState i st).pcbs j).executed_work = (s.pcbs j).executed_work := by
  rw [SchedulerState.setState, setPcb_pcbs]; split <;> simp_all

@[simp] theorem setState_erase : ((s.setState i st).pcbs j).erase = (s.pcbs j).erase := by
  rw [SchedulerState.setState, setPcb_pcbs]; split <;> simp_all [ProcessCtlBlock.erase]

@[simp] theorem setContext_state : ((s.setContext i ctx).pcbs j).state = (s.pcbs j).state := by
  rw [SchedulerState.setContext, setPcb_pcbs]; split <;> simp_all

@[simp] theorem setContext_context :
    ((s.setContext i ctx).pcbs j).context = if j = i then ctx else (s.pcbs j).context := by
  rw [SchedulerState.setContext, setPcb_pcbs]; split <;> rfl

@[simp] theorem setContext_executed_work :
    ((s.setContext i ctx).pcbs j).executed_work = (s.pcbs j).executed_work := by
  rw [SchedulerState.setContext, setPcb_pcbs]; split <;> simp_all

@[simp] theorem setContext_erase : ((s.setContext i ctx).pcbs j).erase = (s.pcbs j).erase := by
  rw [SchedulerState.setContext, setPcb_pcbs]; split <;> simp_all [ProcessCtlBlock.erase]

@[simp] theorem incWork_state : ((s.incWork i).pcbs j).state = (s.pcbs j).state := by
  rw [SchedulerState.incWork, setPcb_pcbs]; split <;> simp_all

@[simp] theorem incWork_context : ((s.incWork i).pcbs j).context = (s.pcbs j).context := by
  rw [SchedulerState.incWork, setPcb_pcbs]; split <;> simp_all

@[simp] theorem incWork_executed_work : ((s.incWork i).pcbs j).executed_work =
    if j = i then (s.pcbs i).executed_work + 1 else (s.pcbs j).executed_work := by
  rw [SchedulerState.incWork, setPcb_pcbs]; split <;> rfl

@[simp] theorem incWork_erase : ((s.incWork i).pcbs j).erase = (s.pcbs j).erase := by
  rw [SchedulerState.incWork, setPcb_pcbs]; split <;> simp_all [ProcessCtlBlock.erase]

@[simp] theorem tick_pcbs : s.tick.pcbs = s.pcbs := rfl

end Fields

/-- The table `g_scheduling_algo` is called with. -/
def atCall : SchedulerState := handle_arrivals (preempt s)

@[simp] theorem atCall_num_processes : (atCall s).num_processes = s.num_processes := by
  simp only [atCall, handle_arrivals, preempt]; split <;> rfl

@[simp] theorem atCall_current_quantum : (atCall s).current_quantum = s.current_quantum := by
  simp only [atCall, handle_arrivals, preempt]; split <;> rfl

@[simp] theorem atCall_current_process : (atCall s).current_process = s.current_process := by
  simp only [atCall, handle_arrivals, preempt]; split <;> rfl

theorem preempt_pcbs : (preempt s).pcbs i =
    if i = s.current_process ∧ (s.pcbs i).state = .RUNNING then { s.pcbs i with state := .WAITING } else s.pcbs i := by
  unfold preempt SchedulerState.current_pcb
  by_cases hi : i = s.current_process
  · subst hi; split <;> simp [SchedulerState.setState, setPcb_pcbs, *]
  · split <;> simp [SchedulerState.setState, setPcb_pcbs, hi]

@[simp] theorem preempt_num_processes : (preempt s).num_processes = s.num_processes := by
  unfold preempt; split <;> rfl

@[simp] theorem preempt_current_quantum : (preempt s).current_quantum = s.current_quantum := by
  unfold preempt; split <;> rfl

theorem preempt_creation_quantum : ((preempt s).pcbs i).creation_quantum = (s.pcbs i).creation_quantum := by
  rw [preempt_pcbs]; split <;> rfl

/-- The process arrives in this interrupt. -/
def arrives : Prop := i < s.num_processes ∧ (s.pcbs i).creation_quantum = s.current_quantum

instance : Decidable (arrives s i) := inferInstanceAs (Decidable (_ ∧ _))

theorem atCall_pcbs : (atCall s).pcbs i =
    if arrives s i then { (preempt s).pcbs i with state := .WAITING, context := .entry } else (preempt s).pcbs i := by
  simp only [atCall, handle_arrivals, preempt_num_processes, preempt_current_quantum, preempt_creation_quantum, arrives]

theorem mem_arrivals : i ∈ arrivals (preempt s) ↔ arrives s i := by
  simp [arrivals, arrives, preempt_creation_quantum]

@[simp] theorem atCall_erase : ((atCall s).pcbs i).erase = (s.pcbs i).erase := by
  rw [atCall_pcbs, preempt_pcbs]; split <;> split <;> rfl

@[simp] theorem atCall_executed_work : ((atCall s).pcbs i).executed_work = (s.pcbs i).executed_work := by
  rw [atCall_pcbs, preempt_pcbs]; split <;> split <;> rfl

theorem atCall_state : ((atCall s).pcbs i).state =
    if arrives s i ∨ i = s.current_process ∧ (s.pcbs i).state = .RUNNING then .WAITING else (s.pcbs i).state := by
  rw [atCall_pcbs, preempt_pcbs]
  by_cases ha : arrives s i
  · simp [ha]
  · simp only [ha, if_false, false_or]; split <;> rfl

theorem atCall_context : ((atCall s).pcbs i).context = if arrives s i then .entry else (s.pcbs i).context := by
  rw [atCall_pcbs, preempt_pcbs]
  split
  · rfl
  · split <;> rfl

end Table

/-- What no step changes in the table. -/
theorem erase_creation_quantum {p q : ProcessCtlBlock} (h : p.erase = q.erase) :
    p.creation_quantum = q.creation_quantum := by
  simpa [ProcessCtlBlock.erase] using congrArg ProcessCtlBlock.creation_quantum h

theorem erase_workload {p q : ProcessCtlBlock} (h : p.erase = q.erase) : p.workload = q.workload := by
  simpa [ProcessCtlBlock.erase] using congrArg ProcessCtlBlock.workload h

/-! ## The switch -/

/-- The table after the switch from `s` to `new`, up to the saved contexts. -/
structure Switched (s : SchedulerState) (new : Nat) (s' : SchedulerState) : Prop where
  num : s'.num_processes = s.num_processes
  quantum : s'.current_quantum = (s.current_quantum + 1) % 2 ^ 32
  current : s'.current_process = new
  state : ∀ i, (s'.pcbs i).state = if i = new then .RUNNING else (s.pcbs i).state
  erase : ∀ i, (s'.pcbs i).erase = (s.pcbs i).erase
  work : ∀ i, (s'.pcbs i).executed_work = (s.pcbs i).executed_work

/-- A switch to an index of the table: the fast return to the caller, the switch whose caller is saved for `main`, and
the one whose caller is saved in the old process. -/
theorem context_switch_valid {m : Machine} {new : Nat} (caller : Context) (hn : new < m.sstate.num_processes) :
    ∃ m', context_switch new caller m = (m', [.dispatch new m.sstate]) ∧ Switched m.sstate new m'.sstate ∧
      ((new = m.sstate.current_process ∧ 0 < m.sstate.current_quantum ∧ m'.control = caller.resume new ∧
          m'.main_ctx = m.main_ctx ∧ ∀ i, (m'.sstate.pcbs i).context = (m.sstate.pcbs i).context) ∨
        ((m.sstate.current_quantum = 0 ∨ (m.sstate.pcbs m.sstate.current_process).state = .TERMINATED) ∧
          m'.control = ((m.sstate.pcbs new).context).resume new ∧ m'.main_ctx = caller ∧
          ∀ i, (m'.sstate.pcbs i).context = (m.sstate.pcbs i).context) ∨
        (¬(m.sstate.current_quantum = 0 ∨ (m.sstate.pcbs m.sstate.current_process).state = .TERMINATED) ∧
          new ≠ m.sstate.current_process ∧ m'.control = ((m.sstate.pcbs new).context).resume new ∧
          m'.main_ctx = m.main_ctx ∧ ∀ i, (m'.sstate.pcbs i).context =
            if i = m.sstate.current_process then caller else (m.sstate.pcbs i).context)) := by
  obtain ⟨s, main_ctx, control⟩ := m
  have hvalid : (0 : Int) ≤ new ∧ (new : Int) < s.num_processes := ⟨by omega, Int.ofNat_lt.mpr hn⟩
  simp only [context_switch, if_pos hvalid, Int.toNat_natCast]
  by_cases hsame : new = s.current_process ∧ 0 < s.current_quantum
  · rw [if_pos hsame]
    exact ⟨_, rfl, ⟨rfl, rfl, hsame.1.symm, by simp, by simp, by simp⟩,
      .inl ⟨hsame.1, hsame.2, by rw [hsame.1], rfl, by simp⟩⟩
  · rw [if_neg hsame]
    by_cases hmain : s.current_quantum = 0 ∨ (s.pcbs s.current_process).state = .TERMINATED
    · rw [if_pos hmain]
      exact ⟨_, rfl, ⟨rfl, rfl, rfl, by simp, by simp, by simp⟩, .inr (.inl ⟨hmain, by simp, rfl, by simp⟩)⟩
    · rw [if_neg hmain]
      have hne : new ≠ s.current_process := fun h => hsame ⟨h, by omega⟩
      exact ⟨_, rfl, ⟨rfl, rfl, rfl, by simp, by simp, by simp⟩, .inr (.inr ⟨hmain, hne, by simp [hne], rfl, by simp⟩)⟩

/-! ## The steps -/

variable {algo : Algorithm} {inp : Input} {m m' : Machine} {ev : List Event}

/-- The events of an interrupt before the switch. -/
def callEvents (inp : Input) (s : SchedulerState) : List Event :=
  (arrivals (preempt s)).map .arrival ++ [.call inp (atCall s)]

section CallEvents

variable (s : SchedulerState)

@[simp] theorem calls_callEvents : calls (callEvents inp s) = [(inp, atCall s)] := by
  simp only [callEvents, calls_append, calls_arrivals]; rfl

@[simp] theorem dispatches_callEvents : dispatches (callEvents inp s) = [] := by
  simp only [callEvents, dispatches_append, dispatches_arrivals]; rfl

@[simp] theorem terminated_callEvents : terminated (callEvents inp s) = [] := by
  simp only [callEvents, terminated_append, terminated_arrivals]; rfl

@[simp] theorem arrived_callEvents : arrived (callEvents inp s) = arrivals (preempt s) := by
  rw [callEvents, arrived_append, arrived_arrivals]; exact List.append_nil _

end CallEvents

/-- An interrupt ends in the algorithm returning or in a switch. -/
theorem handler_cases {caller : Context} (h : interrupt_handler algo inp caller m = some (m', ev)) :
    (algo.run (atCall m.sstate) inp = some .ret ∧ ev = callEvents inp m.sstate ∧
      m' = { m with sstate := atCall m.sstate, control := caller.resume m.sstate.current_process }) ∨
    ∃ pid ev', algo.run (atCall m.sstate) inp = some (.context_switch pid) ∧ ev = callEvents inp m.sstate ++ ev' ∧
      context_switch pid caller { m with sstate := atCall m.sstate } = (m', ev') := by
  unfold interrupt_handler at h
  rcases hr : algo.run (atCall m.sstate) inp with _ | _ | pid <;>
    (dsimp only at h; rw [show algo.run (handle_arrivals (preempt m.sstate)) inp = _ from hr] at h)
  · cases h
  · obtain ⟨rfl, rfl⟩ := Prod.mk.inj (Option.some.inj h)
    exact .inl ⟨rfl, rfl, by rw [← atCall_current_process m.sstate]; rfl⟩
  · obtain ⟨rfl, rfl⟩ := Prod.mk.inj (Option.some.inj h)
    exact .inr ⟨pid, _, rfl, rfl, rfl⟩

/-- The place where `interrupt_handler` is called, and the context it returns to. -/
inductive Calls : Control → Context → Prop
  | main : Calls .mainLoop .mainLoop
  | process (pid i : Nat) : Calls (.checkPoint pid i) (.checkPoint pid i)

/-- The steps that are no interrupt: of `main` and of a process between its check points. -/
inductive Quiet : Machine → List Event → Machine → Prop
  | loop {s c} : ¬(0 < s.num_processes ∧ allTerminated s = true) → Quiet ⟨s, c, .mainCheck⟩ [] ⟨s, c, .mainLoop⟩
  | finish {s c} : 0 < s.num_processes → allTerminated s = true → Quiet ⟨s, c, .mainCheck⟩ [] ⟨s, c, .finished⟩
  | work {s c pid} : (s.pcbs pid).executed_work < (s.pcbs pid).workload →
      Quiet ⟨s, c, .loopTest pid⟩ [] ⟨s, c, .checkPoint pid 0⟩
  | terminate {s c pid} : ¬(s.pcbs pid).executed_work < (s.pcbs pid).workload →
      Quiet ⟨s, c, .loopTest pid⟩ [.termination pid]
        ⟨s.setState pid .TERMINATED, c, c.resume s.current_process⟩
  | pass {s c pid i} : Quiet ⟨s, c, .checkPoint pid i⟩ [] ⟨s, c, .afterCheck pid i⟩
  | next {s c pid i} : i + 1 < 20 → Quiet ⟨s, c, .afterCheck pid i⟩ [] ⟨s, c, .checkPoint pid (i + 1)⟩
  | unit {s c pid i} : ¬i + 1 < 20 → Quiet ⟨s, c, .afterCheck pid i⟩ [] ⟨s.incWork pid, c, .loopTest pid⟩

/-- **The steps of the machine.** -/
theorem step_cases (h : step algo inp m = some (m', ev)) :
    (∃ caller, Calls m.control caller ∧ interrupt_handler algo inp caller m = some (m', ev)) ∨ Quiet m ev m' := by
  obtain ⟨s, c, control⟩ := m
  cases control with
  | mainLoop => exact .inl ⟨_, .main, h⟩
  | mainCheck =>
    simp only [step, Option.some.injEq, Prod.mk.injEq] at h
    obtain ⟨rfl, rfl⟩ := h
    split
    · rename_i hall; exact .inr (.finish hall.1 hall.2)
    · rename_i hall; exact .inr (.loop hall)
  | loopTest pid =>
    simp only [step] at h
    split at h <;> obtain ⟨rfl, rfl⟩ := Prod.mk.inj (Option.some.inj h)
    · exact .inr (.work ‹_›)
    · exact .inr (.terminate ‹_›)
  | checkPoint pid i =>
    simp only [step] at h
    split at h
    · exact .inl ⟨_, .process pid i, h⟩
    · obtain ⟨rfl, rfl⟩ := Prod.mk.inj (Option.some.inj h)
      exact .inr .pass
  | afterCheck pid i =>
    simp only [step] at h
    split at h <;> obtain ⟨rfl, rfl⟩ := Prod.mk.inj (Option.some.inj h)
    · exact .inr (.next ‹_›)
    · exact .inr (.unit ‹_›)
  | finished => cases h
  | undefined => cases h

/-- What a quiet step does to the table: at most one block changes, in its work or to `TERMINATED`. -/
theorem Quiet.table (h : Quiet m ev m') :
    m'.main_ctx = m.main_ctx ∧ m'.sstate.num_processes = m.sstate.num_processes ∧
      m'.sstate.current_quantum = m.sstate.current_quantum ∧
      m'.sstate.current_process = m.sstate.current_process ∧
      (∀ i, (m'.sstate.pcbs i).erase = (m.sstate.pcbs i).erase) ∧
      (∀ i, (m'.sstate.pcbs i).context = (m.sstate.pcbs i).context) ∧
      (∀ i, (m'.sstate.pcbs i).state = if m.control = .loopTest i ∧ ev ≠ [] then .TERMINATED
        else (m.sstate.pcbs i).state) := by
  cases h with
  | terminate =>
    refine ⟨rfl, rfl, rfl, rfl, by simp, by simp, fun i => ?_⟩
    simp only [setState_state, Control.loopTest.injEq, eq_comm]
    split <;> simp_all
  | unit => exact ⟨rfl, rfl, rfl, rfl, by simp, by simp, by simp⟩
  | _ => simp

/-- Whatever the switch does, it calls no algorithm, keeps the length of the table and stays inside it. -/
theorem context_switch_frame (pid : Int) (caller : Context) (m : Machine) :
    calls (context_switch pid caller m).2 = [] ∧
      (context_switch pid caller m).1.sstate.num_processes = m.sstate.num_processes ∧
      (m.sstate.current_process < m.sstate.num_processes →
        (context_switch pid caller m).1.sstate.current_process < m.sstate.num_processes) := by
  unfold context_switch
  dsimp only
  split
  · rename_i hpid
    have hnew : pid.toNat < m.sstate.num_processes := by omega
    split
    · exact ⟨rfl, rfl, id⟩
    · split <;> exact ⟨rfl, rfl, fun _ => hnew⟩
  · exact ⟨rfl, rfl, id⟩

theorem dispatches_context_switch {pid : Int} {caller : Context} (h : context_switch pid caller m = (m', ev)) :
    (∃ d, dispatches ev = [d]) ∨ dispatches ev = [] := by
  unfold context_switch at h
  dsimp only at h
  split at h
  · split at h
    · obtain ⟨_, rfl⟩ := Prod.mk.inj h; exact .inl ⟨_, rfl⟩
    · split at h <;> obtain ⟨_, rfl⟩ := Prod.mk.inj h <;> exact .inl ⟨_, rfl⟩
  · obtain ⟨_, rfl⟩ := Prod.mk.inj h; exact .inr rfl

/-- The calls of a step are made in the table that the interrupt leaves. -/
theorem step_calls (h : step algo inp m = some (m', ev)) : ∀ c ∈ calls ev, c = (inp, atCall m.sstate) := by
  intro c hc
  rcases step_cases h with ⟨caller, _, hi⟩ | hq
  · rcases handler_cases hi with ⟨_, rfl, _⟩ | ⟨pid, ev', _, rfl, hsw⟩
    · simpa using hc
    · have := (context_switch_frame pid caller { m with sstate := atCall m.sstate }).1
      rw [hsw] at this
      simpa [this] using hc
  · cases hq <;> cases hc

theorem step_num_processes (h : step algo inp m = some (m', ev)) :
    m'.sstate.num_processes = m.sstate.num_processes := by
  rcases step_cases h with ⟨caller, _, hi⟩ | hq
  · rcases handler_cases hi with ⟨_, _, rfl⟩ | ⟨pid, ev', _, _, hsw⟩
    · simp
    · have := (context_switch_frame pid caller { m with sstate := atCall m.sstate }).2.1
      rw [hsw] at this
      simpa using this
  · cases hq <;> rfl

theorem step_current_lt (h : step algo inp m = some (m', ev))
    (hcur : m.sstate.current_process < m.sstate.num_processes) :
    m'.sstate.current_process < m'.sstate.num_processes := by
  rw [step_num_processes h]
  rcases step_cases h with ⟨caller, _, hi⟩ | hq
  · rcases handler_cases hi with ⟨_, _, rfl⟩ | ⟨pid, ev', _, _, hsw⟩
    · simpa using hcur
    · have := (context_switch_frame pid caller { m with sstate := atCall m.sstate }).2.2
      rw [hsw] at this
      simpa using this (by simpa using hcur)
  · cases hq <;> exact hcur

section Runs

variable {specs : List ProcessSpec} {tr : List Event}

/-- The table never changes its length. -/
theorem Reaches.num_processes (h : Reaches algo specs tr m) : m.sstate.num_processes = specs.length :=
  Run.stable (I := fun m => m.sstate.num_processes = specs.length)
    (fun ht ⟨_, hs⟩ => (step_num_processes hs).trans ht) h rfl

/-- The current process is an index of the table. -/
theorem Reaches.current_lt (h : Reaches algo specs tr m) (hne : specs ≠ []) :
    m.sstate.current_process < m.sstate.num_processes :=
  Run.stable (I := fun m => m.sstate.current_process < m.sstate.num_processes) (fun ht ⟨_, hs⟩ => step_current_lt hs ht)
    h (List.length_pos_iff.mpr hne)

/-- **The calls of a run** are made in tables that the interrupt leaves in the machines on the way. -/
theorem Reaches.of_call (h : Reaches algo specs tr m) {c : Input × SchedulerState} (hc : c ∈ calls tr) :
    ∃ tr' m', Reaches algo specs tr' m' ∧ c.2 = atCall m'.sstate := by
  induction h with
  | nil => cases hc
  | @snoc tr ev t u hr hs ih =>
    rw [calls_append, List.mem_append] at hc
    rcases hc with hc | hc
    · exact ih hc
    · obtain ⟨inp, hs⟩ := hs
      exact ⟨tr, t, hr, by rw [step_calls hs c hc]⟩

end Runs

/-- A quiet step emits nothing but a termination. -/
theorem Quiet.events (h : Quiet m ev m') : ev = [] ∨ ∃ pid, m.control = .loopTest pid ∧ ev = [.termination pid] := by
  cases h with
  | terminate => exact .inr ⟨_, rfl, rfl⟩
  | _ => exact .inl rfl

theorem Quiet.silent (h : Quiet m ev m') : calls ev = [] ∧ dispatches ev = [] ∧ arrived ev = [] ∧ quanta ev = 0 := by
  rcases h.events with rfl | ⟨pid, _, rfl⟩ <;> exact ⟨rfl, rfl, rfl, rfl⟩

end Cs326.Scheduler
