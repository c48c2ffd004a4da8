import Cs326.Scheduler.Steps

/-!
# The invariant of sound runs

A call of the algorithm is *sound* when it ends in a return or in a switch to a waiting index of the table. In a run of
sound calls with fewer than `2 ^ 32` quanta (so that `current_quantum` counts the dispatches, `quanta`) the machine
keeps `Inv`: the process that executes is the current one and alone `RUNNING`; a process is `CREATED` exactly as long as
its creation quantum has not been called; the saved context of a waiting process leads back into that process; `main` is
in control only before the first dispatch or behind a termination.

An interrupt is cut in two at the call of the algorithm. `Inv.toCall` gives what holds there (`CallInv`),
`CallInv.ret` and `CallInv.dispatch` lead from it to the two ends of the interrupt.
-/

namespace Cs326.Scheduler

variable {algo : Algorithm} {specs : List ProcessSpec} {tr ev : List Event} {m m' : Machine} {s : SchedulerState}
  {caller main_ctx : Context} {k b : Nat}

/-- The call ends in a return or in a switch to a waiting index of the table. -/
def Sound (algo : Algorithm) (inp : Input) (s : SchedulerState) : Prop :=
  ∀ pid, algo.run s inp = some (.context_switch pid) → ∃ i < s.num_processes, pid = i ∧ (s.pcbs i).state = .WAITING

/-- The context leads back into `process()` of `i`, to its start or to a check point with work left. -/
def Resumable (s : SchedulerState) (i : Nat) (ctx : Context) : Prop :=
  ctx = .entry ∨ ∃ t < 20, ctx = .checkPoint i t ∧ (s.pcbs i).executed_work < (s.pcbs i).workload

/-- The table at quantum `k`, when the processes created before `b` have arrived. -/
structure TableInv (specs : List ProcessSpec) (k b : Nat) (s : SchedulerState) : Prop where
  num : s.num_processes = specs.length
  quantum : s.current_quantum = k
  current : s.current_process < specs.length
  erase : ∀ i, (s.pcbs i).erase = (load specs).pcbs i
  created : ∀ i < specs.length, (s.pcbs i).state = .CREATED ↔ b ≤ (s.pcbs i).creation_quantum
  work : ∀ i, (s.pcbs i).executed_work ≤ (s.pcbs i).workload
  done : ∀ i, (s.pcbs i).state = .TERMINATED → (s.pcbs i).executed_work = (s.pcbs i).workload

/-- `process()` of `pid` is executing. -/
structure Executing (s : SchedulerState) (main_ctx : Context) (pid : Nat) : Prop where
  current : pid = s.current_process
  running : (s.pcbs pid).state = .RUNNING
  pos : 0 < s.current_quantum
  main : main_ctx = .mainLoop

/-- The process has work left, so it is inside its work loop. -/
def Unfinished (s : SchedulerState) (pid : Nat) : Prop := (s.pcbs pid).executed_work < (s.pcbs pid).workload

/-- `main` is in control: nobody runs, and there is no process to go back to. -/
structure InMain (s : SchedulerState) : Prop where
  idle : ∀ i < s.num_processes, (s.pcbs i).state ≠ .RUNNING
  origin : s.current_quantum = 0 ∨ (s.pcbs s.current_process).state = .TERMINATED

def ControlInv (m : Machine) : Prop :=
  match m.control with
  | .mainLoop => InMain m.sstate
  | .mainCheck => InMain m.sstate
  | .loopTest pid => Executing m.sstate m.main_ctx pid
  | .checkPoint pid i => Executing m.sstate m.main_ctx pid ∧ i < 20 ∧ Unfinished m.sstate pid
  | .afterCheck pid i => Executing m.sstate m.main_ctx pid ∧ i < 20 ∧ Unfinished m.sstate pid
  | .finished => ∀ i < m.sstate.num_processes, (m.sstate.pcbs i).state = .TERMINATED
  | .undefined => False

/-- **The invariant.** -/
structure Inv (specs : List ProcessSpec) (tr : List Event) (m : Machine) : Prop where
  table : TableInv specs (quanta tr) (quanta tr) m.sstate
  single : ∀ i < specs.length, (m.sstate.pcbs i).state = .RUNNING → i = m.sstate.current_process
  saved : ∀ i < specs.length, (m.sstate.pcbs i).state = .WAITING → Resumable m.sstate i (m.sstate.pcbs i).context
  control : ControlInv m
  once : ∀ i, (arrived tr).count i =
    if i < specs.length ∧ ((load specs).pcbs i).creation_quantum < quanta tr then 1 else 0

/-- What holds when the algorithm is called, in the table `s`. -/
structure CallInv (specs : List ProcessSpec) (k : Nat) (caller main_ctx : Context) (s : SchedulerState) : Prop where
  table : TableInv specs k (k + 1) s
  idle : ∀ i < specs.length, (s.pcbs i).state ≠ .RUNNING
  arrived : ∀ i < specs.length, (s.pcbs i).creation_quantum = k → (s.pcbs i).state = .WAITING
  /-- The interrupted process is not saved yet: its context is the caller. -/
  saved : ∀ i < specs.length, (s.pcbs i).state = .WAITING →
    Resumable s i (s.pcbs i).context ∨ i = s.current_process ∧ Resumable s i caller
  origin : caller = .mainLoop ∧ (s.current_quantum = 0 ∨ (s.pcbs s.current_process).state = .TERMINATED) ∨
    ∃ t < 20, caller = .checkPoint s.current_process t ∧ 0 < s.current_quantum ∧
      (s.pcbs s.current_process).state = .WAITING ∧ main_ctx = .mainLoop ∧ Unfinished s s.current_process

/-! ## Up to the call -/

theorem TableInv.state_ne_created (h : TableInv specs k b s) {i : Nat} (hi : i < specs.length)
    (hs : (s.pcbs i).state ≠ .CREATED) : (s.pcbs i).creation_quantum < b :=
  Nat.lt_of_not_le fun hle => hs ((h.created i hi).mpr hle)

/-- A process arrives from `CREATED`. -/
theorem TableInv.created_of_arrives (h : TableInv specs k k s) {i : Nat} (ha : arrives s i) :
    (s.pcbs i).state = .CREATED := by
  refine (h.created i (h.num ▸ ha.1)).mpr ?_
  rw [ha.2, h.quantum]

theorem atCall_creation_quantum (s : SchedulerState) (i : Nat) :
    ((atCall s).pcbs i).creation_quantum = (s.pcbs i).creation_quantum := erase_creation_quantum (atCall_erase s i)

theorem atCall_workload (s : SchedulerState) (i : Nat) :
    ((atCall s).pcbs i).workload = (s.pcbs i).workload := erase_workload (atCall_erase s i)

theorem unfinished_atCall {i : Nat} : Unfinished (atCall s) i ↔ Unfinished s i := by
  simp only [Unfinished, atCall_executed_work, atCall_workload]

theorem TableInv.toCall (h : TableInv specs k k s) : TableInv specs k (k + 1) (atCall s) where
  num := by simp [h.num]
  quantum := by simp [h.quantum]
  current := by simpa using h.current
  erase i := by rw [atCall_erase, h.erase]
  created i hi := by
    rw [atCall_state, atCall_creation_quantum]
    by_cases ha : arrives s i
    · have := ha.2; have := h.quantum; simp [ha]; omega
    · have hne : (s.pcbs i).creation_quantum ≠ k := fun he => ha ⟨h.num ▸ hi, by rw [he, h.quantum]⟩
      have hcr := h.created i hi
      split
      · rename_i hw
        have hrun := (hw.resolve_left ha).2
        simp only [hrun, reduceCtorEq, false_iff] at hcr ⊢
        omega
      · rw [hcr]; omega
  work i := by rw [atCall_executed_work, atCall_workload]; exact h.work i
  done i hi := by
    rw [atCall_state] at hi
    split at hi
    · cases hi
    · rw [atCall_executed_work, atCall_workload]; exact h.done i hi

theorem Resumable.toCall {i : Nat} {ctx : Context} (h : Resumable s i ctx) : Resumable (atCall s) i ctx := by
  unfold Resumable at *
  rwa [atCall_executed_work, atCall_workload]

/-- A terminated process does not arrive again. -/
theorem Inv.terminated_atCall (h : Inv specs tr m) {i : Nat} (hT : (m.sstate.pcbs i).state = .TERMINATED) :
    ((atCall m.sstate).pcbs i).state = .TERMINATED := by
  have hno : ¬arrives m.sstate i := fun ha => by rw [h.table.created_of_arrives ha] at hT; cases hT
  rw [atCall_state, if_neg (by simp [hno, hT]), hT]

/-- **Up to the call.** -/
theorem Inv.toCall (h : Inv specs tr m) (hc : Calls m.control caller) :
    CallInv specs (quanta tr) caller m.main_ctx (atCall m.sstate) where
  table := h.table.toCall
  idle i hi hrun := by
    rw [atCall_state] at hrun
    split at hrun
    · cases hrun
    · rename_i hn; exact hn (.inr ⟨h.single i hi hrun, hrun⟩)
  arrived i hi hq := by
    rw [atCall_creation_quantum] at hq
    rw [atCall_state, if_pos (.inl ⟨h.table.num ▸ hi, hq.trans h.table.quantum.symm⟩)]
  saved i hi hw := by
    rw [atCall_context, atCall_current_process]
    split
    · exact .inl (.inl rfl)
    · rename_i ha
      rw [atCall_state] at hw
      by_cases hs : (m.sstate.pcbs i).state = .WAITING
      · exact .inl (h.saved i hi hs).toCall
      · have hrun : i = m.sstate.current_process ∧ (m.sstate.pcbs i).state = .RUNNING := by
          by_contra hn
          rw [if_neg (by tauto)] at hw
          exact hs hw
        refine .inr ⟨hrun.1, ?_⟩
        have hctl := h.control
        cases hm : m.control <;> rw [hm] at hc <;> cases hc <;> simp only [ControlInv, hm] at hctl
        · exact absurd hrun.2 (hctl.idle i (h.table.num ▸ hi))
        · rename_i pid t
          obtain ⟨he, ht, hu⟩ := hctl
          rw [hrun.1, ← he.current]
          exact .inr ⟨t, ht, rfl, unfinished_atCall.mpr hu⟩
  origin := by
    have hctl := h.control
    rw [atCall_current_process, atCall_current_quantum]
    cases hm : m.control <;> rw [hm] at hc <;> cases hc <;> simp only [ControlInv, hm] at hctl
    · refine .inl ⟨rfl, hctl.origin.imp_right fun hT => ?_⟩
      exact h.terminated_atCall hT
    · rename_i pid t
      obtain ⟨he, ht, hu⟩ := hctl
      rw [← he.current]
      exact .inr ⟨t, ht, rfl, he.pos, by rw [atCall_state, if_pos (.inr ⟨he.current, he.running⟩)], he.main,
        unfinished_atCall.mpr hu⟩

/-! ## From the call on -/

theorem TableInv.switched {s' : SchedulerState} {new : Nat} (h : TableInv specs k (k + 1) s) (hk : k + 1 < 2 ^ 32)
    (hn : new < specs.length) (hw : (s.pcbs new).state = .WAITING) (hs : Switched s new s') :
    TableInv specs (k + 1) (k + 1) s' where
  num := hs.num.trans h.num
  quantum := by rw [hs.quantum, h.quantum, Nat.mod_eq_of_lt hk]
  current := by rw [hs.current]; exact hn
  erase i := (hs.erase i).trans (h.erase i)
  created i hi := by
    rw [hs.state, erase_creation_quantum (hs.erase i), ← h.created i hi]
    split
    · rename_i hin; subst hin; simp [hw]
    · rfl
  work i := by rw [hs.work, erase_workload (hs.erase i)]; exact h.work i
  done i hi := by
    rw [hs.state] at hi
    split at hi
    · cases hi
    · rw [hs.work, erase_workload (hs.erase i)]; exact h.done i hi

theorem Resumable.switched {s' : SchedulerState} {new i : Nat} {ctx : Context} (hs : Switched s new s')
    (h : Resumable s i ctx) : Resumable s' i ctx := by
  unfold Resumable at *
  rwa [hs.work, erase_workload (hs.erase i)]

/-- Resuming a process that has just been made the running one. -/
theorem controlInv_resume {pid : Nat} {ctx : Context} (he : Executing m.sstate m.main_ctx pid)
    (hr : Resumable m.sstate pid ctx) (hc : m.control = ctx.resume pid) : ControlInv m := by
  unfold ControlInv
  rw [hc]
  rcases hr with rfl | ⟨t, ht, rfl, hu⟩
  · exact he
  · exact ⟨he, ht, hu⟩

/-- What the two ends of an interrupt leave behind. -/
structure AfterCall (specs : List ProcessSpec) (k : Nat) (m : Machine) : Prop where
  table : TableInv specs k k m.sstate
  single : ∀ i < specs.length, (m.sstate.pcbs i).state = .RUNNING → i = m.sstate.current_process
  saved : ∀ i < specs.length, (m.sstate.pcbs i).state = .WAITING → Resumable m.sstate i (m.sstate.pcbs i).context
  control : ControlInv m

/-- A process is not resumed by the context of `main`. -/
theorem not_resumable_mainLoop {i : Nat} : ¬Resumable s i .mainLoop := by
  rintro (h | ⟨_, _, h, _⟩) <;> cases h

/-- **The switch** to a waiting process. -/
theorem CallInv.dispatch {c : Control} {new : Nat} (h : CallInv specs k caller main_ctx s) (hk : k + 1 < 2 ^ 32)
    (hn : new < specs.length) (hw : (s.pcbs new).state = .WAITING) :
    ∃ m', context_switch new caller ⟨s, main_ctx, c⟩ = (m', [.dispatch new s]) ∧ Switched s new m'.sstate ∧
      AfterCall specs (k + 1) m' := by
  obtain ⟨m', he, hs, hcases⟩ :=
    context_switch_valid (m := ⟨s, main_ctx, c⟩) caller (show new < s.num_processes from h.table.num ▸ hn)
  -- the new process resumes a context of its own, the others keep or get one, and `main` waits in its loop
  have key : (∀ i < specs.length, i ≠ new → (s.pcbs i).state = .WAITING →
      Resumable s i (m'.sstate.pcbs i).context) ∧ m'.main_ctx = .mainLoop ∧
        ∃ ctx, Resumable s new ctx ∧ m'.control = ctx.resume new := by
    rcases h.origin with ⟨rfl, h0⟩ | ⟨t, ht, rfl, hpos, hwait, hmain, hu⟩
    · have hctx : ∀ i < specs.length, (s.pcbs i).state = .WAITING → Resumable s i (s.pcbs i).context :=
        fun i hi hwi => (h.saved i hi hwi).resolve_right fun hi' => not_resumable_mainLoop hi'.2
      rcases hcases with ⟨hsame, hpos, _⟩ | ⟨_, hctl, hmain', hctx'⟩ | ⟨hno, _⟩
      · rcases h0 with h0 | hT
        · exact absurd hpos (by dsimp only; omega)
        · rw [← show new = s.current_process from hsame, hw] at hT; cases hT
      · exact ⟨fun i hi _ hwi => by rw [hctx']; exact hctx i hi hwi, hmain', _, hctx new hn hw, hctl⟩
      · exact absurd h0 hno
    · have hcaller : Resumable s s.current_process (.checkPoint s.current_process t) := .inr ⟨t, ht, rfl, hu⟩
      have hctx : ∀ i < specs.length, (s.pcbs i).state = .WAITING → i ≠ s.current_process →
          Resumable s i (s.pcbs i).context :=
        fun i hi hwi hne => (h.saved i hi hwi).resolve_right fun hi' => hne hi'.1
      rcases hcases with ⟨hsame, _, hctl, hmain', hctx'⟩ | ⟨h0, _⟩ | ⟨_, hne, hctl, hmain', hctx'⟩
      · have hsame : new = s.current_process := hsame
        refine ⟨fun i hi hne hwi => ?_, hmain'.trans hmain, _, hsame ▸ hcaller, hctl⟩
        rw [hctx']; exact hctx i hi hwi (hsame ▸ hne)
      · rcases h0 with h0 | hT
        · exact absurd h0 (by dsimp only; omega)
        · rw [show (s.pcbs s.current_process).state = .TERMINATED from hT] at hwait; cases hwait
      · refine ⟨fun i hi _ hwi => ?_, hmain'.trans hmain, _, hctx new hn hw hne, hctl⟩
        rw [hctx']
        dsimp only
        split
        · rename_i hold; rw [hold]; exact hcaller
        · rename_i hold; exact hctx i hi hwi hold
  obtain ⟨hsaved, hmain, ctx, hres, hctl⟩ := key
  have hexec : Executing m'.sstate m'.main_ctx new :=
    ⟨hs.current.symm, by rw [hs.state, if_pos rfl], by rw [hs.quantum, h.table.quantum]; omega, hmain⟩
  refine ⟨m', he, hs, h.table.switched hk hn hw hs, fun i hi hrun => ?_, fun i hi hwait => ?_,
    controlInv_resume hexec (hres.switched hs) hctl⟩
  · rw [hs.state] at hrun
    split at hrun
    · rename_i hin; rw [hs.current, hin]
    · exact absurd hrun (h.idle i hi)
  · rw [hs.state] at hwait
    split at hwait
    · cases hwait
    · rename_i hne; exact (hsaved i hi hne hwait).switched hs

/-- **The return** without a switch: `main` called, and nobody was waiting. -/
theorem CallInv.ret (h : CallInv specs k caller main_ctx s)
    (hidle : ∀ i < specs.length, (s.pcbs i).state ≠ .WAITING) :
    AfterCall specs k ⟨s, main_ctx, caller.resume s.current_process⟩ := by
  rcases h.origin with ⟨rfl, h0⟩ | ⟨t, _, _, _, hw, _⟩
  · refine ⟨{ h.table with created := fun i hi => ?_ }, fun i hi hrun => absurd hrun (h.idle i hi),
      fun i hi hw => absurd hw (hidle i hi), ⟨fun i hi => h.idle i (h.table.num ▸ hi), h0⟩⟩
    -- nobody waits, so nobody is created at this quantum
    have hne : (s.pcbs i).creation_quantum ≠ k := fun hq => hidle i hi (h.arrived i hi hq)
    rw [h.table.created i hi]; dsimp only; omega
  · exact absurd hw (hidle _ h.table.current)

/-! ## The steps -/

theorem Inv.afterCall (h : Inv specs tr m) : AfterCall specs (quanta tr) m := ⟨h.table, h.single, h.saved, h.control⟩

theorem AfterCall.terminate {c : Context} {pid : Nat} (h : AfterCall specs k ⟨s, c, .loopTest pid⟩)
    (he : Executing s c pid) (hge : ¬Unfinished s pid) :
    AfterCall specs k ⟨s.setState pid .TERMINATED, c, c.resume s.current_process⟩ := by
  obtain ⟨hcur, hrun, _, rfl⟩ := he
  unfold Unfinished at hge
  refine ⟨⟨h.table.num, h.table.quantum, h.table.current, fun i => ?_, fun i hi => ?_, fun i => ?_, fun i hi => ?_⟩,
    fun i hi hr => ?_, fun i hi hw => ?_, fun i hi hr => ?_, .inr ?_⟩
  · rw [setState_erase]; exact h.table.erase i
  · rw [setState_state, erase_creation_quantum (setState_erase ..), ← h.table.created i hi]
    split
    · rename_i hip; simp [hip, hrun]
    · rfl
  · rw [setState_executed_work, erase_workload (setState_erase ..)]; exact h.table.work i
  · rw [setState_executed_work, erase_workload (setState_erase ..)]
    rw [setState_state] at hi
    split at hi
    · rename_i hip
      have := h.table.work i
      rw [hip] at this ⊢
      exact Nat.le_antisymm this (Nat.le_of_not_lt hge)
    · exact h.table.done i hi
  · rw [setState_state] at hr
    split at hr
    · cases hr
    · exact h.single i hi hr
  · rw [setState_state] at hw
    split at hw
    · cases hw
    · have := h.saved i hi hw
      unfold Resumable at *
      rwa [setState_context, setState_executed_work, erase_workload (setState_erase ..)]
  · rw [setState_state] at hr
    split at hr
    · cases hr
    · rename_i hne; exact hne ((h.single i (h.table.num ▸ hi) hr).trans hcur.symm)
  · rw [setState_state]; exact if_pos hcur.symm

theorem AfterCall.unit {c : Context} {pid i : Nat} (h : AfterCall specs k ⟨s, c, .afterCheck pid i⟩)
    (he : Executing s c pid) (hu : Unfinished s pid) : AfterCall specs k ⟨s.incWork pid, c, .loopTest pid⟩ := by
  unfold Unfinished at hu
  refine ⟨⟨h.table.num, h.table.quantum, h.table.current, fun i => ?_, fun i hi => ?_, fun i => ?_, fun i hi => ?_⟩,
    fun i hi hr => ?_, fun i hi hw => ?_, he.current, by rw [incWork_state]; exact he.running, he.pos, he.main⟩
  · rw [incWork_erase]; exact h.table.erase i
  · rw [incWork_state, erase_creation_quantum (incWork_erase ..)]; exact h.table.created i hi
  · rw [incWork_executed_work, erase_workload (incWork_erase ..)]
    split
    · rename_i hip; rw [hip]; exact hu
    · exact h.table.work i
  · rw [incWork_state] at hi
    rw [incWork_executed_work, erase_workload (incWork_erase ..), if_neg ?_]
    · exact h.table.done i hi
    · intro hip; rw [hip, he.running] at hi; cases hi
  · rw [incWork_state] at hr; exact h.single i hi hr
  · rw [incWork_state] at hw
    have := h.saved i hi hw
    have hne : i ≠ pid := fun hip => by rw [hip, he.running] at hw; cases hw
    unfold Resumable at *
    rwa [incWork_context, incWork_executed_work, if_neg hne, erase_workload (incWork_erase ..)]

/-- A quiet step keeps everything but the arrivals. -/
theorem AfterCall.quiet (h : AfterCall specs k m) (hq : Quiet m ev m') : AfterCall specs k m' := by
  have hctl := h.control
  cases hq with
  | loop => exact ⟨h.table, h.single, h.saved, hctl⟩
  | finish _ hall =>
    refine ⟨h.table, h.single, h.saved, fun i hi => ?_⟩
    simpa using List.all_eq_true.mp hall i (List.mem_range.mpr hi)
  | work hlt => exact ⟨h.table, h.single, h.saved, hctl, by omega, hlt⟩
  | pass => exact ⟨h.table, h.single, h.saved, hctl⟩
  | next hlt => exact ⟨h.table, h.single, h.saved, hctl.1, hlt, hctl.2.2⟩
  | @terminate s c pid hge => exact h.terminate hctl hge
  | @unit s c pid i hge => exact h.unit hctl.1 hctl.2.2

/-- The events of a quiet step are no arrivals. -/
theorem Inv.quiet (h : Inv specs tr m) (hq : Quiet m ev m') : Inv specs (tr ++ ev) m' := by
  obtain ⟨_, _, hev, hk⟩ := hq.silent
  obtain ⟨ht, hs, hsv, hc⟩ := h.afterCall.quiet hq
  have hk' : quanta (tr ++ ev) = quanta tr := by rw [quanta_append, hk, Nat.add_zero]
  refine ⟨by rwa [hk'], hs, hsv, hc, fun i => ?_⟩
  rw [hk', arrived_append, hev, List.append_nil, h.once i]

/-- A step whose calls are sound: quiet, or an interrupt that returns with nobody waiting, or one that switches to a
waiting index of the table. -/
inductive SoundStep (algo : Algorithm) (m : Machine) : List Event → Machine → Prop
  | quiet {ev : List Event} {m' : Machine} : Quiet m ev m' → SoundStep algo m ev m'
  | ret {inp : Input} {caller : Context} : Calls m.control caller → algo.run (atCall m.sstate) inp = some .ret →
      SoundStep algo m (callEvents inp m.sstate) ⟨atCall m.sstate, m.main_ctx, caller.resume m.sstate.current_process⟩
  | dispatch {inp : Input} {caller : Context} {new : Nat} {m' : Machine} : Calls m.control caller →
      algo.run (atCall m.sstate) inp = some (.context_switch new) → new < m.sstate.num_processes →
      ((atCall m.sstate).pcbs new).state = .WAITING → Switched (atCall m.sstate) new m'.sstate →
      context_switch new caller ⟨atCall m.sstate, m.main_ctx, m.control⟩ = (m', [.dispatch new (atCall m.sstate)]) →
      SoundStep algo m (callEvents inp m.sstate ++ [.dispatch new (atCall m.sstate)]) m'

/-- Every call that the events show is sound. -/
def SoundCalls (algo : Algorithm) (tr : List Event) : Prop := ∀ c ∈ calls tr, Sound algo c.1 c.2

theorem SoundCalls.left {a b : List Event} (h : SoundCalls algo (a ++ b)) : SoundCalls algo a :=
  fun c hc => h c (by simp [hc])

theorem SoundCalls.right {a b : List Event} (h : SoundCalls algo (a ++ b)) : SoundCalls algo b :=
  fun c hc => h c (by simp [hc])

theorem soundStep_of_step (hstep : Step algo m ev m') (hsound : SoundCalls algo ev) : SoundStep algo m ev m' := by
  obtain ⟨inp, hstep⟩ := hstep
  rcases step_cases hstep with ⟨caller, hc, hi⟩ | hquiet
  · rcases handler_cases hi with ⟨hret, rfl, rfl⟩ | ⟨pid, ev', hpid, rfl, hsw⟩
    · exact .ret hc hret
    · obtain ⟨new, hnew, rfl, hw⟩ := hsound (inp, atCall m.sstate) (by simp) pid hpid
      obtain ⟨m'', he, hs, _⟩ := context_switch_valid (m := { m with sstate := atCall m.sstate }) caller hnew
      rw [hsw] at he
      obtain ⟨rfl, rfl⟩ := Prod.mk.inj he
      exact .dispatch hc hpid (by simpa using hnew) hw hs hsw
  · exact .quiet hquiet

/-- An interrupt that returns has found nobody waiting. -/
theorem CallInv.idle_of_ret {inp : Input} (h : CallInv specs k caller main_ctx s)
    (hret : algo.run s inp = some .ret) : ∀ i < specs.length, (s.pcbs i).state ≠ .WAITING := by
  intro i hi hw
  have hn : 0 < s.num_processes := by have := h.table.num; omega
  have := run_ret hn hret i (h.table.num ▸ hi)
  rw [waiting_iff.mpr hw] at this
  cases this

theorem count_arrivals (i : Nat) : (arrivals (preempt s)).count i = if arrives s i then 1 else 0 := by
  have hnd : (arrivals (preempt s)).Nodup := List.nodup_range.filter _
  rw [hnd.count]
  simp only [mem_arrivals]

theorem TableInv.creation_quantum (h : TableInv specs k b s) (i : Nat) :
    (s.pcbs i).creation_quantum = ((load specs).pcbs i).creation_quantum :=
  erase_creation_quantum ((h.erase i).trans (erase_load i specs).symm)

theorem TableInv.load_workload (h : TableInv specs k b s) (i : Nat) :
    (s.pcbs i).workload = ((load specs).pcbs i).workload :=
  erase_workload ((h.erase i).trans (erase_load i specs).symm)

theorem TableInv.arrives_iff (h : TableInv specs k b s) (i : Nat) :
    arrives s i ↔ i < specs.length ∧ ((load specs).pcbs i).creation_quantum = k := by
  rw [arrives, h.num, h.quantum, h.creation_quantum]

/-- **The invariant is kept by every step with sound calls.** -/
theorem Inv.step (h : Inv specs tr m) (hstep : SoundStep algo m ev m') (hq : quanta (tr ++ ev) < 2 ^ 32) :
    Inv specs (tr ++ ev) m' := by
  cases hstep with
  | quiet hquiet => exact h.quiet hquiet
  | @ret inp caller hc hret =>
    have hcall := h.toCall hc
    have hidle := hcall.idle_of_ret hret
    have hafter := hcall.ret hidle
    rw [atCall_current_process] at hafter
    have hk' : quanta (tr ++ callEvents inp m.sstate) = quanta tr := by simp [quanta]
    refine ⟨by rw [hk']; exact hafter.table, hafter.single, hafter.saved, hafter.control, fun i => ?_⟩
    have hno : ¬arrives m.sstate i := fun ha => by
      have := (h.table.arrives_iff i).mp ha
      exact hidle i this.1 (hcall.arrived i this.1 (by rw [hcall.table.creation_quantum]; exact this.2))
    rw [hk', arrived_append, arrived_callEvents, List.count_append, count_arrivals, if_neg hno, h.once i, Nat.add_zero]
  | @dispatch inp caller new m' hc _ hnew hw _ hsw =>
    have hk' : quanta (tr ++ (callEvents inp m.sstate ++ [.dispatch new (atCall m.sstate)])) = quanta tr + 1 := by
      simp only [quanta_append]; simp only [quanta, dispatches_callEvents]; rfl
    rw [hk'] at hq
    obtain ⟨m'', he, _, hafter⟩ := (h.toCall hc).dispatch (c := m.control) hq (h.table.num ▸ hnew) hw
    obtain rfl : m' = m'' := congrArg Prod.fst (hsw.symm.trans he)
    refine ⟨by rw [hk']; exact hafter.table, hafter.single, hafter.saved, hafter.control, fun i => ?_⟩
    rw [hk', arrived_append, arrived_append, arrived_callEvents, List.count_append, List.count_append, count_arrivals,
      h.once i]
    have harr := h.table.arrives_iff i
    by_cases ha : arrives m.sstate i
    · obtain ⟨hi, he⟩ := harr.mp ha
      rw [if_pos ha, if_neg (by omega), if_pos (by omega)]; rfl
    · rw [if_neg ha]
      have hne : i < specs.length → ((load specs).pcbs i).creation_quantum ≠ quanta tr :=
        fun hi he => ha (harr.mpr ⟨hi, he⟩)
      by_cases hlt : i < specs.length ∧ ((load specs).pcbs i).creation_quantum < quanta tr
      · rw [if_pos hlt, if_pos (by omega)]; rfl
      · rw [if_neg hlt, if_neg (by omega)]; rfl

theorem inv_init (hne : specs ≠ []) : Inv specs [] (Machine.init specs) := by
  have hstate : ∀ i, ((load specs).pcbs i).state = .CREATED := by
    intro i; unfold load; dsimp only; split <;> rfl
  have hwork : ∀ i, ((load specs).pcbs i).executed_work = 0 := by
    intro i; unfold load; dsimp only; split <;> rfl
  refine ⟨⟨rfl, rfl, List.length_pos_iff.mpr hne, fun i => erase_load i specs, fun i _ => ?_, fun i => ?_,
    fun i hi => ?_⟩, fun i _ hr => ?_, fun i _ hw => ?_, ⟨fun i _ hr => ?_, .inl rfl⟩, fun i => ?_⟩
  · exact ⟨fun _ => Nat.zero_le _, fun _ => hstate i⟩
  · exact (hwork i).le.trans (Nat.zero_le _)
  · exact absurd (hi.symm.trans (hstate i)) (by simp)
  · exact absurd (hr.symm.trans (hstate i)) (by simp)
  · exact absurd (hw.symm.trans (hstate i)) (by simp)
  · exact absurd (hr.symm.trans (hstate i)) (by simp)
  · exact (if_neg fun h => Nat.not_lt_zero _ h.2).symm

/-- **Run rule.** In a run of sound calls, what holds at the start and is kept by every sound step between machines
with the invariant holds at the end. -/
theorem Reaches.induct {I : List Event → Machine → Prop} (h : Reaches algo specs tr m) (hne : specs ≠ [])
    (hq : quanta tr < 2 ^ 32) (hsound : SoundCalls algo tr) (h0 : I [] (Machine.init specs))
    (hstep : ∀ {tr m ev m'}, Inv specs tr m → I tr m → SoundStep algo m ev m' → Inv specs (tr ++ ev) m' →
      quanta (tr ++ ev) < 2 ^ 32 → SoundCalls algo (tr ++ ev) → I (tr ++ ev) m') : Inv specs tr m ∧ I tr m := by
  refine Run.invariant_of_prefix (P := fun tr => quanta tr < 2 ^ 32 ∧ SoundCalls algo tr)
    (I := fun tr m => Inv specs tr m ∧ I tr m) (fun a b hab => ⟨quanta_lt_of_append a b hab.1, hab.2.left⟩)
    (fun _ => ⟨inv_init hne, h0⟩) (fun {tr m ev m'} hI hs hP => ?_) h ⟨hq, hsound⟩
  have hss := soundStep_of_step hs hP.2.right
  have hinv := hI.1.step hss hP.1
  exact ⟨hinv, hstep hI.1 hI.2 hss hinv hP.1 hP.2⟩

/-- **Every run of sound calls keeps the invariant.** -/
theorem Reaches.inv (h : Reaches algo specs tr m) (hne : specs ≠ []) (hq : quanta tr < 2 ^ 32)
    (hsound : SoundCalls algo tr) : Inv specs tr m :=
  (h.induct (I := fun _ _ => True) hne hq hsound trivial fun _ _ _ _ _ _ => trivial).1

/-- Every call of the run finds the table in order. -/
theorem Reaches.callInv (h : Reaches algo specs tr m) (hne : specs ≠ []) (hq : quanta tr < 2 ^ 32)
    (hsound : SoundCalls algo tr) :
    ∀ c ∈ calls tr, ∃ k caller main_ctx, CallInv specs k caller main_ctx c.2 := by
  refine (h.induct (I := fun tr _ => ∀ c ∈ calls tr, ∃ k caller main_ctx, CallInv specs k caller main_ctx c.2)
    hne hq hsound (fun c hc => by cases hc) fun {tr m ev m'} hinv ih hs _ _ _ c hc => ?_).2
  rw [calls_append, List.mem_append] at hc
  rcases hc with hc | hc
  · exact ih c hc
  cases hs with
  | quiet hquiet => rw [hquiet.silent.1] at hc; cases hc
  | ret hcalls =>
    rw [calls_callEvents, List.mem_singleton] at hc
    exact hc ▸ ⟨_, _, _, hinv.toCall hcalls⟩
  | dispatch hcalls =>
    rw [calls_append, calls_callEvents, List.mem_append, List.mem_singleton] at hc
    rcases hc with hc | hc
    · exact hc ▸ ⟨_, _, _, hinv.toCall hcalls⟩
    · cases hc

/-- **`TERMINATED` is never left.** -/
theorem Inv.terminated_step (h : Inv specs tr m) (hstep : SoundStep algo m ev m') {i : Nat}
    (hT : (m.sstate.pcbs i).state = .TERMINATED) : (m'.sstate.pcbs i).state = .TERMINATED := by
  have hat := h.terminated_atCall hT
  cases hstep with
  | quiet hquiet =>
    obtain ⟨_, _, _, _, _, _, hst⟩ := hquiet.table
    rw [hst]; split
    · rfl
    · exact hT
  | ret => exact hat
  | dispatch _ _ _ hw hs =>
    rw [hs.state]
    split
    · rename_i hin; rw [← hin, hat] at hw; cases hw
    · exact hat

/-- **... in no run of sound calls.** -/
theorem Inv.terminated_run (h : Inv specs tr m) {tr' : List Event} (hrun : Run (Step algo) m tr' m')
    (hq : quanta (tr ++ tr') < 2 ^ 32) (hsound : SoundCalls algo tr') {i : Nat}
    (hT : (m.sstate.pcbs i).state = .TERMINATED) : (m'.sstate.pcbs i).state = .TERMINATED := by
  refine (Run.invariant_of_prefix (P := fun tr' => quanta (tr ++ tr') < 2 ^ 32 ∧ SoundCalls algo tr')
    (I := fun tr' m' => Inv specs (tr ++ tr') m' ∧ (m'.sstate.pcbs i).state = .TERMINATED)
    (fun a b hab => ⟨?_, hab.2.left⟩) (fun _ => ⟨by simpa using h, hT⟩) (fun {a t ev u} hI hs hP => ?_) hrun
    ⟨hq, hsound⟩).2
  · rw [← List.append_assoc] at hab; exact quanta_lt_of_append _ _ hab.1
  · have hss := soundStep_of_step hs hP.2.right
    rw [← List.append_assoc] at hP ⊢
    exact ⟨hI.1.step hss hP.1, hI.1.terminated_step hss hI.2⟩

/-- **The place of a dispatch in a run**: the step that makes it, from a machine that has made the dispatches before. -/
theorem Reaches.of_dispatch (h : Reaches algo specs tr m) {a b : List (Nat × SchedulerState)} {d : Nat × SchedulerState}
    (hd : dispatches tr = a ++ d :: b) : ∃ tr₁ ev tr₂ m₁ m₂, tr = tr₁ ++ ev ++ tr₂ ∧ Reaches algo specs tr₁ m₁ ∧
      dispatches tr₁ = a ∧ Step algo m₁ ev m₂ ∧ dispatches ev = [d] := by
  induction h generalizing b with
  | nil => exact absurd (congrArg List.length hd) (by simp [dispatches])
  | @snoc tr ev t u hr hs ih =>
    rw [dispatches_append] at hd
    have hlast : (∃ d', dispatches ev = [d']) ∨ dispatches ev = [] := by
      obtain ⟨inp, hs⟩ := hs
      rcases step_cases hs with ⟨caller, _, hi⟩ | hq
      · rcases handler_cases hi with ⟨_, rfl, _⟩ | ⟨pid, ev', _, rfl, hsw⟩
        · exact .inr (dispatches_callEvents _)
        · rw [dispatches_append, dispatches_callEvents, List.nil_append]
          exact dispatches_context_switch hsw
      · exact .inr hq.silent.2.1
    rcases hlast with ⟨d', he⟩ | he
    · rw [he] at hd
      rcases List.eq_nil_or_concat b with rfl | ⟨b', x, rfl⟩
      · obtain ⟨rfl, hd'⟩ := List.append_inj' hd rfl
        exact ⟨tr, ev, [], t, u, by simp, hr, rfl, hs, he.trans hd'⟩
      · rw [List.concat_eq_append, ← List.cons_append, ← List.append_assoc] at hd
        obtain ⟨hd, _⟩ := List.append_inj' hd rfl
        obtain ⟨tr₁, ev₁, tr₂, m₁, m₂, rfl, h₁, h₂, h₃, h₄⟩ := ih hd
        exact ⟨tr₁, ev₁, tr₂ ++ ev, m₁, m₂, by simp, h₁, h₂, h₃, h₄⟩
    · rw [he, List.append_nil] at hd
      obtain ⟨tr₁, ev₁, tr₂, m₁, m₂, rfl, h₁, h₂, h₃, h₄⟩ := ih hd
      exact ⟨tr₁, ev₁, tr₂ ++ ev, m₁, m₂, by simp, h₁, h₂, h₃, h₄⟩

/-- **... of sound calls**: the machine that calls the algorithm has the invariant. -/
theorem Reaches.dispatched (h : Reaches algo specs tr m) (hne : specs ≠ []) (hq : quanta tr < 2 ^ 32)
    (hsound : SoundCalls algo tr) {a b : List (Nat × SchedulerState)} {new : Nat}
    (hd : dispatches tr = a ++ (new, s) :: b) : ∃ tr₁ tr₂ m₁ inp caller, tr = tr₁ ++ tr₂ ∧ Reaches algo specs tr₁ m₁ ∧
      dispatches tr₁ = a ∧ Inv specs tr₁ m₁ ∧ Calls m₁.control caller ∧ s = atCall m₁.sstate ∧
      (inp, s) ∈ calls tr ∧ algo.run s inp = some (.context_switch new) ∧ new < specs.length ∧
      (s.pcbs new).state = .WAITING ∧ ∃ s', Switched s new s' := by
  obtain ⟨tr₁, ev, tr₂, m₁, m₂, rfl, hr, ha, hs, he⟩ := h.of_dispatch hd
  rw [List.append_assoc] at hq
  have hinv := hr.inv hne (quanta_lt_of_append _ _ hq) hsound.left.left
  cases soundStep_of_step hs hsound.left.right with
  | quiet hquiet => rw [hquiet.silent.2.1] at he; cases he
  | ret => rw [dispatches_callEvents] at he; cases he
  | @dispatch inp caller new' m' hc hrun hlt hw hsw _ =>
    rw [dispatches_append, dispatches_callEvents] at he
    obtain ⟨rfl, rfl⟩ := Prod.mk.inj (List.singleton_inj.mp he)
    exact ⟨tr₁, _, m₁, inp, caller, List.append_assoc .., hr, ha, hinv, hc, rfl, by simp, hrun,
      hinv.table.num ▸ hlt, hw, _, hsw⟩

end Cs326.Scheduler
