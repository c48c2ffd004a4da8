import Cs326.Scheduler.Invariant

/-!
# Who is dispatched by `fifo`, `sjf`, `psjf`, `sctf` and `priority`

These algorithms start from some `pid`, `0` or in `fifo` whatever the stack holds, and keep it when their loop takes
nobody. Their call is sound iff the loop takes somebody or the index kept happens to be waiting (`sound_iff_selects`).
In a run of sound calls no context is resumed that was never built (`Built`).
-/

namespace Cs326.Scheduler

variable {algo : Algorithm} {specs : List ProcessSpec} {tr ev : List Event} {m m' : Machine} {s : SchedulerState}
  {inp : Input}

/-- `pid` is a waiting index of the table. -/
def Waits (s : SchedulerState) (pid : Int) : Prop := ∃ i < s.num_processes, pid = i ∧ (s.pcbs i).state = .WAITING

/-- The interrupted process waits again, and `psjf` and `sctf` keep it. -/
def Kept (s : SchedulerState) : Prop :=
  0 < s.current_quantum ∧ s.current_process < s.num_processes ∧ s.current_pcb.state = .WAITING

/-- The algorithm finds somebody, or its initial `pid` is waiting. -/
def Selects (algo : Algorithm) (inp : Input) (s : SchedulerState) : Prop :=
  match algo with
  | .fifo => Selectable s (·.creation_quantum) INT_MAX ∨ Waits s inp.pid
  | .sjf => Selectable s (·.workload) INT_MAX ∨ Waits s 0
  | .psjf => Kept s ∨ Selectable s (·.workload) INT_MAX ∨ Waits s 0
  | .sctf => Kept s ∨ Selectable s ProcessCtlBlock.remaining INT_MAX ∨ Waits s 0
  | .priority => Selectable s (fun p => OrderDual.toDual p.priority) (OrderDual.toDual 0) ∨ Waits s 0
  | .basic => True
  | .rr => True
  | .insanity => True

/-! ## One call -/

/-- The call switches to a waiting index of the table. -/
def SwitchesToWaiting (s : SchedulerState) (c : Call) : Prop := ∀ pid, c = .context_switch pid → Waits s pid

@[simp] theorem switchesToWaiting_switch {pid : Int} : SwitchesToWaiting s (.context_switch pid) ↔ Waits s pid := by
  simp [SwitchesToWaiting]

theorem switchesToWaiting_selectLeast {α : Type*} [LinearOrder α] {key : ProcessCtlBlock → α} {bound : α} {pid : Int} :
    SwitchesToWaiting s (selectLeast s key bound pid) ↔ Selectable s key bound ∨ Waits s pid := by
  by_cases h : Selectable s key bound
  · obtain ⟨i, hi, he, hw, _⟩ := selectLeast_of_selectable pid h
    rw [he, switchesToWaiting_switch]
    constructor
    · intro _
      exact .inl h
    · intro _
      exact ⟨i, hi, rfl, waiting_iff.mp hw⟩
  · rw [selectLeast_of_not_selectable h, switchesToWaiting_switch]
    constructor
    · exact .inr
    · intro hw
      exact hw.resolve_left h

/-- With somebody to take, the loop is not run on the empty table. -/
theorem pos_of_selectable_or_waits {α : Type*} [LinearOrder α] {key : ProcessCtlBlock → α} {bound : α} {pid : Int}
    (h : Selectable s key bound ∨ Waits s pid) : 0 < s.num_processes := by
  rcases h with ⟨i, hi, _⟩ | ⟨i, hi, _⟩ <;> omega

/-- The interrupted process first, then the loop. -/
theorem switchesToWaiting_keep {α : Type*} [LinearOrder α] {key : ProcessCtlBlock → α} {bound : α} {pid : Int}
    (hcur : 0 < s.num_processes → s.current_process < s.num_processes) :
    SwitchesToWaiting s (if 0 < s.current_quantum ∧ s.current_pcb.state = .WAITING then
      .context_switch s.current_process else selectLeast s key bound pid) ↔
      Kept s ∨ Selectable s key bound ∨ Waits s pid := by
  split
  · rename_i hk
    rw [switchesToWaiting_switch]
    constructor
    · rintro ⟨i, hi, he, _⟩
      exact .inl ⟨hk.1, Int.ofNat.inj he ▸ hi, hk.2⟩
    · intro h
      have hlt : s.current_process < s.num_processes := h.elim (·.2.1) fun h => hcur (pos_of_selectable_or_waits h)
      exact ⟨_, hlt, rfl, hk.2⟩
  · rename_i hk
    rw [switchesToWaiting_selectLeast]
    exact ⟨.inr, fun h => h.resolve_left fun h => hk ⟨h.1, h.2.2⟩⟩

/-- The algorithms whose selection loop may take nobody. -/
def Algorithm.Selecting (algo : Algorithm) : Prop :=
  algo = .fifo ∨ algo = .sjf ∨ algo = .psjf ∨ algo = .sctf ∨ algo = .priority

theorem sound_iff_switchesToWaiting {c : Call} (h : algo.run s inp = some c) :
    Sound algo inp s ↔ SwitchesToWaiting s c := by
  unfold Sound SwitchesToWaiting
  rw [h]
  simp only [Option.some.injEq, Waits]

/-- **One call** is sound iff the algorithm finds somebody or its initial `pid` is waiting. Behind `interrupt_handler`
the current process is not running, so the first branch of `fifo` is never taken. -/
theorem sound_iff_selects (ha : algo.Selecting) (hrun : s.current_pcb.state ≠ .RUNNING)
    (hcur : 0 < s.num_processes → s.current_process < s.num_processes) : Sound algo inp s ↔ Selects algo inp s := by
  rcases ha with rfl | rfl | rfl | rfl | rfl
  · rw [sound_iff_switchesToWaiting rfl, fifo, if_neg fun h => hrun h.2]
    exact switchesToWaiting_selectLeast
  · rw [sound_iff_switchesToWaiting rfl]
    exact switchesToWaiting_selectLeast
  · rw [sound_iff_switchesToWaiting rfl]
    exact switchesToWaiting_keep hcur
  · rw [sound_iff_switchesToWaiting rfl]
    exact switchesToWaiting_keep hcur
  · rw [sound_iff_switchesToWaiting rfl]
    exact switchesToWaiting_selectLeast

/-! ## Runs -/

theorem atCall_current_pcb (s : SchedulerState) : (atCall s).current_pcb.state ≠ .RUNNING := by
  intro h
  unfold SchedulerState.current_pcb at h
  rw [atCall_state, atCall_current_process] at h
  split at h
  · cases h
  · rename_i hn; exact hn (.inr ⟨rfl, h⟩)

theorem Reaches.soundCalls_iff (h : Reaches algo specs tr m) (ha : algo.Selecting) :
    SoundCalls algo tr ↔ ∀ c ∈ calls tr, Selects algo c.1 c.2 := by
  refine forall₂_congr fun c hc => ?_
  obtain ⟨_, m', hr, he⟩ := h.of_call hc
  rw [he]
  refine sound_iff_selects ha (atCall_current_pcb _) fun hn => ?_
  rw [atCall_num_processes, hr.num_processes] at hn
  simpa using hr.current_lt (List.length_pos_iff.mp hn)

/-- Whoever can be resumed has a context, and nothing has been resumed without one. -/
structure Built (m : Machine) : Prop where
  context : ∀ i, (m.sstate.pcbs i).state = .WAITING ∨ (m.sstate.pcbs i).state = .RUNNING →
    (m.sstate.pcbs i).context ≠ .zeroed
  main : m.main_ctx ≠ .zeroed
  control : m.control ≠ .undefined

theorem resume_ne_undefined {ctx : Context} (h : ctx ≠ .zeroed) (pid : Nat) : ctx.resume pid ≠ .undefined := by
  cases ctx with
  | zeroed => exact absurd rfl h
  | entry | checkPoint | mainStart | mainLoop => simp [Context.resume]

theorem Built.atCall {i : Nat} (h : Built m) (hw : ((atCall m.sstate).pcbs i).state = .WAITING ∨
    ((atCall m.sstate).pcbs i).state = .RUNNING) : ((atCall m.sstate).pcbs i).context ≠ .zeroed := by
  rw [atCall_context]
  split
  · simp
  · rename_i ha
    apply h.context i
    rw [atCall_state] at hw
    split at hw
    · rename_i hr; exact .inr (hr.resolve_left ha).2
    · exact hw

theorem Calls.ne_zeroed {control : Control} {caller : Context} (h : Calls control caller) : caller ≠ .zeroed := by
  cases h <;> simp

/-- **Every sound step** resumes a context that was built. -/
theorem Built.step (h : Built m) (hs : SoundStep algo m ev m') : Built m' := by
  cases hs with
  | quiet hq =>
    obtain ⟨hmain, _, _, _, _, hctx, hst⟩ := hq.table
    refine ⟨fun i hi => ?_, hmain ▸ h.main, ?_⟩
    · rw [hctx]
      apply h.context i
      rw [hst] at hi
      split at hi
      · rcases hi with hi | hi <;> cases hi
      · exact hi
    · cases hq with
      | terminate => exact resume_ne_undefined h.main _
      | _ => simp
  | ret hc => exact ⟨fun i hi => h.atCall hi, h.main, resume_ne_undefined hc.ne_zeroed _⟩
  | @dispatch inp caller new m' hc _ hn hw hs hsw =>
    obtain ⟨m'', he, _, hcases⟩ := context_switch_valid (m := ⟨Scheduler.atCall m.sstate, m.main_ctx, m.control⟩) caller
      (show new < (Scheduler.atCall m.sstate).num_processes by simpa using hn)
    obtain rfl : m' = m'' := congrArg Prod.fst (hsw.symm.trans he)
    have hold : ∀ i, (m'.sstate.pcbs i).state = .WAITING ∨ (m'.sstate.pcbs i).state = .RUNNING →
        ((Scheduler.atCall m.sstate).pcbs i).context ≠ .zeroed := by
      intro i hi
      rw [hs.state] at hi
      split at hi
      · rename_i hin; exact hin ▸ h.atCall (.inl hw)
      · exact h.atCall hi
    rcases hcases with ⟨_, _, hctl, hmain, hctx⟩ | ⟨_, hctl, hmain, hctx⟩ | ⟨_, _, hctl, hmain, hctx⟩
    · exact ⟨fun i hi => by rw [hctx]; exact hold i hi, hmain ▸ h.main,
        hctl ▸ resume_ne_undefined hc.ne_zeroed _⟩
    · exact ⟨fun i hi => by rw [hctx]; exact hold i hi, hmain ▸ hc.ne_zeroed,
        hctl ▸ resume_ne_undefined (h.atCall (.inl hw)) _⟩
    · refine ⟨fun i hi => ?_, hmain ▸ h.main, hctl ▸ resume_ne_undefined (h.atCall (.inl hw)) _⟩
      rw [hctx]
      split
      · exact hc.ne_zeroed
      · exact hold i hi

theorem built_init (specs : List ProcessSpec) : Built (Machine.init specs) := by
  refine ⟨fun i hi => ?_, by simp [Machine.init], by simp [Machine.init]⟩
  have hst : ((load specs).pcbs i).state = .CREATED := by
    unfold load; dsimp only; split <;> rfl
  rcases hi with hi | hi <;> rw [show (Machine.init specs).sstate = load specs from rfl, hst] at hi <;> cases hi

/-- What a dispatch needs: an index of the table whose process waits and has a context. -/
def Dispatchable (d : Nat × SchedulerState) : Prop :=
  d.1 < d.2.num_processes ∧ (d.2.pcbs d.1).state = .WAITING ∧ (d.2.pcbs d.1).context ≠ .zeroed

/-- **Runs of sound calls** dispatch waiting processes with a context only. -/
theorem Reaches.dispatchable (h : Reaches algo specs tr m) (hsound : SoundCalls algo tr) :
    Built m ∧ ∀ d ∈ dispatches tr, Dispatchable d := by
  refine Run.invariant_of_prefix (P := SoundCalls algo) (I := fun tr m => Built m ∧ ∀ d ∈ dispatches tr, Dispatchable d)
    (fun _ _ => SoundCalls.left) (fun _ => ⟨built_init specs, fun d hd => by cases hd⟩) ?_ h hsound
  intro tr m ev m' hI hs hP
  have hss := soundStep_of_step hs hP.right
  refine ⟨hI.1.step hss, fun d hd => ?_⟩
  rw [dispatches_append, List.mem_append] at hd
  rcases hd with hd | hd
  · exact hI.2 d hd
  cases hss with
  | quiet hq => rw [hq.silent.2.1] at hd; cases hd
  | ret => rw [dispatches_callEvents] at hd; cases hd
  | dispatch _ _ hn hw =>
    rw [dispatches_append, dispatches_callEvents, List.nil_append] at hd
    obtain rfl := List.mem_singleton.mp hd
    exact ⟨by simpa using hn, hw, hI.1.atCall (.inl hw)⟩

/-- **Only waiting processes are dispatched** iff every call of the run finds somebody to take. Then no context is
resumed that was never built, and while `current_quantum` does not wrap a terminated process stays terminated. -/
theorem waiting_dispatched (ha : algo.Selecting) (h : Reaches algo specs tr m) :
    (SoundCalls algo tr ↔ ∀ c ∈ calls tr, Selects algo c.1 c.2) ∧
    ((∀ c ∈ calls tr, Selects algo c.1 c.2) → m.control ≠ .undefined ∧ (∀ d ∈ dispatches tr, Dispatchable d) ∧
      (quanta tr < 2 ^ 32 → ∀ tr₁ tr₂ m₁, Reaches algo specs tr₁ m₁ → Run (Step algo) m₁ tr₂ m → tr = tr₁ ++ tr₂ →
        ∀ i < specs.length, (m₁.sstate.pcbs i).state = .TERMINATED → (m.sstate.pcbs i).state = .TERMINATED)) := by
  refine ⟨h.soundCalls_iff ha, fun hsel => ?_⟩
  have hsound := (h.soundCalls_iff ha).mpr hsel
  obtain ⟨hb, hd⟩ := h.dispatchable hsound
  refine ⟨hb.control, hd, fun hq tr₁ tr₂ m₁ h₁ h₂ he i hi hT => ?_⟩
  subst he
  have hne : specs ≠ [] := List.length_pos_iff.mp (Nat.lt_of_le_of_lt (Nat.zero_le _) hi)
  exact (h₁.inv hne (quanta_lt_of_append _ _ hq) hsound.left).terminated_run h₂ hq hsound.right hT

/-- Before the only process is created, each of the algorithms switches to it and resumes nothing. -/
theorem created_dispatched :
    ¬∃ algo : Algorithm, algo.Selecting ∧ ∀ tr m, Reaches algo [⟨"Process_A", 1, 10, 60⟩] tr m →
      SoundCalls algo tr ∨ (∀ d ∈ dispatches tr, (d.2.pcbs d.1).state ≠ .CREATED) ∨ m.control ≠ .undefined := by
  rintro ⟨algo, ha, h⟩
  have hs : ∃ tr m, Reaches algo [⟨"Process_A", 1, 10, 60⟩] tr m ∧
      (∃ d ∈ dispatches tr, (d.2.pcbs d.1).state = .CREATED) ∧ m.control = .undefined := by
    rcases ha with rfl | rfl | rfl | rfl | rfl <;>
      exact ⟨_, _, Run.single ⟨⟨false, [], 0⟩, rfl⟩, ⟨_, List.mem_singleton.mpr rfl, rfl⟩, rfl⟩
  obtain ⟨tr, m, hr, ⟨d, hd, hst⟩, hu⟩ := hs
  rcases h tr m hr with hsound | hno | hctl
  · exact (hr.dispatchable hsound).1.control hu
  · exact hno d hd hst
  · exact hctl hu

/-- A process that arrives at the first interrupt is dispatched before the one that was interrupted. -/
theorem waiting_dispatched_two :
    ∃ tr m, Reaches .priority [⟨"A", 0, 1, 7⟩, ⟨"B", 1, 1, 9⟩] tr m ∧ (dispatches tr).map (·.1) = [0, 1] ∧
      m.control ≠ .undefined ∧ ∀ d ∈ dispatches tr, Dispatchable d := by
  let inps : List Input := [⟨false, [], 0⟩, ⟨false, [], 0⟩, ⟨true, [], 0⟩]
  have hr : Reaches .priority [⟨"A", 0, 1, 7⟩, ⟨"B", 1, 1, 9⟩] _ _ := @run_of_exec .priority inps _ _ _ rfl
  have hsel := (waiting_dispatched (by simp [Algorithm.Selecting]) hr).2 fun c hc => by
    rcases List.mem_cons.mp hc with rfl | hc
    · exact .inl ⟨0, by decide, rfl, by decide⟩
    · obtain rfl := List.mem_singleton.mp hc
      exact .inl ⟨1, by decide, rfl, by decide⟩
  exact ⟨_, _, hr, rfl, hsel.1, hsel.2.1⟩

end Cs326.Scheduler
