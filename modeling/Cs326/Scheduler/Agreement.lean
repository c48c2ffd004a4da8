import Cs326.Scheduler.Order
import Cs326.Scheduler.Shortest

/-!
# `sjf`, `psjf` and `sctf` agree when all processes arrive at once

When every creation quantum is `0` no process arrives at an interrupt. The process that runs is then the shortest one
left, and nobody but it has worked (`Simultaneous`), so keeping it, looking for the least workload and looking for the
least remaining work all take the same process (`Simultaneous.call`), and the three runs are one (`exec_congr`).
-/

namespace Cs326.Scheduler

variable {algo algo' : Algorithm} {specs : List ProcessSpec} {tr ev : List Event} {m m' : Machine}
  {s : SchedulerState} {inp : Input} {caller : Context} {i j : Nat}

/-- `i` comes before `j` in the order of `(workload, index)`. -/
def Shorter (specs : List ProcessSpec) (i j : Nat) : Prop :=
  ((load specs).pcbs i).workload < ((load specs).pcbs j).workload ∨
    ((load specs).pcbs i).workload = ((load specs).pcbs j).workload ∧ i < j

theorem Shorter.asymm (h : Shorter specs i j) : ¬Shorter specs j i := by
  unfold Shorter at *; omega

/-- `sjf`, `psjf` and `sctf`. -/
def Algorithm.ShortestJob (algo : Algorithm) : Prop := algo = .sjf ∨ algo = .psjf ∨ algo = .sctf

/-- Every process is created at quantum `0`, with a workload that the loop can take. -/
structure AtOnce (specs : List ProcessSpec) : Prop where
  creation : ∀ p ∈ specs, p.creation_quantum = 0
  workload : ∀ p ∈ specs, p.workload.toNat < INT_MAX

theorem AtOnce.load (h : AtOnce specs) (hi : i < specs.length) :
    ((load specs).pcbs i).creation_quantum = 0 ∧ ((load specs).pcbs i).workload < INT_MAX := by
  have hmem := List.getElem_mem hi
  unfold Scheduler.load
  simp only [List.getElem?_eq_getElem hi]
  exact ⟨by rw [h.creation _ hmem]; rfl, h.workload _ hmem⟩

/-! ## One call -/

/-- Keys that agree on the waiting processes select the same one. -/
theorem selectLeast_congr {key key' : ProcessCtlBlock → Nat} {bound : Nat} (pid : Int)
    (h : ∀ j < s.num_processes, (s.pcbs j).state = .WAITING → key (s.pcbs j) = key' (s.pcbs j)) :
    selectLeast s key bound pid = selectLeast s key' bound pid := by
  have hsel : Selectable s key bound ↔ Selectable s key' bound := by
    refine exists_congr fun j => and_congr_right fun hj => and_congr_right fun hw => ?_
    rw [h j hj (waiting_iff.mp hw)]
  by_cases hs : Selectable s key bound
  · obtain ⟨i, hi, _, he⟩ := least_of_selectable pid hs
    obtain ⟨i', hi', _, he'⟩ := least_of_selectable pid (hsel.mp hs)
    have hleast : Least s key' i := by
      refine ⟨hi.1, hi.2.1, fun j hj hw => ?_⟩
      rw [← h i hi.1 hi.2.1, ← h j hj hw]
      exact hi.2.2 j hj hw
    rw [he, he', hleast.unique hi']
  · rw [selectLeast_of_not_selectable hs, selectLeast_of_not_selectable fun hs' => hs (hsel.mpr hs')]

/-- What holds in a run with no late arrival. -/
structure Simultaneous (specs : List ProcessSpec) (tr : List Event) (m : Machine) : Prop where
  order : OrderInv (Shorter specs) specs tr m
  /-- Nobody but the running process has work behind and before it. -/
  fresh : ∀ i < specs.length, (m.sstate.pcbs i).state ≠ .RUNNING → (m.sstate.pcbs i).state ≠ .TERMINATED →
    (m.sstate.pcbs i).executed_work = 0
  someone : m.control = .mainLoop → ∃ i < specs.length, (m.sstate.pcbs i).state ≠ .TERMINATED

/-- At a call everybody who has not terminated waits. -/
theorem CallInv.waiting_of_atOnce {k : Nat} {main_ctx : Context} (h : CallInv specs k caller main_ctx s)
    (hall : AtOnce specs) (hi : i < specs.length) (hT : (s.pcbs i).state ≠ .TERMINATED) :
    (s.pcbs i).state = .WAITING := by
  refine ProcessState.eq_waiting (fun hcr => ?_) (h.idle i hi) hT
  have hle := (h.table.created i hi).mp hcr
  rw [h.table.creation_quantum, (hall.load hi).1] at hle
  omega

/-- The shortest process that waits comes before everybody else. -/
theorem Least.earliest {k : Nat} {main_ctx : Context} (hl : Least s (·.workload) i)
    (h : CallInv specs k caller main_ctx s) (hall : AtOnce specs) : Earliest (Shorter specs) specs.length s i := by
  intro j hj hne hT
  have hle := hl.2.2 j (h.table.num ▸ hj) (h.waiting_of_atOnce hall hj hT)
  dsimp only at hle
  unfold Shorter
  rw [← h.table.load_workload, ← h.table.load_workload]
  omega

/-- A workload is below the bound that the loops start from. -/
theorem CallInv.selectable_of_atOnce {k : Nat} {main_ctx : Context} (h : CallInv specs k caller main_ctx s)
    (hall : AtOnce specs) (hi : i < specs.length) (hw : (s.pcbs i).state = .WAITING) :
    Selectable s (·.workload) INT_MAX :=
  ⟨i, h.table.num ▸ hi, waiting_iff.mpr hw, by dsimp only; rw [h.table.load_workload]; exact (hall.load hi).2⟩

/-- At the next call the three algorithms take the shortest process, and nobody else runs. -/
def TakesShortest (specs : List ProcessSpec) (m : Machine) : Prop :=
  ∃ i, Least (atCall m.sstate) (·.workload) i ∧
    (∀ j < specs.length, (m.sstate.pcbs j).state = .RUNNING → j = i) ∧
    ∀ (algo : Algorithm) (inp : Input), algo.ShortestJob → algo.run (atCall m.sstate) inp = some (.context_switch i)

/-- `main` calls, so nobody is interrupted and nobody who waits has worked. -/
theorem Simultaneous.call_main (h : Simultaneous specs tr m) (hinv : Inv specs tr m) (hall : AtOnce specs)
    (hm : m.control = .mainLoop) : TakesShortest specs m := by
  have hcall : CallInv specs (quanta tr) .mainLoop m.main_ctx (atCall m.sstate) := hinv.toCall (hm ▸ .main)
  have hctl := hinv.control
  simp only [ControlInv, hm] at hctl
  have hnum := hinv.table.num
  obtain ⟨w, hw, hwT⟩ := h.someone hm
  have hww : ((atCall m.sstate).pcbs w).state = .WAITING := by
    apply hcall.waiting_of_atOnce hall hw
    rw [atCall_state]
    split
    · simp
    · exact hwT
  have hnotkept : ¬(0 < (atCall m.sstate).current_quantum ∧ (atCall m.sstate).current_pcb.state = .WAITING) := by
    rintro ⟨hpos, hcw⟩
    rcases hcall.origin with ⟨_, h0 | hT⟩ | ⟨_, _, hcaller, _⟩
    · omega
    · exact absurd (hcw.symm.trans hT) (by simp)
    · cases hcaller
  have hkey : ∀ j < (atCall m.sstate).num_processes, ((atCall m.sstate).pcbs j).state = .WAITING →
      ((atCall m.sstate).pcbs j).remaining = ((atCall m.sstate).pcbs j).workload := by
    intro j hj hwj
    have hj' : j < specs.length := hcall.table.num ▸ hj
    have hT : (m.sstate.pcbs j).state ≠ .TERMINATED := fun hT => by
      rw [hinv.terminated_atCall hT] at hwj
      cases hwj
    have hzero := h.fresh j hj' (hctl.idle j (hnum ▸ hj')) hT
    have hlt := (hall.load hj').2
    unfold ProcessCtlBlock.remaining
    rw [atCall_executed_work, hzero, hcall.table.load_workload]
    unfold INT_MAX at hlt
    omega
  obtain ⟨i, hi, _, he⟩ := least_of_selectable 0 (hcall.selectable_of_atOnce hall hw hww)
  refine ⟨i, hi, fun j hj hrun => absurd hrun (hctl.idle j (hnum ▸ hj)), ?_⟩
  rintro algo inp (rfl | rfl | rfl)
  · exact congrArg some he
  · simp only [Algorithm.run, psjf, if_neg hnotkept, he]
  · simp only [Algorithm.run, sctf, if_neg hnotkept, selectLeast_congr 0 hkey, he]

/-- A process is interrupted, and it is the shortest one. -/
theorem Simultaneous.call_interrupt (h : Simultaneous specs tr m) (hinv : Inv specs tr m) (hall : AtOnce specs)
    {pid k : Nat} (hm : m.control = .checkPoint pid k) : TakesShortest specs m := by
  have hcall : CallInv specs (quanta tr) (.checkPoint pid k) m.main_ctx (atCall m.sstate) :=
    hinv.toCall (hm ▸ .process pid k)
  have hnum := hcall.table.num
  have hcur : (atCall m.sstate).current_process < specs.length := hcall.table.current
  have hrun : (m.sstate.pcbs m.sstate.current_process).state = .RUNNING := by
    have hctl := hinv.control
    simp only [ControlInv, hm] at hctl
    exact hctl.1.current ▸ hctl.1.running
  obtain ⟨hpos, hwait⟩ : 0 < (atCall m.sstate).current_quantum ∧ (atCall m.sstate).current_pcb.state = .WAITING := by
    rcases hcall.origin with ⟨hcaller, _⟩ | ⟨_, _, _, hpos, hwait, _⟩
    · cases hcaller
    · exact ⟨hpos, hwait⟩
  have hleast : Least (atCall m.sstate) (·.workload) (atCall m.sstate).current_process := by
    refine ⟨hnum ▸ hcur, hwait, fun j hj hwj => ?_⟩
    by_cases hjc : j = (atCall m.sstate).current_process
    · exact .inr ⟨by rw [hjc], Nat.le_of_eq hjc.symm⟩
    · rw [atCall_current_process] at hjc ⊢
      have hT : (m.sstate.pcbs j).state ≠ .TERMINATED := fun hT => by
        rw [hinv.terminated_atCall hT] at hwj
        cases hwj
      have hs := h.order.first hrun j (hnum ▸ hj) hjc hT
      unfold Shorter at hs
      rw [← hcall.table.load_workload, ← hcall.table.load_workload] at hs
      dsimp only
      omega
  obtain ⟨i, hi, _, he⟩ := least_of_selectable 0 (hcall.selectable_of_atOnce hall hcur hwait)
  obtain rfl := hleast.unique hi
  refine ⟨_, hleast, fun j hj hrun => (hinv.single j hj hrun).trans (atCall_current_process _).symm, ?_⟩
  rintro algo inp (rfl | rfl | rfl)
  · exact congrArg some he
  · simp only [Algorithm.run, psjf, if_pos (And.intro hpos hwait)]
  · simp only [Algorithm.run, sctf, if_pos (And.intro hpos hwait)]

/-- **One call**: the three algorithms take the shortest process, which is the interrupted one if there is one. -/
theorem Simultaneous.call (h : Simultaneous specs tr m) (hinv : Inv specs tr m) (hall : AtOnce specs)
    (hc : Calls m.control caller) : TakesShortest specs m := by
  cases hm : m.control <;> rw [hm] at hc <;> cases hc
  · exact h.call_main hinv hall hm
  · exact h.call_interrupt hinv hall hm

/-! ## Runs -/

theorem Simultaneous.quiet (h : Simultaneous specs tr m) (hinv : Inv specs tr m) (hq : Quiet m ev m') :
    Simultaneous specs (tr ++ ev) m' := by
  have hctl := hinv.control
  refine ⟨h.order.quiet hinv hq, ?_, ?_⟩
  · cases hq with
    | terminate =>
      intro i hi hR hT
      simp only [setState_state, setState_executed_work] at *
      split at hT
      · exact absurd rfl hT
      · rename_i hne
        rw [if_neg hne] at hR
        exact h.fresh i hi hR hT
    | @unit s c pid t =>
      intro i hi hR hT
      simp only [incWork_state, incWork_executed_work] at *
      have hne : i ≠ pid := fun hip => hR (hip ▸ hctl.1.running)
      rw [if_neg hne]
      exact h.fresh i hi hR hT
    | loop | finish | work | pass | next => exact h.fresh
  · cases hq with
    | loop hno =>
      intro _
      by_contra hall
      push Not at hall
      have hpos := Nat.lt_of_le_of_lt (Nat.zero_le _) (hinv.table.num ▸ hinv.table.current)
      refine hno ⟨hpos, List.all_eq_true.mpr fun i hi => ?_⟩
      have := hall i (hinv.table.num ▸ List.mem_range.mp hi)
      simpa using this
    | @terminate s c pid =>
      intro hm
      obtain rfl : c = .mainLoop := hctl.main
      cases hm
    | unit | finish | work | pass | next =>
      intro hm
      cases hm

theorem Simultaneous.step (h : Simultaneous specs tr m) (hinv : Inv specs tr m) (hinv' : Inv specs (tr ++ ev) m')
    (halgo : algo.ShortestJob) (hall : AtOnce specs) (hs : SoundStep algo m ev m') :
    Simultaneous specs (tr ++ ev) m' := by
  cases hs with
  | quiet hq => exact h.quiet hinv hq
  | @ret inp caller hc hret =>
    obtain ⟨i, _, _, hrun⟩ := h.call hinv hall hc
    rw [hrun algo inp halgo] at hret
    cases hret
  | @dispatch inp caller new m' hc hpid hnew hw hsw =>
    obtain ⟨i, hi, hsingle, hrun⟩ := h.call hinv hall hc
    obtain rfl : i = new := by
      rw [hrun algo inp halgo] at hpid
      exact Int.ofNat.inj (Call.context_switch.inj (Option.some.inj hpid))
    have hnew : i < specs.length := hinv.table.num ▸ hnew
    refine ⟨h.order.dispatch hinv hc (fun _ _ => Shorter.asymm) hnew hw (hi.earliest (hinv.toCall hc) hall) hsw,
      fun j hj hR hT => ?_, fun hm => ?_⟩
    · have hne : j ≠ i := fun hji => hR (by rw [hsw.state, if_pos hji])
      rw [hsw.state, if_neg hne] at hR hT
      rw [hsw.work, atCall_executed_work]
      -- whoever was running is dispatched again
      exact h.fresh j hj (fun hrun' => hne (hsingle j hj hrun')) fun hT' => hT (hinv.terminated_atCall hT')
    · have hctl := hinv'.control
      simp only [ControlInv, hm] at hctl
      exact absurd (by rw [hsw.state, if_pos rfl]) (hctl.idle i (hinv'.table.num ▸ hnew))

theorem simultaneous_init (hne : specs ≠ []) : Simultaneous specs [] (Machine.init specs) := by
  have hcreated : ∀ i, ((load specs).pcbs i).state = .CREATED ∧ ((load specs).pcbs i).executed_work = 0 := by
    intro i
    unfold load
    dsimp only
    split <;> exact ⟨rfl, rfl⟩
  refine ⟨orderInv_init hne, fun i _ _ _ => (hcreated i).2, fun _ => ⟨0, List.length_pos_iff.mpr hne, ?_⟩⟩
  rw [show (Machine.init specs).sstate = load specs from rfl, (hcreated 0).1]
  simp

/-- The calls of a step from such a machine are sound. -/
theorem Simultaneous.sound (h : Simultaneous specs tr m) (hinv : Inv specs tr m) (halgo : algo.ShortestJob)
    (hall : AtOnce specs) (hs : Step algo m ev m') : SoundCalls algo ev := by
  intro c hc
  obtain ⟨inp, hs⟩ := hs
  obtain rfl := step_calls hs c hc
  rcases step_cases hs with ⟨caller, hcalls, _⟩ | hq
  · obtain ⟨i, hi, _, hrun⟩ := h.call hinv hall hcalls
    intro pid hpid
    rw [hrun algo inp halgo] at hpid
    obtain rfl := Call.context_switch.inj (Option.some.inj hpid)
    exact ⟨i, hi.1, rfl, hi.2.1⟩
  · rw [hq.silent.1] at hc
    cases hc

theorem Reaches.simultaneous (h : Reaches algo specs tr m) (hne : specs ≠ []) (halgo : algo.ShortestJob)
    (hall : AtOnce specs) (hq : quanta tr < 2 ^ 32) : Inv specs tr m ∧ Simultaneous specs tr m := by
  refine Run.invariant_of_prefix (P := fun tr => quanta tr < 2 ^ 32)
    (I := fun tr m => Inv specs tr m ∧ Simultaneous specs tr m) (fun a b => quanta_lt_of_append a b)
    (fun _ => ⟨inv_init hne, simultaneous_init hne⟩) ?_ h hq
  rintro tr m ev m' ⟨hinv, hsim⟩ hs hq
  have hss := soundStep_of_step hs (hsim.sound hinv halgo hall hs)
  have hinv' := hinv.step hss hq
  exact ⟨hinv', hsim.step hinv hinv' halgo hall hss⟩

/-- The empty table: the first call switches to index `0`, which fails an assertion. -/
theorem Reaches.empty (h : Reaches algo [] tr m) (halgo : algo.ShortestJob) :
    tr = [] ∧ m = Machine.init [] ∨ terminated tr = [] ∧ m.control = .undefined := by
  refine Run.invariant (I := fun tr m => tr = [] ∧ m = Machine.init [] ∨ terminated tr = [] ∧ m.control = .undefined)
    (.inl ⟨rfl, rfl⟩) ?_ h
  rintro tr m ev m' hI ⟨inp, hs⟩
  rcases hI with ⟨rfl, rfl⟩ | ⟨_, hctl⟩
  · right
    rcases halgo with rfl | rfl | rfl <;> obtain ⟨rfl, rfl⟩ := Prod.mk.inj (Option.some.inj hs) <;> exact ⟨rfl, rfl⟩
  · unfold Scheduler.step at hs
    rw [hctl] at hs
    cases hs

/-- **Every call of the run** has the same result under the three algorithms. -/
theorem Reaches.shortest_call (h : Reaches algo specs tr m) (halgo : algo.ShortestJob) (hall : AtOnce specs)
    (hq : quanta tr < 2 ^ 32) (hc : Calls m.control caller) : ∃ i : Nat, ∀ (algo' : Algorithm) (inp : Input),
      algo'.ShortestJob → algo'.run (atCall m.sstate) inp = some (.context_switch i) := by
  by_cases hne : specs = []
  · subst hne
    rcases h.empty halgo with ⟨_, rfl⟩ | ⟨_, hctl⟩
    · refine ⟨0, ?_⟩
      rintro algo' inp (rfl | rfl | rfl) <;> rfl
    · rw [hctl] at hc
      cases hc
  · obtain ⟨hinv, hsim⟩ := h.simultaneous hne halgo hall hq
    obtain ⟨i, _, _, hrun⟩ := hsim.call hinv hall hc
    exact ⟨i, hrun⟩

/-! ## Two runs in lock step -/

theorem interrupt_handler_congr (h : algo.run (atCall m.sstate) inp = algo'.run (atCall m.sstate) inp) :
    interrupt_handler algo inp caller m = interrupt_handler algo' inp caller m := by
  unfold atCall at h
  unfold interrupt_handler
  dsimp only
  rw [h]

/-- A step depends on the algorithm in the call it makes. -/
theorem step_congr (h : ∀ caller, Calls m.control caller →
    algo.run (atCall m.sstate) inp = algo'.run (atCall m.sstate) inp) : step algo inp m = step algo' inp m := by
  obtain ⟨s, c, control⟩ := m
  cases control with
  | mainLoop => exact interrupt_handler_congr (h _ .main)
  | checkPoint pid i =>
    unfold step
    dsimp only
    rw [interrupt_handler_congr (h _ (.process pid i))]
  | mainCheck | loopTest | afterCheck | finished | undefined => rfl

/-- **The lock step.** -/
theorem exec_congr (halgo : algo.ShortestJob) (halgo' : algo'.ShortestJob) (hall : AtOnce specs) {inps : List Input}
    {tr' : List Event} (h : Reaches algo specs tr m) (he : exec algo inps m = some (tr', m'))
    (hq : quanta (tr ++ tr') < 2 ^ 32) : exec algo' inps m = some (tr', m') := by
  induction inps generalizing tr tr' m with
  | nil => exact he
  | cons inp inps ih =>
    have hstep : step algo inp m = step algo' inp m := by
      refine step_congr fun caller hc => ?_
      obtain ⟨i, hrun⟩ := h.shortest_call halgo hall (quanta_lt_of_append _ _ hq) hc
      rw [hrun algo inp halgo, hrun algo' inp halgo']
    obtain ⟨m₁, ev, tr₂, hs, hr, rfl⟩ := exec_cons.mp he
    have h₁ : Reaches algo specs (tr ++ ev) m₁ := h.snoc ⟨inp, hs⟩
    exact exec_cons.mpr ⟨m₁, ev, tr₂, hstep ▸ hs, ih h₁ hr (by rwa [List.append_assoc]), rfl⟩

/-- A process that has been dispatched is dispatched until it terminates. -/
theorem Reaches.nonPreemptive_of_atOnce (h : Reaches algo specs tr m) (halgo : algo.ShortestJob) (hall : AtOnce specs)
    (hq : quanta tr < 2 ^ 32) : NonPreemptive tr := by
  intro a p inp s c he hu
  have hq₁ : quanta a < 2 ^ 32 := by
    rw [he] at hq
    exact quanta_lt_of_append _ _ hq
  obtain ⟨tr₁, l, m₁, caller, rfl, h₁, hc, rfl, hn, hd⟩ := h.at_call he
  obtain ⟨hu, _⟩ := hu.append.resolve_right fun ⟨s, hs⟩ => by simp at hs
  -- the process was dispatched, so the table is not empty
  obtain ⟨a', s', b', rfl, hno⟩ := id hu
  obtain ⟨_, _, _, _, hp⟩ := h₁.at_dispatch rfl
  have hne : specs ≠ [] := List.length_pos_iff.mp (Nat.lt_of_le_of_lt (Nat.zero_le _) hp)
  obtain ⟨hinv, hsim⟩ := h₁.simultaneous hne halgo hall (quanta_lt_of_append _ _ hq₁)
  obtain ⟨i, hi, hsingle, hrun⟩ := hsim.call hinv hall hc
  refine (hd i (hrun algo inp halgo) p).mpr ⟨hp, ?_⟩
  have hT : (m₁.sstate.pcbs p).state ≠ .TERMINATED := by
    rcases h₁.live hu with hw | ⟨hr, _⟩
    · rw [hw]
      simp
    · rw [hr]
      simp
  obtain ⟨_, hr⟩ := hsim.order.running hinv hc (by simp [dispatches]) hT
  rw [hsingle p hp hr]

/-- **`sjf`, `psjf` and `sctf` agree on simultaneous arrivals.** -/
theorem shortest_agree (halgo : algo.ShortestJob) (halgo' : algo'.ShortestJob)
    (hcreation : ∀ p ∈ specs, p.creation_quantum = 0) (hworkload : ∀ p ∈ specs, p.workload.toNat < 2 ^ 31 - 1)
    {inps : List Input} (h : exec algo inps (Machine.init specs) = some (tr, m)) (hq : quanta tr < 2 ^ 32) :
    exec algo' inps (Machine.init specs) = some (tr, m) ∧
      (∀ c ∈ calls tr, ∃ pid : Nat, algo.run c.2 c.1 = some (.context_switch pid) ∧
        algo'.run c.2 c.1 = some (.context_switch pid)) ∧
      NonPreemptive tr ∧ (terminated tr).Pairwise (Shorter specs) := by
  have hall : AtOnce specs := ⟨hcreation, hworkload⟩
  have hr : Reaches algo specs tr m := run_of_exec h
  refine ⟨exec_congr halgo halgo' hall Run.nil h hq, ?_, hr.nonPreemptive_of_atOnce halgo hall hq, ?_⟩
  · intro k hk
    obtain ⟨a, c, he⟩ := mem_calls.mp hk
    obtain ⟨tr₁, l, m₁, caller, rfl, h₁, hc, hs, _⟩ := hr.at_call he
    have hq₁ : quanta tr₁ < 2 ^ 32 := by
      rw [he, List.append_assoc] at hq
      exact quanta_lt_of_append _ _ hq
    obtain ⟨i, hrun⟩ := h₁.shortest_call halgo hall hq₁ hc
    rw [hs]
    exact ⟨i, hrun _ _ halgo, hrun _ _ halgo'⟩
  · by_cases hne : specs = []
    · subst hne
      rcases hr.empty halgo with ⟨rfl, _⟩ | ⟨ht, _⟩
      · exact .nil
      · rw [ht]
        exact .nil
    · exact (hr.simultaneous hne halgo hall hq).2.order.order

/-- Two processes, the second one shorter, with an interrupt. -/
theorem shortest_agree_two :
    ∃ inps tr m, exec .sctf inps (Machine.init [⟨"A", 0, 1, 0⟩, ⟨"B", 0, 0, 0⟩]) = some (tr, m) ∧
      (dispatches tr).map Prod.fst = [1, 0, 0] ∧
      exec .sjf inps (Machine.init [⟨"A", 0, 1, 0⟩, ⟨"B", 0, 0, 0⟩]) = some (tr, m) ∧ NonPreemptive tr := by
  let inps : List Input := List.replicate 5 ⟨false, [], 0⟩ ++ [⟨true, [], 0⟩]
  have h : exec .sctf inps (Machine.init [⟨"A", 0, 1, 0⟩, ⟨"B", 0, 0, 0⟩]) = some (_, _) := rfl
  have hsjf : Algorithm.sjf.ShortestJob := .inl rfl
  obtain ⟨he, _, hn, _⟩ := shortest_agree (.inr (.inr rfl)) hsjf (by decide) (by decide) h (by decide)
  exact ⟨inps, _, _, h, by decide, he, hn⟩

end Cs326.Scheduler
