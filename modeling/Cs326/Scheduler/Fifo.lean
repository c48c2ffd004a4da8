import Cs326.Scheduler.Dispatch
import Cs326.Scheduler.Order

/-!
# `fifo` serves the processes in their order

The test of `fifo` for a running process never holds (`atCall_current_pcb`), and still the algorithm preempts nobody:
whoever is current comes before everybody else who has not terminated, waiting or still to arrive (`FifoInv.first`),
so the selection loop takes it again.
-/

namespace Cs326.Scheduler

variable {specs : List ProcessSpec} {tr ev : List Event} {m m' : Machine} {s s' : SchedulerState} {inp : Input}
  {caller main_ctx : Context} {k new : Nat}

/-- `i` comes before `j` in the order of `(creation_quantum, index)`. -/
def Earlier (specs : List ProcessSpec) (i j : Nat) : Prop :=
  ((load specs).pcbs i).creation_quantum < ((load specs).pcbs j).creation_quantum ∨
    ((load specs).pcbs i).creation_quantum = ((load specs).pcbs j).creation_quantum ∧ i < j

theorem Earlier.asymm {i j : Nat} (h : Earlier specs i j) : ¬Earlier specs j i := by
  unfold Earlier at *; omega

/-- Every call of the run finds somebody waiting. -/
def SomeoneWaits (tr : List Event) : Prop := ∀ c ∈ calls tr, ∃ i < c.2.num_processes, (c.2.pcbs i).state = .WAITING

theorem SomeoneWaits.left {a b : List Event} (h : SomeoneWaits (a ++ b)) : SomeoneWaits a :=
  fun c hc => h c (by simp [hc])

theorem SomeoneWaits.right {a b : List Event} (h : SomeoneWaits (a ++ b)) : SomeoneWaits b :=
  fun c hc => h c (by simp [hc])

/-! ## One call -/

/-- Who waits was created by now, so the loop can take it. -/
theorem CallInv.selectable (h : CallInv specs k caller main_ctx s) (hk : k < INT_MAX) {i : Nat}
    (hi : i < s.num_processes) (hw : (s.pcbs i).state = .WAITING) : Selectable s (·.creation_quantum) INT_MAX := by
  refine ⟨i, hi, waiting_iff.mpr hw, ?_⟩
  have := h.table.state_ne_created (h.table.num ▸ hi) (by rw [hw]; simp)
  dsimp only
  omega

/-- `fifo` takes the earliest of all processes that have not terminated. -/
theorem CallInv.fifo_earliest (h : CallInv specs k caller main_ctx s) (hk : k < INT_MAX)
    (hrun : s.current_pcb.state ≠ .RUNNING) (hw : ∃ i < s.num_processes, (s.pcbs i).state = .WAITING)
    (hsw : Algorithm.run s inp .fifo = some (.context_switch new)) :
    ∀ j < specs.length, j ≠ new → (s.pcbs j).state ≠ .TERMINATED → Earlier specs new j := by
  obtain ⟨w, hw, hwait⟩ := hw
  obtain ⟨i, hi, he, hwi, _, hmin⟩ := selectLeast_of_selectable inp.pid (h.selectable hk hw hwait)
  have hsw' : fifo s inp.pid = .context_switch new := Option.some.inj hsw
  rw [fifo, if_neg fun h => hrun h.2, he] at hsw'
  obtain rfl : i = new := Int.ofNat.inj (Call.context_switch.inj hsw')
  have hci := h.table.state_ne_created (h.table.num ▸ hi) (by rw [waiting_iff.mp hwi]; simp)
  intro j hj hne hT
  unfold Earlier
  rw [← h.table.creation_quantum, ← h.table.creation_quantum]
  by_cases hcr : (s.pcbs j).state = .CREATED
  · have := (h.table.created j hj).mp hcr
    omega
  · have hwj : (s.pcbs j).state = .WAITING := ProcessState.eq_waiting hcr (h.idle j hj) hT
    have := hmin j (h.table.num ▸ hj) (waiting_iff.mpr hwj)
    omega

/-- With somebody waiting the calls of `fifo` are sound. -/
theorem Reaches.fifo_sound (h : Reaches .fifo specs tr m) (hne : specs ≠ []) (hq : quanta tr < INT_MAX)
    (hw : SomeoneWaits tr) : Inv specs tr m ∧ SoundCalls .fifo tr := by
  refine Run.invariant_of_prefix (P := fun tr => quanta tr < INT_MAX ∧ SomeoneWaits tr)
    (I := fun tr m => Inv specs tr m ∧ SoundCalls .fifo tr) (fun a b hab => ⟨quanta_lt_of_append a b hab.1, hab.2.left⟩)
    (fun _ => ⟨inv_init hne, fun c hc => by cases hc⟩) ?_ h ⟨hq, hw⟩
  intro tr m ev m' hI hs hP
  have hev : SoundCalls .fifo ev := by
    intro c hc
    obtain ⟨inp, hs⟩ := hs
    obtain rfl := step_calls hs c hc
    rcases step_cases hs with ⟨caller, hcalls, _⟩ | hquiet
    · obtain ⟨i, hi, hwi⟩ := hP.2.right _ hc
      have hcall := hI.1.toCall hcalls
      have hk : quanta tr < INT_MAX := quanta_lt_of_append _ _ hP.1
      refine (sound_iff_selects (.inl rfl) (atCall_current_pcb _) fun _ => ?_).mpr (.inl (hcall.selectable hk hi hwi))
      rw [hcall.table.num]
      exact hcall.table.current
    · rw [hquiet.silent.1] at hc; cases hc
  have hsound : SoundCalls .fifo (tr ++ ev) := by
    intro c hc
    rw [calls_append, List.mem_append] at hc
    exact hc.elim (hI.2 c) (hev c)
  refine ⟨hI.1.step (soundStep_of_step hs hev) (hP.1.trans ?_), hsound⟩
  decide

/-! ## Runs -/

/-- The order in which the processes are served. -/
structure FifoInv (specs : List ProcessSpec) (tr : List Event) (m : Machine) : Prop where
  served : ∀ p ∈ (dispatches tr).map Prod.fst, p = m.sstate.current_process ∨ (m.sstate.pcbs p).state = .TERMINATED
  /-- The running process comes before everybody else who has not terminated. -/
  first : (m.sstate.pcbs m.sstate.current_process).state = .RUNNING → ∀ j < specs.length,
    j ≠ m.sstate.current_process → (m.sstate.pcbs j).state ≠ .TERMINATED → Earlier specs m.sstate.current_process j
  order : (terminated tr).Pairwise (Earlier specs)
  gone : ∀ i ∈ terminated tr, ∀ j < specs.length, (m.sstate.pcbs j).state ≠ .TERMINATED → Earlier specs i j

theorem fifoInv_iff : FifoInv specs tr m ↔ OrderInv (Earlier specs) specs tr m := by
  constructor
  · rintro ⟨hserved, hfirst, horder, hgone⟩
    exact ⟨hserved, hfirst, horder, hgone⟩
  · rintro ⟨hserved, hfirst, horder, hgone⟩
    exact ⟨hserved, hfirst, horder, hgone⟩

/-- **Non-preemption**: a process once dispatched is dispatched again until it terminates. -/
theorem FifoInv.redispatch (h : FifoInv specs tr m) (hinv : Inv specs tr m) (hc : Calls m.control caller)
    (hk : quanta tr < INT_MAX) (hnew : new < specs.length) (hw : ((atCall m.sstate).pcbs new).state = .WAITING)
    (hsw : Algorithm.run (atCall m.sstate) inp .fifo = some (.context_switch new)) {p : Nat}
    (hp : p ∈ (dispatches tr).map Prod.fst) (hT : (m.sstate.pcbs p).state ≠ .TERMINATED) : p = new := by
  have hcall := hinv.toCall hc
  have hw' : ∃ i < (atCall m.sstate).num_processes, ((atCall m.sstate).pcbs i).state = .WAITING :=
    ⟨new, by rw [hcall.table.num]; exact hnew, hw⟩
  exact (fifoInv_iff.mp h).redispatch hinv hc (fun _ _ => Earlier.asymm) hnew hw
    (hcall.fifo_earliest hk (atCall_current_pcb _) hw' hsw) hp hT

theorem FifoInv.dispatch (h : FifoInv specs tr m) (hinv : Inv specs tr m) (hc : Calls m.control caller)
    (hk : quanta tr < INT_MAX) (hnew : new < specs.length) (hw : ((atCall m.sstate).pcbs new).state = .WAITING)
    (hrun : Algorithm.run (atCall m.sstate) inp .fifo = some (.context_switch new))
    (hsw : Switched (atCall m.sstate) new m'.sstate) :
    FifoInv specs (tr ++ (callEvents inp m.sstate ++ [.dispatch new (atCall m.sstate)])) m' := by
  have hcall := hinv.toCall hc
  have hw' : ∃ i < (atCall m.sstate).num_processes, ((atCall m.sstate).pcbs i).state = .WAITING :=
    ⟨new, by rw [hcall.table.num]; exact hnew, hw⟩
  exact fifoInv_iff.mpr ((fifoInv_iff.mp h).dispatch hinv hc (fun _ _ => Earlier.asymm) hnew hw
    (hcall.fifo_earliest hk (atCall_current_pcb _) hw' hrun) hsw)

theorem FifoInv.step (h : FifoInv specs tr m) (hinv : Inv specs tr m) (hs : SoundStep .fifo m ev m')
    (hk : quanta tr < INT_MAX) (hw : SomeoneWaits ev) : FifoInv specs (tr ++ ev) m' := by
  cases hs with
  | quiet hq => exact fifoInv_iff.mpr ((fifoInv_iff.mp h).quiet hinv hq)
  | @ret inp caller hc hret =>
    -- somebody waits, so `fifo` does not return
    obtain ⟨i, hi, hwi⟩ := hw (inp, atCall m.sstate) (by simp)
    have hcall := hinv.toCall hc
    exact absurd hwi (hcall.idle_of_ret hret i (hcall.table.num ▸ hi))
  | dispatch hc hrun hlt hwn hsw => exact h.dispatch hinv hc hk (hinv.table.num ▸ hlt) hwn hrun hsw

theorem Reaches.fifoInv (h : Reaches .fifo specs tr m) (hne : specs ≠ []) (hq : quanta tr < INT_MAX)
    (hw : SomeoneWaits tr) : Inv specs tr m ∧ FifoInv specs tr m := by
  have hsound := (h.fifo_sound hne hq hw).2
  refine Run.invariant_of_prefix (P := fun tr => quanta tr < INT_MAX ∧ SomeoneWaits tr ∧ SoundCalls .fifo tr)
    (I := fun tr m => Inv specs tr m ∧ FifoInv specs tr m)
    (fun a b hab => ⟨quanta_lt_of_append a b hab.1, hab.2.1.left, hab.2.2.left⟩) (fun _ => ⟨inv_init hne, ?_⟩) ?_ h
    ⟨hq, hw, hsound⟩
  · exact fifoInv_iff.mpr (orderInv_init hne)
  · intro tr m ev m' hI hs hP
    have hss := soundStep_of_step hs hP.2.2.right
    exact ⟨hI.1.step hss (hP.1.trans (by decide)),
      hI.2.step hI.1 hss (quanta_lt_of_append _ _ hP.1) hP.2.1.right⟩

/-- Without a call `main` is still before its first one. -/
theorem Reaches.eq_nil_of_calls {algo : Algorithm} (h : Reaches algo specs tr m) (hc : calls tr = []) : tr = [] := by
  refine (Run.invariant_of_prefix (P := fun tr => calls tr = []) (I := fun tr m => tr = [] ∧ m.control = .mainLoop)
    (fun a b hab => (List.append_eq_nil_iff.mp (calls_append a b ▸ hab)).1) (fun _ => ⟨rfl, rfl⟩) ?_ h hc).1
  rintro tr m ev m' ⟨rfl, hctl⟩ ⟨inp, hs⟩ hev
  rcases step_cases hs with ⟨caller, _, hi⟩ | hq
  · rcases handler_cases hi with ⟨_, rfl, _⟩ | ⟨pid, ev', _, rfl, _⟩ <;>
      simp only [List.nil_append, calls_append, calls_callEvents, List.cons_append] at hev <;> cases hev
  · cases hq <;> cases hctl

/-- **FIFO order.** In a run under `fifo` whose calls all find somebody waiting, every call dispatches the process that
was dispatched before, unless it has terminated, and the processes terminate in the order of
`(creation_quantum, index)`. -/
theorem fifo_order (h : Reaches .fifo specs tr m) (hq : quanta tr < 2 ^ 31 - 1)
    (hw : ∀ c ∈ calls tr, ∃ i < c.2.num_processes, (c.2.pcbs i).state = .WAITING) :
    (∀ tr₁ ev tr₂ m₁ m₂, tr = tr₁ ++ ev ++ tr₂ → Reaches .fifo specs tr₁ m₁ → Step .fifo m₁ ev m₂ → calls ev ≠ [] →
      ∀ p ∈ (dispatches tr₁).map Prod.fst, (m₁.sstate.pcbs p).state ≠ .TERMINATED →
        (dispatches ev).map Prod.fst = [p]) ∧
    (terminated tr).Pairwise (Earlier specs) := by
  by_cases hne : specs = []
  · -- the empty table has nobody to wait, so there is no call
    have hnil : calls tr = [] := by
      refine List.eq_nil_iff_forall_not_mem.mpr fun c hc => ?_
      obtain ⟨i, hi, _⟩ := hw c hc
      obtain ⟨_, m', hr, he⟩ := h.of_call hc
      rw [he, atCall_num_processes, hr.num_processes, hne] at hi
      exact absurd hi (Nat.not_lt_zero _)
    obtain rfl := h.eq_nil_of_calls hnil
    constructor
    · intro tr₁ ev tr₂ m₁ m₂ he _ _ hc
      obtain ⟨h₁, _⟩ := List.append_eq_nil_iff.mp he.symm
      obtain ⟨_, rfl⟩ := List.append_eq_nil_iff.mp h₁
      exact absurd rfl hc
    · exact .nil
  · refine ⟨?_, (h.fifoInv hne hq hw).2.order⟩
    rintro tr₁ ev tr₂ m₁ m₂ rfl hr hs hcalls p hp hT
    have hw' : SomeoneWaits (tr₁ ++ ev) := SomeoneWaits.left hw
    have hq' := quanta_lt_of_append _ _ hq
    have hk := quanta_lt_of_append _ _ hq'
    obtain ⟨hinv, hf⟩ := hr.fifoInv hne hk hw'.left
    have hreach : Reaches .fifo specs (tr₁ ++ ev) m₂ := hr.trans (Run.single hs)
    cases soundStep_of_step hs (hreach.fifo_sound hne hq' hw').2.right with
    | quiet hquiet => exact absurd hquiet.silent.1 hcalls
    | @ret inp caller hc hret =>
      obtain ⟨i, hi, hwi⟩ := hw'.right (inp, atCall m₁.sstate) (by simp)
      have hcall := hinv.toCall hc
      exact absurd hwi (hcall.idle_of_ret hret i (hcall.table.num ▸ hi))
    | @dispatch inp caller new m₂ hc hrun hlt hwn _ _ =>
      obtain rfl := hf.redispatch hinv hc hk (hinv.table.num ▸ hlt) hwn hrun hp hT
      rw [dispatches_append, dispatches_callEvents]
      rfl

/-- The second process is created first and terminates first; the third one is dispatched again when interrupted. -/
theorem fifo_order_three :
    ∃ tr m, Reaches .fifo [⟨"A", 1, 0, 0⟩, ⟨"B", 0, 0, 0⟩, ⟨"C", 1, 1, 0⟩] tr m ∧
      (dispatches tr).map Prod.fst = [1, 0, 2, 2] ∧ terminated tr = [1, 0] ∧
      (terminated tr).Pairwise (Earlier [⟨"A", 1, 0, 0⟩, ⟨"B", 0, 0, 0⟩, ⟨"C", 1, 1, 0⟩]) := by
  let inps : List Input := List.replicate 8 ⟨false, [], 0⟩ ++ [⟨true, [], 0⟩]
  have hr : Reaches .fifo [⟨"A", 1, 0, 0⟩, ⟨"B", 0, 0, 0⟩, ⟨"C", 1, 1, 0⟩] _ _ := @run_of_exec .fifo inps _ _ _ rfl
  exact ⟨_, _, hr, by decide, by decide, (fifo_order hr (by decide) (by decide)).2⟩

end Cs326.Scheduler
