import Cs326.Scheduler.Termination

/-!
# Gaps between the creation quanta

The condition under which the loop of `main` ends for every interrupt timing is exact for `basic` and `rr`. Without
interrupts each process that is dispatched terminates, so there are `k` terminations and `k` dispatches where `main`
makes its `k`th call. The process that it dispatches there and those before it have been created up to quantum `k`
(`Undisturbed`), and they are more than `k`.
-/

namespace Cs326.Scheduler

variable {algo : Algorithm} {specs : List ProcessSpec} {tr ev : List Event} {m m' : Machine} {inp : Input}
  {inps : List Input}

/-- The process that executes. -/
def Control.process : Control → List Nat
  | .loopTest pid => [pid]
  | .checkPoint pid _ => [pid]
  | .afterCheck pid _ => [pid]
  | _ => []

/-- Without interrupts a process that has been dispatched has terminated or executes, and at the `k`th dispatch the
process has been created up to quantum `k`. -/
structure Undisturbed (specs : List ProcessSpec) (tr : List Event) (m : Machine) : Prop where
  inv : Inv specs tr m
  served : (dispatches tr).map Prod.fst = terminated tr ++ m.control.process
  once : EachOnce specs tr m
  created : ∀ k (d : Nat × SchedulerState), (dispatches tr)[k]? = some d →
    ∃ h : d.1 < specs.length, (specs[d.1]).creation_quantum.toNat ≤ k

theorem undisturbed_cases (hinp : inp.interrupt = false) (h : step algo inp m = some (m', ev)) :
    m.control = .mainLoop ∧ interrupt_handler algo inp .mainLoop m = some (m', ev) ∨ Quiet m ev m' := by
  rcases step_cases h with ⟨caller, hc, hi⟩ | hq
  · obtain ⟨s, c, control⟩ := m
    cases hc with
    | main => exact .inl ⟨rfl, hi⟩
    | process pid i =>
      unfold Scheduler.step at h
      dsimp only at h
      rw [hinp] at h
      obtain ⟨rfl, rfl⟩ := Prod.mk.inj (Option.some.inj h)
      exact .inr .pass
  · exact .inr hq

/-- The processes that have terminated are different ones of the table. -/
theorem EachOnce.nodup (h : EachOnce specs tr m) : (terminated tr).Nodup := by
  refine List.nodup_iff_count_le_one.mpr fun i => ?_
  rw [h i]
  split <;> omega

theorem EachOnce.mem (h : EachOnce specs tr m) {i : Nat} :
    i ∈ terminated tr ↔ i < specs.length ∧ (m.sstate.pcbs i).state = .TERMINATED := by
  rw [← List.count_pos_iff, h i]
  split
  · rename_i hi
    exact iff_of_true Nat.one_pos hi
  · rename_i hi
    exact iff_of_false (Nat.lt_irrefl 0) hi

theorem Undisturbed.quiet (h : Undisturbed specs tr m) (hq : Quiet m ev m') : Undisturbed specs (tr ++ ev) m' := by
  refine ⟨h.inv.quiet hq, ?_, h.once.step h.inv (SoundStep.quiet hq : SoundStep .basic m ev m'), ?_⟩
  · have hserved := h.served
    have hctl := h.inv.control
    rw [dispatches_append, hq.silent.2.1, List.append_nil, hserved, terminated_append]
    cases hq with
    | @terminate s c pid =>
      obtain rfl : c = .mainLoop := hctl.main
      simp [terminated, Control.process, Context.resume]
    | loop | finish | work | pass | next | unit => simp [terminated, Control.process]
  · rw [dispatches_append, hq.silent.2.1, List.append_nil]
    exact h.created

/-- They are no more than there are processes, and fewer as long as one has not terminated. -/
theorem EachOnce.length_le (h : EachOnce specs tr m) : (terminated tr).length ≤ specs.length := by
  have hsub : terminated tr ⊆ List.range specs.length := fun i hi => List.mem_range.mpr (h.mem.mp hi).1
  simpa using (h.nodup.subperm hsub).length_le

theorem EachOnce.length_lt (h : EachOnce specs tr m) {new : Nat} (hnew : new < specs.length)
    (hT : (m.sstate.pcbs new).state ≠ .TERMINATED) : (terminated tr).length < specs.length := by
  have hnd : (new :: terminated tr).Nodup := List.nodup_cons.mpr ⟨fun hmem => hT (h.mem.mp hmem).2, h.nodup⟩
  have hsub : new :: terminated tr ⊆ List.range specs.length :=
    List.cons_subset.mpr ⟨List.mem_range.mpr hnew, fun i hi => List.mem_range.mpr (h.mem.mp hi).1⟩
  have hle := (hnd.subperm hsub).length_le
  rwa [List.length_cons, List.length_range] at hle

/-- At a call of `main` there are as many dispatches as terminations. -/
theorem Undisturbed.quanta_eq (h : Undisturbed specs tr m) (hm : m.control = .mainLoop) :
    quanta tr = (terminated tr).length := by
  have hserved := congrArg List.length h.served
  rw [hm] at hserved
  simpa [quanta, Control.process] using hserved

/-- The process that a dispatch has started executes. -/
theorem Inv.process_eq (h : Inv specs tr m) {new : Nat} (hcur : m.sstate.current_process = new)
    (hrun : (m.sstate.pcbs new).state = .RUNNING) : m.control.process = [new] := by
  have hnew : new < m.sstate.num_processes := hcur ▸ h.table.num ▸ h.table.current
  have hctl := h.control
  unfold ControlInv at hctl
  cases hm : m.control with
  | mainLoop | mainCheck =>
    rw [hm] at hctl
    exact absurd hrun (hctl.idle new hnew)
  | loopTest pid =>
    rw [hm] at hctl
    exact congrArg (fun i => [i]) (hctl.current.trans hcur)
  | checkPoint pid i | afterCheck pid i =>
    rw [hm] at hctl
    exact congrArg (fun i => [i]) (hctl.1.current.trans hcur)
  | finished =>
    rw [hm] at hctl
    rw [hctl new hnew] at hrun
    cases hrun
  | undefined =>
    rw [hm] at hctl
    exact hctl.elim

/-- **A step without an interrupt.** -/
theorem Undisturbed.step (h : Undisturbed specs tr m) (ha : algo.Safe) (hsmall : specs.length < 2 ^ 32)
    (hinp : inp.interrupt = false) (hs : step algo inp m = some (m', ev)) : Undisturbed specs (tr ++ ev) m' := by
  have hn : m.sstate.num_processes = specs.length := h.inv.table.num
  have hpos : 0 < (atCall m.sstate).num_processes := by
    rw [atCall_num_processes, hn]
    exact Nat.lt_of_le_of_lt (Nat.zero_le _) h.inv.table.current
  rcases undisturbed_cases hinp hs with ⟨hm, -⟩ | hq
  · have hcalls : SoundCalls algo ev := by
      intro c hc
      obtain rfl := step_calls hs c hc
      exact sound_of_safe ha inp hpos
    have hsound := soundStep_of_step ⟨inp, hs⟩ hcalls
    have honce := h.once.step h.inv hsound
    have hquanta := h.quanta_eq hm
    cases hsound with
    | quiet hq => exact h.quiet hq
    | @ret inp caller hc hret =>
      have hk : quanta (tr ++ callEvents inp m.sstate) = quanta tr := by simp [quanta]
      have hlen := h.once.length_le
      obtain rfl : caller = .mainLoop := by
        rw [hm] at hc
        cases hc
        rfl
      refine ⟨h.inv.step (.ret hc hret) (by omega), ?_, honce, ?_⟩
      · have hserved := h.served
        rw [hm] at hserved
        rw [dispatches_append, dispatches_callEvents, List.append_nil, hserved, terminated_append,
          terminated_callEvents, List.append_nil]
        rfl
      · rw [dispatches_append, dispatches_callEvents, List.append_nil]
        exact h.created
    | @dispatch inp caller new m' hc hrun hnew hw hsw hswitch =>
      have hnew' : new < specs.length := hn ▸ hnew
      have hT : (m.sstate.pcbs new).state ≠ .TERMINATED := fun hT => by
        rw [h.inv.terminated_atCall hT] at hw
        cases hw
      have hd : dispatches (callEvents inp m.sstate ++ [.dispatch new (atCall m.sstate)]) =
          [(new, atCall m.sstate)] := by
        rw [dispatches_append, dispatches_callEvents]
        rfl
      have hk : quanta (tr ++ (callEvents inp m.sstate ++ [.dispatch new (atCall m.sstate)])) = quanta tr + 1 := by
        rw [quanta_append, quanta, quanta, hd]
        rfl
      have hlen := h.once.length_lt hnew' hT
      have hinv' := h.inv.step (.dispatch hc hrun hnew hw hsw hswitch) (by omega)
      refine ⟨hinv', ?_, honce, fun k d hk => ?_⟩
      · have hserved := h.served
        rw [hm] at hserved
        have hrunning : (m'.sstate.pcbs new).state = .RUNNING := by rw [hsw.state, if_pos rfl]
        rw [dispatches_append, List.map_append, hserved, hd, hinv'.process_eq hsw.current hrunning, terminated_append,
          terminated_append, terminated_callEvents]
        simp [Control.process, terminated]
      · rw [dispatches_append, hd] at hk
        rcases Nat.lt_trichotomy k (dispatches tr).length with hlt | rfl | hgt
        · rw [List.getElem?_append_left hlt] at hk
          exact h.created k d hk
        · -- the new process is not created later than now
          rw [List.getElem?_concat_length] at hk
          obtain rfl := Option.some.inj hk
          refine ⟨hnew', ?_⟩
          have hcreated := (h.inv.toCall hc).table.created new hnew'
          rw [hw, (h.inv.toCall hc).table.creation_quantum, load_creation_quantum hnew'] at hcreated
          simp only [reduceCtorEq, false_iff] at hcreated
          unfold quanta at hcreated
          dsimp only
          omega
        · rw [List.getElem?_eq_none (by rw [List.length_append, List.length_singleton]; omega)] at hk
          cases hk
  · exact h.quiet hq

theorem undisturbed_init (hne : specs ≠ []) : Undisturbed specs [] (Machine.init specs) :=
  ⟨inv_init hne, rfl, eachOnce_init specs, fun k d hd => by cases hd⟩

/-- **A run without interrupts.** -/
theorem Undisturbed.exec (h : Undisturbed specs tr m) (ha : algo.Safe) (hsmall : specs.length < 2 ^ 32)
    (hinps : ∀ inp ∈ inps, inp.interrupt = false) {tr' : List Event} (he : exec algo inps m = some (tr', m')) :
    Undisturbed specs (tr ++ tr') m' := by
  induction inps generalizing tr m tr' with
  | nil =>
    obtain ⟨rfl, rfl⟩ := Prod.mk.inj (Option.some.inj he)
    rwa [List.append_nil]
  | cons inp inps ih =>
    obtain ⟨m₁, ev, tr₂, hs, hr, rfl⟩ := exec_cons.mp he
    have h₁ := h.step ha hsmall (hinps inp List.mem_cons_self) hs
    rw [← List.append_assoc]
    exact ih h₁ (fun inp' hmem => hinps inp' (List.mem_cons_of_mem _ hmem)) hr

/-- A run without interrupts that ends leaves no gap. -/
theorem Undisturbed.noGap (h : Undisturbed specs tr m) (hfin : m.control = .finished) : NoGap specs := by
  have hctl := h.inv.control
  unfold ControlInv at hctl
  rw [hfin, h.inv.table.num] at hctl
  have hserved := h.served
  rw [hfin] at hserved
  simp only [Control.process, List.append_nil] at hserved
  have hlen : (terminated tr).length = specs.length := by
    refine Nat.le_antisymm h.once.length_le ?_
    have hsub : List.range specs.length ⊆ terminated tr := fun i hi =>
      h.once.mem.mpr ⟨List.mem_range.mp hi, hctl i (List.mem_range.mp hi)⟩
    simpa using (List.nodup_range.subperm hsub).length_le
  intro k hk
  -- the first `k + 1` processes to terminate
  have hcard : ((terminated tr).take (k + 1)).toFinset.card = k + 1 := by
    rw [List.toFinset_card_of_nodup (h.once.nodup.sublist (List.take_sublist _ _)), List.length_take]
    omega
  refine Nat.lt_of_succ_le (hcard.symm.le.trans (card_le_countP fun i hi => ?_))
  rw [List.mem_toFinset, ← hserved, ← List.map_take, List.mem_map] at hi
  obtain ⟨d, hd, rfl⟩ := hi
  obtain ⟨j, hj, rfl⟩ := List.mem_iff_getElem.mp hd
  rw [List.length_take] at hj
  obtain ⟨hlt, hle⟩ := h.created j _ (List.getElem?_eq_getElem (by omega))
  rw [List.getElem_take]
  exact ⟨hlt, decide_eq_true (by omega)⟩

theorem length_le_totalSteps (specs : List ProcessSpec) : specs.length ≤ totalSteps specs := by
  unfold totalSteps
  induction specs with
  | nil => exact Nat.le_refl _
  | cons p specs ih =>
    rw [List.length_cons, List.map_cons, List.sum_cons]
    omega

/-- **The loop of `main` ends for every interrupt timing** under `basic` and under `rr` if and only if there is no gap
between the creation quanta. -/
theorem ends_iff_noGap (ha : algo = .basic ∨ algo = .rr) (hne : specs ≠ []) (hsmall : totalSteps specs < 2 ^ 32) :
    (∀ timing : Nat → Input, ∃ n tr m,
      exec algo ((List.range n).map timing) (Machine.init specs) = some (tr, m) ∧ m.control = .finished) ↔
      NoGap specs := by
  constructor
  · intro h
    obtain ⟨n, tr, m, he, hfin⟩ := h fun _ => ⟨false, [], 0⟩
    have hsafe : algo.Safe := ha.elim .inl fun h => .inr (.inl h)
    refine ((undisturbed_init hne).exec hsafe ((length_le_totalSteps specs).trans_lt hsmall) ?_ he).noGap hfin
    intro inp hmem
    obtain ⟨-, -, rfl⟩ := List.mem_map.mp hmem
    rfl
  · intro hgap timing
    have hcov : Covered specs algo := by
      rcases ha with rfl | rfl
      · trivial
      · trivial
    have hlen : ((List.range (totalSteps specs)).map timing).length = totalSteps specs := by simp
    obtain ⟨tr, m, he, hfin, -⟩ := main_loop_ends hne hgap hcov hsmall hlen
    exact ⟨_, tr, m, he, hfin⟩

/-- The only process is created at quantum 1, which is never reached. -/
theorem ends_iff_noGap_idle : ¬∀ timing : Nat → Input, ∃ n tr m,
    exec .rr ((List.range n).map timing) (Machine.init [⟨"Process_A", 1, 10, 60⟩]) = some (tr, m) ∧
      m.control = .finished := by
  intro h
  have hgap := (ends_iff_noGap (.inr rfl) (by simp) (by decide)).mp h
  exact absurd (hgap 0 (by decide)) (by decide)

end Cs326.Scheduler
