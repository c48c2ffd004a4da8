import Cs326.Scheduler.Invariant

/-!
# Serving the processes in an order

An order in which no process is served while an earlier one is unfinished, whoever the scheduler is: the running
process comes before everybody else who has not terminated (`OrderInv.first`). A call that takes the earliest of those
takes the process dispatched last again (`OrderInv.redispatch`), and the processes terminate in the order
(`OrderInv.quiet`, `OrderInv.dispatch`).
-/

namespace Cs326.Scheduler

variable {before : Nat → Nat → Prop} {specs : List ProcessSpec} {tr ev : List Event} {m m' : Machine} {inp : Input}
  {caller : Context} {new : Nat}

/-- The processes are served in the order `before`. -/
structure OrderInv (before : Nat → Nat → Prop) (specs : List ProcessSpec) (tr : List Event) (m : Machine) : Prop where
  served : ∀ p ∈ (dispatches tr).map Prod.fst, p = m.sstate.current_process ∨ (m.sstate.pcbs p).state = .TERMINATED
  /-- The running process comes before everybody else who has not terminated. -/
  first : (m.sstate.pcbs m.sstate.current_process).state = .RUNNING → ∀ j < specs.length,
    j ≠ m.sstate.current_process → (m.sstate.pcbs j).state ≠ .TERMINATED → before m.sstate.current_process j
  order : (terminated tr).Pairwise before
  gone : ∀ i ∈ terminated tr, ∀ j < specs.length, (m.sstate.pcbs j).state ≠ .TERMINATED → before i j

/-- `new` comes before everybody else who has not terminated. -/
def Earliest (before : Nat → Nat → Prop) (n : Nat) (s : SchedulerState) (new : Nat) : Prop :=
  ∀ j < n, j ≠ new → (s.pcbs j).state ≠ .TERMINATED → before new j

theorem orderInv_init (hne : specs ≠ []) : OrderInv before specs [] (Machine.init specs) := by
  refine ⟨fun p hp => (by cases hp), fun hr => ?_, .nil, fun i hi => (by cases hi)⟩
  have := (inv_init hne).control
  exact absurd hr (this.idle _ (List.length_pos_iff.mpr hne))

/-- Who has been served and has not terminated is running, and waits when the algorithm is called. -/
theorem OrderInv.running (h : OrderInv before specs tr m) (hinv : Inv specs tr m) (hc : Calls m.control caller)
    {p : Nat} (hp : p ∈ (dispatches tr).map Prod.fst) (hT : (m.sstate.pcbs p).state ≠ .TERMINATED) :
    p = m.sstate.current_process ∧ (m.sstate.pcbs p).state = .RUNNING := by
  obtain rfl := (h.served p hp).resolve_right hT
  have hpos : m.sstate.current_quantum ≠ 0 := by
    rw [hinv.table.quantum, quanta, ← List.length_map Prod.fst]
    exact Nat.ne_of_gt (List.length_pos_of_mem hp)
  have hctl := hinv.control
  cases hm : m.control <;> rw [hm] at hc <;> cases hc <;> simp only [ControlInv, hm] at hctl
  · rcases hctl.origin with h0 | h0
    · exact absurd h0 hpos
    · exact absurd h0 hT
  · rename_i pid t
    have hr := hctl.1.running
    rw [hctl.1.current] at hr
    exact ⟨rfl, hr⟩

/-- **Non-preemption**: a process once dispatched is dispatched again until it terminates. -/
theorem OrderInv.redispatch (h : OrderInv before specs tr m) (hinv : Inv specs tr m) (hc : Calls m.control caller)
    (hasymm : ∀ i j, before i j → ¬before j i) (hnew : new < specs.length)
    (hw : ((atCall m.sstate).pcbs new).state = .WAITING)
    (hearliest : Earliest before specs.length (atCall m.sstate) new) {p : Nat}
    (hp : p ∈ (dispatches tr).map Prod.fst) (hT : (m.sstate.pcbs p).state ≠ .TERMINATED) : p = new := by
  obtain ⟨rfl, hrun⟩ := h.running hinv hc hp hT
  have hcur : m.sstate.current_process < specs.length := hinv.table.current
  have hwait : ((atCall m.sstate).pcbs m.sstate.current_process).state = .WAITING := by
    rw [atCall_state, if_pos (.inr ⟨rfl, hrun⟩)]
  by_contra hne
  have hnT : (m.sstate.pcbs new).state ≠ .TERMINATED := fun hT' => by
    rw [hinv.terminated_atCall hT'] at hw; cases hw
  have hearlier := hearliest _ hcur hne (by rw [hwait]; simp)
  exact hasymm _ _ hearlier (h.first hrun new hnew (Ne.symm hne) hnT)

/-- The running process terminates behind everybody who has terminated and before everybody else. -/
theorem OrderInv.quiet (h : OrderInv before specs tr m) (hinv : Inv specs tr m) (hq : Quiet m ev m') :
    OrderInv before specs (tr ++ ev) m' := by
  obtain ⟨_, _, _, hcur, _, _, hst⟩ := hq.table
  obtain ⟨_, hnd, _, _⟩ := hq.silent
  have hdone : ∀ j, (m.sstate.pcbs j).state = .TERMINATED → (m'.sstate.pcbs j).state = .TERMINATED :=
    fun j hT => by rw [hst, hT]; exact ite_self _
  have hstay : ∀ j, (m'.sstate.pcbs j).state ≠ .TERMINATED → (m.sstate.pcbs j).state ≠ .TERMINATED :=
    fun j hj hT => hj (hdone j hT)
  have hserved : ∀ p ∈ (dispatches (tr ++ ev)).map Prod.fst,
      p = m'.sstate.current_process ∨ (m'.sstate.pcbs p).state = .TERMINATED := by
    intro p hp
    rw [dispatches_append, hnd, List.append_nil] at hp
    rw [hcur]
    exact (h.served p hp).imp_right (hdone p)
  have hfirst : (m'.sstate.pcbs m'.sstate.current_process).state = .RUNNING → ∀ j < specs.length,
      j ≠ m'.sstate.current_process → (m'.sstate.pcbs j).state ≠ .TERMINATED →
        before m'.sstate.current_process j := by
    rw [hcur]
    intro hr j hj hne hT
    refine h.first ?_ j hj hne (hstay j hT)
    rw [hst] at hr
    split at hr
    · cases hr
    · exact hr
  rcases hq.events with rfl | ⟨pid, hctl, rfl⟩
  · rw [List.append_nil] at hserved ⊢
    exact ⟨hserved, hfirst, h.order, fun i hi j hj hT => h.gone i hi j hj (hstay j hT)⟩
  · have hexec := hinv.control
    simp only [ControlInv, hctl] at hexec
    have hpid : pid < specs.length := hexec.current ▸ hinv.table.current
    have hend : (m'.sstate.pcbs pid).state = .TERMINATED := by rw [hst, if_pos ⟨hctl, by simp⟩]
    refine ⟨hserved, hfirst, ?_, fun i hi j hj hT => ?_⟩
    · rw [terminated_append, List.pairwise_append]
      refine ⟨h.order, List.pairwise_singleton _ _, fun i hi j hj => ?_⟩
      obtain rfl := List.mem_singleton.mp hj
      exact h.gone i hi _ hpid (by rw [hexec.running]; simp)
    · rw [terminated_append, List.mem_append] at hi
      rcases hi with hi | hi
      · exact h.gone i hi j hj (hstay j hT)
      · obtain rfl := List.mem_singleton.mp hi
        have hrun := hexec.running
        rw [hexec.current] at hrun ⊢
        refine h.first hrun j hj (fun hjc => hT ?_) (hstay j hT)
        rw [hjc, ← hexec.current]
        exact hend

/-- The earliest process is dispatched. -/
theorem OrderInv.dispatch (h : OrderInv before specs tr m) (hinv : Inv specs tr m) (hc : Calls m.control caller)
    (hasymm : ∀ i j, before i j → ¬before j i) (hnew : new < specs.length)
    (hw : ((atCall m.sstate).pcbs new).state = .WAITING)
    (hearliest : Earliest before specs.length (atCall m.sstate) new)
    (hsw : Switched (atCall m.sstate) new m'.sstate) :
    OrderInv before specs (tr ++ (callEvents inp m.sstate ++ [.dispatch new (atCall m.sstate)])) m' := by
  have hdone : ∀ j, (m.sstate.pcbs j).state = .TERMINATED → (m'.sstate.pcbs j).state = .TERMINATED := by
    intro j hT
    have hat := hinv.terminated_atCall hT
    rw [hsw.state, if_neg ?_]
    · exact hat
    · rintro rfl; rw [hat] at hw; cases hw
  have hterm : terminated (tr ++ (callEvents inp m.sstate ++ [.dispatch new (atCall m.sstate)])) = terminated tr := by
    rw [terminated_append, terminated_append, terminated_callEvents]
    exact List.append_nil _
  refine ⟨fun p hp => ?_, fun _ j hj hne hT => ?_, hterm ▸ h.order, fun i hi j hj hT => ?_⟩
  · rw [hsw.current]
    rw [dispatches_append, dispatches_append, dispatches_callEvents, List.nil_append, List.map_append,
      List.mem_append] at hp
    rcases hp with hp | hp
    · by_cases hT : (m.sstate.pcbs p).state = .TERMINATED
      · exact .inr (hdone p hT)
      · exact .inl (h.redispatch hinv hc hasymm hnew hw hearliest hp hT)
    · exact .inl (List.mem_singleton.mp hp)
  · rw [hsw.current] at hne ⊢
    rw [hsw.state, if_neg hne] at hT
    exact hearliest j hj hne hT
  · exact h.gone i (hterm ▸ hi) j hj fun hT' => hT (hdone j hT')

end Cs326.Scheduler
