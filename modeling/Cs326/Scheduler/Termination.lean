import Cs326.Scheduler.Dispatch
import Cs326.Scheduler.Progress
import Cs326.Scheduler.StepsLeft
import Cs326.Scheduler.WorkConservation
import Mathlib.Algebra.GroupWithZero.Nat
import Mathlib.Algebra.Order.BigOperators.Group.Finset

/-!
# The loop of `main` ends

As long as every call of the algorithm finds somebody waiting, each step brings the machine nearer to its end, so the
loop of `main` ends after a number of steps that depends on the table only (`main_loop_ends`). Somebody waits at every
call if among the creation quanta there is no gap: more than `k` processes are created up to quantum `k`, for every `k`
below their number (`NoGap`).
-/

namespace Cs326.Scheduler

variable {algo : Algorithm} {specs : List ProcessSpec} {tr ev : List Event} {m m' : Machine} {s : SchedulerState}
  {inp : Input} {inps : List Input} {caller : Context}

/-- The processes created up to quantum `k` are more than `k`. -/
def NoGap (specs : List ProcessSpec) : Prop :=
  ∀ k < specs.length, k < specs.countP fun p => decide (p.creation_quantum.toNat ≤ k)

/-- The steps of a run that ends: for each process forty-one for a unit of work, its last, and two of `main`. -/
def totalSteps (specs : List ProcessSpec) : Nat := (specs.map fun p => 41 * p.workload.toNat + 3).sum

/-- The keys that the algorithm compares are better than the bound it starts from; `insanity` may draw forever. -/
def Covered (specs : List ProcessSpec) : Algorithm → Prop
  | .basic => True
  | .rr => True
  | .fifo => ∀ p ∈ specs, p.creation_quantum.toNat < INT_MAX
  | .sjf => ∀ p ∈ specs, p.workload.toNat < INT_MAX
  | .psjf => ∀ p ∈ specs, p.workload.toNat < INT_MAX
  | .sctf => ∀ p ∈ specs, p.workload.toNat < INT_MAX
  | .priority => ∀ p ∈ specs, 0 < p.priority.toNat
  | .insanity => False

/-! ## Counting by index -/

section Counting

variable {α : Type*} {p : α → Bool} {l : List α} {T : Finset Nat}

/-- A set of indices that is too small for all elements counted misses one of them. -/
theorem exists_index_of_card_lt (h : T.card < l.countP p) : ∃ i, ∃ hi : i < l.length, p l[i] = true ∧ i ∉ T := by
  induction l using List.reverseRecOn generalizing T with
  | nil => cases h
  | append_singleton l x ih =>
    rw [List.countP_append, List.countP_singleton] at h
    have hin : ∀ {T' : Finset Nat}, T'.card < l.countP p → ∃ i, ∃ hi : i < (l ++ [x]).length,
        p (l ++ [x])[i] = true ∧ i ∉ T' ∧ i < l.length := by
      intro T' hT
      obtain ⟨i, hi, hp, hnot⟩ := ih hT
      exact ⟨i, by simp; omega, by rwa [List.getElem_append_left hi], hnot, hi⟩
    by_cases hlt : T.card < l.countP p
    · obtain ⟨i, hi, hp, hnot, -⟩ := hin hlt
      exact ⟨i, hi, hp, hnot⟩
    · have hx : p x = true := by
        by_contra hx
        rw [if_neg hx] at h
        omega
      by_cases hmem : l.length ∈ T
      · -- without the last index the set is too small for the others
        rw [if_pos hx] at h
        have hcard : (T.erase l.length).card < l.countP p := by
          have hpos := Finset.card_pos.mpr ⟨_, hmem⟩
          rw [Finset.card_erase_of_mem hmem]
          omega
        obtain ⟨i, hi, hp, hnot, hlen⟩ := hin hcard
        exact ⟨i, hi, hp, fun hT => hnot (Finset.mem_erase.mpr ⟨Nat.ne_of_lt hlen, hT⟩)⟩
      · exact ⟨l.length, by simp, by simpa using hx, hmem⟩

/-- The indices of elements counted are no more than these. -/
theorem card_le_countP (h : ∀ i ∈ T, ∃ hi : i < l.length, p l[i] = true) : T.card ≤ l.countP p := by
  by_contra hlt
  obtain ⟨m, hm⟩ : ∃ m, m = l.length := ⟨_, rfl⟩
  induction l using List.reverseRecOn generalizing T m with
  | nil =>
    refine hlt (Finset.card_eq_zero.mpr (Finset.eq_empty_of_forall_notMem fun i hi => ?_)).le
    obtain ⟨hi, -⟩ := h i hi
    cases hi
  | append_singleton l x ih =>
    have hrest : (T.erase l.length).card ≤ l.countP p := by
      by_contra hrest
      refine ih (fun i hi => ?_) hrest _ rfl
      obtain ⟨hne, hi⟩ := Finset.mem_erase.mp hi
      obtain ⟨hlen, hp⟩ := h i hi
      have hil : i < l.length := by
        rw [List.length_append, List.length_singleton] at hlen
        omega
      exact ⟨hil, by rwa [List.getElem_append_left hil] at hp⟩
    rw [List.countP_append, List.countP_singleton] at hlt
    by_cases hmem : l.length ∈ T
    · obtain ⟨hlen, hx⟩ := h _ hmem
      simp only [List.getElem_concat_length] at hx
      rw [if_pos hx] at hlt
      rw [Finset.card_erase_of_mem hmem] at hrest
      omega
    · rw [Finset.erase_eq_of_notMem hmem] at hrest
      omega

end Counting

/-! ## Somebody waits -/

/-- The processes that have terminated or are running. -/
def served (s : SchedulerState) : Finset Nat :=
  (Finset.range s.num_processes).filter fun i => (s.pcbs i).state = .TERMINATED ∨ (s.pcbs i).state = .RUNNING

/-- There are at most as many of them as there were dispatches, and `main` makes a call only if somebody has not
terminated. -/
structure Paced (specs : List ProcessSpec) (tr : List Event) (m : Machine) : Prop where
  count : (served m.sstate).card ≤ quanta tr
  someone : m.control = .mainLoop → ∃ i < specs.length, (m.sstate.pcbs i).state ≠ .TERMINATED

theorem mem_served {i : Nat} : i ∈ served s ↔
    i < s.num_processes ∧ ((s.pcbs i).state = .TERMINATED ∨ (s.pcbs i).state = .RUNNING) := by
  unfold served
  rw [Finset.mem_filter, Finset.mem_range]

theorem served_subset {s' : SchedulerState} (hn : s'.num_processes = s.num_processes)
    (h : ∀ i < s.num_processes, (s'.pcbs i).state = .TERMINATED ∨ (s'.pcbs i).state = .RUNNING →
      (s.pcbs i).state = .TERMINATED ∨ (s.pcbs i).state = .RUNNING) : served s' ⊆ served s := by
  intro i hi
  obtain ⟨hlt, hst⟩ := mem_served.mp hi
  rw [hn] at hlt
  exact mem_served.mpr ⟨hlt, h i hlt hst⟩

/-- An interrupt serves nobody else. -/
theorem served_atCall : served (atCall s) ⊆ served s := by
  refine served_subset (atCall_num_processes s) fun i _ hst => ?_
  rw [atCall_state] at hst
  split at hst
  · rcases hst with hst | hst <;> cases hst
  · exact hst

/-- A switch serves one process more at most. -/
theorem Switched.served {s' : SchedulerState} {new : Nat} (hs : Switched s new s') :
    (Scheduler.served s').card ≤ (Scheduler.served s).card + 1 := by
  refine (Finset.card_le_card (t := insert new (Scheduler.served s)) fun i hi => ?_).trans (Finset.card_insert_le _ _)
  obtain ⟨hlt, hst⟩ := mem_served.mp hi
  rw [hs.state] at hst
  split at hst
  · rename_i hin
    exact Finset.mem_insert.mpr (.inl hin)
  · exact Finset.mem_insert.mpr (.inr (mem_served.mpr ⟨hs.num ▸ hlt, hst⟩))

theorem paced_init (hne : specs ≠ []) : Paced specs [] (Machine.init specs) := by
  have hcreated : ∀ i, ((load specs).pcbs i).state = .CREATED := by
    intro i
    unfold load
    dsimp only
    split <;> rfl
  refine ⟨?_, fun _ => ⟨0, List.length_pos_iff.mpr hne, ?_⟩⟩
  · refine (Finset.card_eq_zero.mpr (Finset.eq_empty_of_forall_notMem fun i hi => ?_)).le
    obtain ⟨-, hst⟩ := mem_served.mp hi
    rw [show (Machine.init specs).sstate = load specs from rfl, hcreated] at hst
    rcases hst with hst | hst <;> cases hst
  · rw [show (Machine.init specs).sstate = load specs from rfl, hcreated]
    simp

theorem Paced.quiet (h : Paced specs tr m) (hinv : Inv specs tr m) (hq : Quiet m ev m') :
    Paced specs (tr ++ ev) m' := by
  have hctl := hinv.control
  obtain ⟨-, hn, -, -, -, -, hst⟩ := hq.table
  refine ⟨?_, ?_⟩
  · rw [quanta_append, hq.silent.2.2.2, Nat.add_zero]
    refine (Finset.card_le_card (served_subset hn fun i hi hsti => ?_)).trans h.count
    rw [hst] at hsti
    split at hsti
    · -- the process that terminates was running
      rename_i hend
      have hexec : Executing m.sstate m.main_ctx i := by
        unfold ControlInv at hctl
        rwa [hend.1] at hctl
      exact .inr hexec.running
    · exact hsti
  · cases hq with
    | loop hno =>
      intro _
      by_contra hall
      push Not at hall
      have hpos := Nat.lt_of_le_of_lt (Nat.zero_le _) (hinv.table.num ▸ hinv.table.current)
      refine hno ⟨hpos, List.all_eq_true.mpr fun i hi => ?_⟩
      have := hall i (hinv.table.num ▸ List.mem_range.mp hi)
      simpa using this
    | @terminate s c pid =>
      intro hm
      obtain rfl : c = .mainLoop := hctl.main
      cases hm
    | unit | finish | work | pass | next =>
      intro hm
      cases hm

theorem load_creation_quantum {i : Nat} (hi : i < specs.length) :
    ((load specs).pcbs i).creation_quantum = (specs[i]).creation_quantum.toNat := by
  simp [load, List.getElem?_eq_getElem hi]

/-- **At every call somebody waits.** -/
theorem Paced.waits (h : Paced specs tr m) (hinv : Inv specs tr m) (hgap : NoGap specs) (hc : Calls m.control caller) :
    ∃ i < specs.length, ((atCall m.sstate).pcbs i).state = .WAITING := by
  have hcall := hinv.toCall hc
  have hn : m.sstate.num_processes = specs.length := hinv.table.num
  rcases hcall.origin with ⟨rfl, -⟩ | ⟨_, -, -, -, hw, -⟩
  · have hm : m.control = .mainLoop := by
      cases hm : m.control <;> rw [hm] at hc <;> cases hc
    obtain ⟨j, hj, hjT⟩ := h.someone hm
    -- the processes that have terminated are fewer than those created up to a quantum that has been reached
    let T := (Finset.range specs.length).filter fun i => (m.sstate.pcbs i).state = .TERMINATED
    have hT : T.card ≤ quanta tr := by
      refine (Finset.card_le_card fun i hi => ?_).trans h.count
      obtain ⟨hi, hst⟩ := Finset.mem_filter.mp hi
      exact mem_served.mpr ⟨hn ▸ Finset.mem_range.mp hi, .inl hst⟩
    have hlt : T.card < specs.length := by
      have hsub : T ⊂ Finset.range specs.length :=
        Finset.filter_ssubset.mpr ⟨j, Finset.mem_range.mpr hj, hjT⟩
      simpa using Finset.card_lt_card hsub
    obtain ⟨i, hi, hp, hnot⟩ := exists_index_of_card_lt (hgap T.card hlt)
    refine ⟨i, hi, ProcessState.eq_waiting (fun hcr => ?_) (hcall.idle i hi) fun hst => ?_⟩
    · have hle := (hcall.table.created i hi).mp hcr
      rw [hcall.table.creation_quantum, load_creation_quantum hi] at hle
      have hp' := of_decide_eq_true hp
      omega
    · rw [atCall_state] at hst
      split at hst
      · cases hst
      · exact hnot (Finset.mem_filter.mpr ⟨Finset.mem_range.mpr hi, hst⟩)
  · exact ⟨_, hcall.table.current, hw⟩

/-! ## The calls are sound -/

theorem erase_priority {p q : ProcessCtlBlock} (h : p.erase = q.erase) : p.priority = q.priority := by
  simpa [ProcessCtlBlock.erase] using congrArg ProcessCtlBlock.priority h

section Call

variable {k b : Nat} {main_ctx : Context}

theorem TableInv.load_priority (h : TableInv specs k b s) {i : Nat} (hi : i < specs.length) :
    (s.pcbs i).priority = (specs[i]).priority.toNat := by
  rw [erase_priority ((h.erase i).trans (erase_load i specs).symm)]
  simp [load, List.getElem?_eq_getElem hi]

/-- No more is left of a process than its workload. -/
theorem TableInv.remaining_le (h : TableInv specs k b s) {i : Nat} (hi : i < specs.length) :
    (s.pcbs i).remaining ≤ (specs[i]).workload.toNat := by
  have hle := h.work i
  have hlt : (specs[i]).workload.toNat < 2 ^ 32 := (specs[i]).workload.toNat_lt
  rw [h.workload hi] at hle
  unfold ProcessCtlBlock.remaining
  rw [h.workload hi]
  omega

/-- An algorithm whose keys are covered takes somebody who waits. -/
theorem CallInv.selects (h : CallInv specs k caller main_ctx s) (hcov : Covered specs algo)
    (hw : ∃ i < specs.length, (s.pcbs i).state = .WAITING) (inp : Input) : Selects algo inp s := by
  obtain ⟨i, hi, hw⟩ := hw
  have hn : i < s.num_processes := h.table.num ▸ hi
  have hmem : specs[i] ∈ specs := List.getElem_mem hi
  have hselect : ∀ {α : Type} [LinearOrder α] {key : ProcessCtlBlock → α} {bound : α}, key (s.pcbs i) < bound →
      Selectable s key bound := fun hb => ⟨i, hn, waiting_iff.mpr hw, hb⟩
  cases algo with
  | basic | rr | insanity => trivial
  | fifo =>
    refine .inl (hselect ?_)
    rw [h.table.creation_quantum, load_creation_quantum hi]
    exact hcov _ hmem
  | sjf =>
    refine .inl (hselect ?_)
    rw [h.table.workload hi]
    exact hcov _ hmem
  | psjf =>
    refine .inr (.inl (hselect ?_))
    rw [h.table.workload hi]
    exact hcov _ hmem
  | sctf => exact .inr (.inl (hselect ((h.table.remaining_le hi).trans_lt (hcov _ hmem))))
  | priority =>
    refine .inl (hselect (OrderDual.toDual_lt_toDual.mpr ?_))
    rw [h.table.load_priority hi]
    exact hcov _ hmem

/-- **The call** switches to somebody who waits. -/
theorem CallInv.switches (h : CallInv specs k caller main_ctx s) (hcov : Covered specs algo)
    (hw : ∃ i < specs.length, (s.pcbs i).state = .WAITING) (inp : Input) :
    Sound algo inp s ∧ ∃ pid, algo.run s inp = some (.context_switch pid) := by
  have hpos : 0 < s.num_processes := h.table.num ▸ Nat.lt_of_le_of_lt (Nat.zero_le _) h.table.current
  have hcur : s.current_process < s.num_processes := h.table.num ▸ h.table.current
  have hselects := h.selects hcov hw inp
  have hsound : Sound algo inp s := by
    have hselecting : algo.Selecting → Sound algo inp s := fun ha =>
      (sound_iff_selects ha (h.idle _ h.table.current) fun _ => hcur).mpr hselects
    cases algo with
    | basic => exact sound_of_safe (.inl rfl) inp hpos
    | rr => exact sound_of_safe (.inr (.inl rfl)) inp hpos
    | insanity => exact absurd hcov id
    | fifo => exact hselecting (.inl rfl)
    | sjf => exact hselecting (.inr (.inl rfl))
    | psjf => exact hselecting (.inr (.inr (.inl rfl)))
    | sctf => exact hselecting (.inr (.inr (.inr (.inl rfl))))
    | priority => exact hselecting (.inr (.inr (.inr (.inr rfl))))
  refine ⟨hsound, ?_⟩
  obtain ⟨c, hc⟩ : ∃ c, algo.run s inp = some c := by
    cases algo with
    | insanity => exact absurd hcov id
    | basic | fifo | sjf | psjf | sctf | rr | priority => exact ⟨_, rfl⟩
  cases c with
  | ret =>
    obtain ⟨i, hi, hw⟩ := hw
    have hidle := run_ret hpos hc i (h.table.num ▸ hi)
    rw [waiting_iff.mpr hw] at hidle
    cases hidle
  | context_switch pid => exact ⟨pid, hc⟩

end Call

/-! ## The steps -/

/-- A step makes one dispatch at most. -/
theorem quanta_step_le (h : step algo inp m = some (m', ev)) : quanta ev ≤ 1 := by
  unfold quanta
  rcases step_cases h with ⟨caller, _, hi⟩ | hq
  · rcases handler_cases hi with ⟨_, rfl, _⟩ | ⟨pid, ev', _, rfl, hsw⟩
    · simp
    · rw [dispatches_append, dispatches_callEvents, List.nil_append]
      rcases dispatches_context_switch hsw with ⟨d, hd⟩ | hd
      · simp [hd]
      · simp [hd]
  · rw [hq.silent.2.1]
    exact Nat.zero_le _

/-- The machine keeps its pace, and each step brings it nearer to its end. -/
theorem Paced.step (h : Paced specs tr m) (hinv : Inv specs tr m) (hgap : NoGap specs) (hcov : Covered specs algo)
    (hs : step algo inp m = some (m', ev)) (hq : quanta (tr ++ ev) < 2 ^ 32) :
    Inv specs (tr ++ ev) m' ∧ Paced specs (tr ++ ev) m' ∧ SoundCalls algo ev ∧ m.stepsLeft = m'.stepsLeft + 1 := by
  have hcalls : SoundCalls algo ev := by
    intro c hc
    obtain rfl := step_calls hs c hc
    rcases step_cases hs with ⟨caller, hcaller, -⟩ | hquiet
    · exact ((hinv.toCall hcaller).switches hcov (h.waits hinv hgap hcaller) inp).1
    · rw [hquiet.silent.1] at hc
      cases hc
  have hsound := soundStep_of_step ⟨inp, hs⟩ hcalls
  have hinv' := hinv.step hsound hq
  refine ⟨hinv', ?_⟩
  cases hsound with
  | quiet hquiet => exact ⟨h.quiet hinv hquiet, hcalls, hinv.stepsLeft_quiet hquiet⟩
  | @ret inp caller hc hret =>
    obtain ⟨-, pid, hrun⟩ := (hinv.toCall hc).switches hcov (h.waits hinv hgap hc) inp
    rw [hrun] at hret
    cases hret
  | @dispatch inp caller new m' hc hrun hnew hw hsw hswitch =>
    refine ⟨⟨?_, fun hm => ?_⟩, hcalls, hinv.stepsLeft_dispatch hc hnew hw hswitch⟩
    · have hcard := hsw.served.trans (Nat.succ_le_succ (Finset.card_le_card served_atCall))
      have hone : quanta (callEvents inp m.sstate ++ [.dispatch new (atCall m.sstate)]) = 1 := by
        simp only [quanta, dispatches_append, dispatches_callEvents]
        rfl
      rw [quanta_append, hone]
      exact hcard.trans (Nat.succ_le_succ h.count)
    · have hctl := hinv'.control
      unfold ControlInv at hctl
      rw [hm] at hctl
      have hrunning : (m'.sstate.pcbs new).state = .RUNNING := by rw [hsw.state, if_pos rfl]
      exact absurd hrunning (hctl.idle new (by rw [hsw.num]; simpa using hnew))

/-- Before its end the machine has a step to take. -/
theorem Paced.can_step (h : Paced specs tr m) (hinv : Inv specs tr m) (hgap : NoGap specs) (hcov : Covered specs algo)
    (hm : m.control ≠ .finished) (inp : Input) : ∃ m' ev, Scheduler.step algo inp m = some (m', ev) := by
  have hinterrupt : ∀ {caller}, Calls m.control caller →
      ∃ m' ev, interrupt_handler algo inp caller m = some (m', ev) := by
    intro caller hc
    obtain ⟨-, pid, hrun⟩ := (hinv.toCall hc).switches hcov (h.waits hinv hgap hc) inp
    unfold atCall at hrun
    unfold interrupt_handler
    dsimp only
    rw [hrun]
    exact ⟨_, _, rfl⟩
  have hctl := hinv.control
  unfold ControlInv at hctl
  unfold Scheduler.step
  cases hc : m.control with
  | mainLoop => exact hinterrupt (hc ▸ .main)
  | mainCheck => exact ⟨_, _, rfl⟩
  | loopTest pid =>
    dsimp only
    split <;> exact ⟨_, _, rfl⟩
  | checkPoint pid i =>
    dsimp only
    split
    · exact hinterrupt (hc ▸ .process pid i)
    · exact ⟨_, _, rfl⟩
  | afterCheck pid i =>
    dsimp only
    split <;> exact ⟨_, _, rfl⟩
  | finished => exact absurd hc hm
  | undefined =>
    rw [hc] at hctl
    exact hctl.elim

/-! ## Runs -/

theorem le_stepsOf {i : Nat} (h : (m.sstate.pcbs i).state ≠ .TERMINATED) : 2 ≤ m.stepsOf i := by
  cases hst : (m.sstate.pcbs i).state with
  | CREATED =>
    rw [stepsOf_created hst]
    omega
  | WAITING =>
    rw [stepsOf_waiting hst]
    exact Nat.le_add_left _ _
  | RUNNING =>
    rw [stepsOf_running hst]
    exact Nat.le_add_left _ _
  | TERMINATED => exact absurd hst h

/-- Before its end the machine has a step to take, besides the one that is counted and not taken. -/
theorem Paced.two_le (h : Paced specs tr m) (hinv : Inv specs tr m) (hm : m.control ≠ .finished) : 2 ≤ m.stepsLeft := by
  have hctl := hinv.control
  have hn : m.sstate.num_processes = specs.length := hinv.table.num
  have hpart : ∀ i < specs.length, (m.sstate.pcbs i).state ≠ .TERMINATED → 2 ≤ m.stepsLeft := by
    intro i hi hne
    have hsum := Finset.single_le_sum_of_canonicallyOrdered (f := m.stepsOf) (Finset.mem_range.mpr (hn ▸ hi))
    have hle := le_stepsOf hne
    unfold Machine.stepsLeft
    omega
  have hexec : ∀ pid, Executing m.sstate m.main_ctx pid → 2 ≤ m.stepsLeft := by
    intro pid he
    refine hpart pid (he.current ▸ hinv.table.current) ?_
    rw [he.running]
    simp
  unfold ControlInv at hctl
  cases hc : m.control with
  | finished => exact absurd hc hm
  | mainLoop =>
    obtain ⟨i, hi, hne⟩ := h.someone hc
    exact hpart i hi hne
  | mainCheck =>
    unfold Machine.stepsLeft
    rw [hc]
    exact Nat.le_add_left _ _
  | loopTest pid =>
    rw [hc] at hctl
    exact hexec pid hctl
  | checkPoint pid i =>
    rw [hc] at hctl
    exact hexec pid hctl.1
  | afterCheck pid i =>
    rw [hc] at hctl
    exact hexec pid hctl.1
  | undefined =>
    rw [hc] at hctl
    exact hctl.elim

theorem Inv.stepsLeft_finished (h : Inv specs tr m) (hm : m.control = .finished) : m.stepsLeft = 1 := by
  have hctl := h.control
  unfold ControlInv at hctl
  rw [hm] at hctl
  unfold Machine.stepsLeft
  rw [hm, Finset.sum_eq_zero fun i hi => stepsOf_terminated (hctl i (Finset.mem_range.mp hi))]
  rfl

theorem SoundCalls.append {a b : List Event} (ha : SoundCalls algo a) (hb : SoundCalls algo b) :
    SoundCalls algo (a ++ b) := by
  intro c hc
  rw [calls_append, List.mem_append] at hc
  exact hc.elim (ha c) (hb c)

/-- **The steps that are left are taken**, whatever the inputs. -/
theorem Paced.exec_finished (h : Paced specs tr m) (hinv : Inv specs tr m) (hgap : NoGap specs)
    (hcov : Covered specs algo) (hlen : inps.length + 1 = m.stepsLeft) (hq : quanta tr + inps.length < 2 ^ 32) :
    ∃ tr' m', exec algo inps m = some (tr', m') ∧ Inv specs (tr ++ tr') m' ∧ m'.control = .finished ∧
      SoundCalls algo tr' ∧ quanta (tr ++ tr') < 2 ^ 32 := by
  induction inps generalizing tr m with
  | nil =>
    have hcalls : SoundCalls algo [] := fun c hc => absurd hc List.not_mem_nil
    have hfin : m.control = .finished := by
      by_contra hm
      have hle := h.two_le hinv hm
      rw [← hlen] at hle
      exact absurd hle (by decide)
    refine ⟨[], m, rfl, by simpa using hinv, hfin, hcalls, ?_⟩
    simpa using hq
  | cons inp inps ih =>
    rw [List.length_cons] at hlen hq
    have hm : m.control ≠ .finished := fun hm => by
      rw [hinv.stepsLeft_finished hm] at hlen
      omega
    obtain ⟨m₁, ev, hs⟩ := h.can_step hinv hgap hcov hm inp
    have hev := quanta_step_le hs
    have hq₁ : quanta (tr ++ ev) < 2 ^ 32 := by
      rw [quanta_append]
      omega
    obtain ⟨hinv₁, h₁, hcalls, hleft⟩ := h.step hinv hgap hcov hs hq₁
    obtain ⟨tr', m', he, hinv', hfin, hcalls', hq'⟩ := ih h₁ hinv₁ (by omega) (by rw [quanta_append]; omega)
    rw [List.append_assoc] at hinv' hq'
    exact ⟨ev ++ tr', m', exec_cons.mpr ⟨_, ev, tr', hs, he, rfl⟩, hinv', hfin, hcalls.append hcalls', hq'⟩

theorem load_cons_workload (p : ProcessSpec) (specs : List ProcessSpec) (i : Nat) :
    ((load (p :: specs)).pcbs (i + 1)).workload = ((load specs).pcbs i).workload := by
  unfold load
  dsimp only
  rw [List.getElem?_cons_succ]
  cases specs[i]? <;> rfl

theorem sum_load (specs : List ProcessSpec) :
    ∑ i ∈ Finset.range specs.length, (41 * ((load specs).pcbs i).workload + 3) = totalSteps specs := by
  unfold totalSteps
  induction specs with
  | nil => rfl
  | cons p specs ih =>
    rw [List.length_cons, Finset.sum_range_succ', List.map_cons, List.sum_cons, Nat.add_comm, ← ih]
    refine congrArg (_ + ·) (Finset.sum_congr rfl fun i _ => ?_)
    rw [load_cons_workload]

/-- The steps that are left at the start. -/
theorem stepsLeft_init (specs : List ProcessSpec) : (Machine.init specs).stepsLeft = totalSteps specs + 1 := by
  have hpart : ∀ i, (Machine.init specs).stepsOf i = 41 * ((load specs).pcbs i).workload + 3 := by
    intro i
    have hcreated : ((load specs).pcbs i).state = .CREATED ∧ ((load specs).pcbs i).executed_work = 0 := by
      unfold load
      dsimp only
      split <;> exact ⟨rfl, rfl⟩
    rw [stepsOf_created hcreated.1, ProcessCtlBlock.unitsLeft,
      show (Machine.init specs).sstate = load specs from rfl, hcreated.2, Nat.sub_zero]
  unfold Machine.stepsLeft
  rw [Finset.sum_congr rfl fun i _ => hpart i]
  exact congrArg (· + 1) (sum_load specs)

/-- A process that has terminated is not made anything else by an interrupt, and an interrupt terminates nobody. -/
theorem Inv.terminated_atCall_iff (h : Inv specs tr m) {i : Nat} :
    ((atCall m.sstate).pcbs i).state = .TERMINATED ↔ (m.sstate.pcbs i).state = .TERMINATED := by
  refine ⟨fun hT => ?_, h.terminated_atCall⟩
  rw [atCall_state] at hT
  split at hT
  · cases hT
  · exact hT

/-- Whoever has terminated did so once, and nobody else did. -/
def EachOnce (specs : List ProcessSpec) (tr : List Event) (m : Machine) : Prop :=
  ∀ i, (terminated tr).count i = if i < specs.length ∧ (m.sstate.pcbs i).state = .TERMINATED then 1 else 0

theorem eachOnce_init (specs : List ProcessSpec) : EachOnce specs [] (Machine.init specs) := by
  intro i
  have hcreated : ((load specs).pcbs i).state = .CREATED := by
    unfold load
    dsimp only
    split <;> rfl
  refine (if_neg fun hT => ?_).symm
  cases hcreated.symm.trans hT.2

theorem EachOnce.step (h : EachOnce specs tr m) (hinv : Inv specs tr m) (hs : SoundStep algo m ev m') :
    EachOnce specs (tr ++ ev) m' := by
  intro i
  rw [terminated_append, List.count_append, h i]
  cases hs with
  | quiet hq =>
    have hst := hq.table.2.2.2.2.2.2 i
    rcases hq.events with rfl | ⟨pid, hctl, rfl⟩
    · rw [if_neg fun hend => hend.2 rfl] at hst
      rw [hst]
      exact Nat.add_zero _
    · have hexec : Executing m.sstate m.main_ctx pid := by
        have hinvc := hinv.control
        unfold ControlInv at hinvc
        rwa [hctl] at hinvc
      have hpid : pid < specs.length := hexec.current ▸ hinv.table.current
      by_cases hip : i = pid
      · subst hip
        rw [if_pos ⟨hctl, by simp⟩] at hst
        simp [hst, hexec.running, hpid, terminated]
      · have hne : ¬(m.control = .loopTest i ∧ [Event.termination pid] ≠ []) := fun hend => by
          rw [hctl] at hend
          exact hip (Control.loopTest.inj hend.1).symm
        rw [if_neg hne] at hst
        rw [hst]
        simp [terminated, Ne.symm hip]
  | ret =>
    rw [terminated_callEvents]
    simp only [hinv.terminated_atCall_iff]
    exact Nat.add_zero _
  | @dispatch inp caller new m' _ _ hnew hw hsw =>
    rw [terminated_append, terminated_callEvents, hsw.state]
    by_cases hin : i = new
    · subst hin
      have hT : (m.sstate.pcbs i).state ≠ .TERMINATED := fun hT => by
        rw [hinv.terminated_atCall hT] at hw
        cases hw
      simp [hT, terminated]
    · simp only [if_neg hin, hinv.terminated_atCall_iff]
      exact Nat.add_zero _

theorem Reaches.eachOnce (h : Reaches algo specs tr m) (hne : specs ≠ []) (hq : quanta tr < 2 ^ 32)
    (hsound : SoundCalls algo tr) : EachOnce specs tr m :=
  (h.induct hne hq hsound (eachOnce_init specs) fun hinv ih hs _ _ _ => ih.step hinv hs).2

/-- **The loop of `main` ends** under every algorithm whose keys are covered and for every interrupt timing, after the
same number of steps: each process has terminated once and has done its work. -/
theorem main_loop_ends (hne : specs ≠ []) (hgap : NoGap specs) (hcov : Covered specs algo)
    (hsmall : totalSteps specs < 2 ^ 32) (hlen : inps.length = totalSteps specs) :
    ∃ tr m, exec algo inps (Machine.init specs) = some (tr, m) ∧ m.control = .finished ∧
      (terminated tr).Perm (List.range specs.length) ∧
      ∀ i, (hi : i < specs.length) → (m.sstate.pcbs i).executed_work = (specs[i]).workload.toNat := by
  obtain ⟨tr, m, he, hinv, hfin, hcalls, hq⟩ := (paced_init hne).exec_finished (inv_init hne) hgap hcov
    (by rw [stepsLeft_init, hlen]) (by rw [quanta_nil, hlen, Nat.zero_add]; exact hsmall)
  rw [List.nil_append] at hinv hq
  have hdone : ∀ i < specs.length, (m.sstate.pcbs i).state = .TERMINATED := by
    have hctl := hinv.control
    unfold ControlInv at hctl
    rw [hfin, hinv.table.num] at hctl
    exact hctl
  have hr : Reaches algo specs tr m := run_of_exec he
  refine ⟨tr, m, he, hfin, ?_, fun i hi => ?_⟩
  · refine List.perm_iff_count.mpr fun i => ?_
    rw [hr.eachOnce hne hq hcalls i, List.nodup_range.count]
    simp only [List.mem_range]
    split
    · rename_i hi
      rw [if_pos hi.1]
    · rename_i hi
      rw [if_neg fun hlt => hi ⟨hlt, hdone i hlt⟩]
  · rw [hinv.table.done i (hdone i hi), hinv.table.workload hi]

/-- Two processes, the second one created when the first is running, under `fifo`, with an interrupt. -/
theorem main_loop_ends_two :
    ∃ tr m, exec .fifo (⟨false, [], 7⟩ :: ⟨false, [], 7⟩ :: List.replicate 86 ⟨true, [], 7⟩)
      (Machine.init [⟨"A", 0, 1, 0⟩, ⟨"B", 1, 1, 0⟩]) = some (tr, m) ∧ m.control = .finished ∧
      (terminated tr).Perm [0, 1] := by
  have hcov : Covered [⟨"A", 0, 1, 0⟩, ⟨"B", 1, 1, 0⟩] .fifo := by
    unfold Covered
    decide
  have hlen : (⟨false, [], 7⟩ :: ⟨false, [], 7⟩ :: List.replicate 86 ⟨true, [], 7⟩ : List Input).length =
      totalSteps [⟨"A", 0, 1, 0⟩, ⟨"B", 1, 1, 0⟩] := by decide
  obtain ⟨tr, m, he, hfin, hperm, -⟩ := main_loop_ends (by simp) (by unfold NoGap; decide) hcov (by decide) hlen
  exact ⟨tr, m, he, hfin, hperm⟩

end Cs326.Scheduler
