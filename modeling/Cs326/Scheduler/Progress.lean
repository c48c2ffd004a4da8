import Cs326.Scheduler.Steps

/-!
# When the loop of `main` makes progress

`current_quantum` is advanced by `context_switch` alone, so under `basic` and `rr` a call of `interrupt_handler` from
`main` changes something exactly when a process is ready in it: waiting, interrupted in it, or created at the current
quantum. Without one the table is the same after the call, so it is the same forever (`stuck_forever`).
-/

namespace Cs326.Scheduler

variable {algo : Algorithm} {specs : List ProcessSpec} {tr tr' ev : List Event} {m m' : Machine} {s : SchedulerState}
  {inp : Input}

/-- The algorithm will find process `i` waiting. -/
def Ready (s : SchedulerState) (i : Nat) : Prop :=
  (s.pcbs i).state = .WAITING ∨ (i = s.current_process ∧ (s.pcbs i).state = .RUNNING) ∨
    (s.pcbs i).creation_quantum = s.current_quantum

def SomeReady (s : SchedulerState) : Prop := ∃ i < s.num_processes, Ready s i

theorem waiting_atCall {i : Nat} (hi : i < s.num_processes) : (atCall s).waiting i = true ↔ Ready s i := by
  rw [waiting_iff, atCall_state, Ready]
  constructor
  · intro h
    split at h
    · rename_i hc
      exact hc.elim (fun ha => .inr (.inr ha.2)) fun hr => .inr (.inl hr)
    · exact .inl h
  · rintro (h | h | h)
    · rw [h]; exact ite_self _
    · exact if_pos (.inr h)
    · exact if_pos (.inl ⟨hi, h⟩)

/-- With nobody ready the interrupt leaves the table alone. -/
theorem atCall_of_not_ready (h : ¬SomeReady s) (hcur : s.current_process < s.num_processes) : atCall s = s := by
  have hpre : preempt s = s := by
    unfold preempt
    exact if_neg fun hr => h ⟨_, hcur, .inr (.inl ⟨rfl, hr⟩)⟩
  rw [atCall, hpre, handle_arrivals]
  congr 1
  funext i
  exact if_neg fun ha => h ⟨i, ha.1, .inr (.inr ha.2)⟩

/-- The step dispatches a process or advances the quantum. -/
def Progress (m : Machine) (ev : List Event) (m' : Machine) : Prop :=
  dispatches ev ≠ [] ∨ m'.sstate.current_quantum ≠ m.sstate.current_quantum

/-- `basic` and `rr` return exactly when nobody waits, and else switch to an index of the table. -/
theorem run_basic_rr (s : SchedulerState) (inp : Input) (ha : algo = .basic ∨ algo = .rr) :
    (algo.run s inp = some .ret ∧ ∀ j < s.num_processes, s.waiting j = false) ∨
      ∃ i < s.num_processes, s.waiting i = true ∧ algo.run s inp = some (.context_switch i) := by
  rcases ha with rfl | rfl
  · cases hb : basic s with
    | ret => exact .inl ⟨congrArg some hb, basic_eq_ret.mp hb⟩
    | context_switch pid =>
      obtain ⟨i, hi, rfl, hw⟩ := basic_eq_switch hb
      exact .inr ⟨i, hi, hw, congrArg some hb⟩
  · cases hb : rr s with
    | ret => exact .inl ⟨congrArg some hb, rr_eq_ret.mp hb⟩
    | context_switch pid =>
      obtain ⟨i, hi, rfl, hw, _⟩ := rr_eq_switch hb
      exact .inr ⟨i, hi, hw, congrArg some hb⟩

/-- **One call from `main`**: it makes progress iff somebody is ready, and else only calls the algorithm. -/
theorem main_call (ha : algo = .basic ∨ algo = .rr) (hc : m.control = .mainLoop)
    (hcur : m.sstate.current_process < m.sstate.num_processes) (hs : Step algo m ev m') :
    (SomeReady m.sstate ∧ Progress m ev m') ∨
      (¬SomeReady m.sstate ∧ ¬Progress m ev m' ∧ m'.sstate = m.sstate ∧ m'.control = .mainCheck) := by
  obtain ⟨inp, hs⟩ := hs
  have hi : interrupt_handler algo inp .mainLoop m = some (m', ev) := by
    unfold step at hs; rwa [hc] at hs
  rcases run_basic_rr (atCall m.sstate) inp ha with ⟨hret, hno⟩ | ⟨i, hin, hw, hsw⟩
  · have hnot : ¬SomeReady m.sstate := by
      rintro ⟨i, hin, hr⟩
      have := hno i (by simpa using hin)
      rw [(waiting_atCall hin).mpr hr] at this
      cases this
    rcases handler_cases hi with ⟨_, rfl, rfl⟩ | ⟨pid, _, hsw, _⟩
    · refine .inr ⟨hnot, ?_, atCall_of_not_ready hnot hcur, rfl⟩
      rintro (hd | hd)
      · exact hd (dispatches_callEvents _)
      · exact hd (atCall_current_quantum _)
    · rw [hret] at hsw; cases hsw
  · rw [atCall_num_processes] at hin
    refine .inl ⟨⟨i, hin, (waiting_atCall hin).mp hw⟩, .inl ?_⟩
    rcases handler_cases hi with ⟨hret, _, _⟩ | ⟨pid, ev', hpid, rfl, he⟩
    · rw [hret] at hsw; cases hsw
    · obtain rfl : pid = i := by rw [hpid] at hsw; exact Call.context_switch.inj (Option.some.inj hsw)
      obtain ⟨m'', he', _⟩ := context_switch_valid (m := { m with sstate := atCall m.sstate }) .mainLoop
        (show i < (atCall m.sstate).num_processes by simpa using hin)
      rw [he] at he'
      obtain rfl : ev' = [.dispatch i (atCall m.sstate)] := congrArg Prod.snd he'
      simp [dispatches]

/-- `main` is in its loop with the table `s`, in which some process has not terminated. -/
def Spinning (s : SchedulerState) (m : Machine) : Prop :=
  m.sstate = s ∧ (m.control = .mainLoop ∨ m.control = .mainCheck)

/-- **Stuck forever**: with nobody ready and somebody unfinished, the loop of `main` repeats on the same table. -/
theorem stuck_forever (ha : algo = .basic ∨ algo = .rr) (hno : ¬SomeReady s)
    (hcur : s.current_process < s.num_processes) (hu : ∃ i < s.num_processes, (s.pcbs i).state ≠ .TERMINATED)
    (hm : Spinning s m) (hrun : Run (Step algo) m tr' m') : Spinning s m' := by
  refine Run.stable (fun {t ev u} ht hs => ?_) hrun hm
  obtain ⟨rfl, hc | hc⟩ := ht
  · rcases main_call ha hc hcur hs with ⟨hr, _⟩ | ⟨_, _, heq, hc'⟩
    · exact absurd hr hno
    · exact ⟨heq, .inr hc'⟩
  · obtain ⟨inp, hs⟩ := hs
    have hall : ¬(0 < t.sstate.num_processes ∧ allTerminated t.sstate = true) := by
      rintro ⟨_, hall⟩
      obtain ⟨i, hi, hne⟩ := hu
      exact hne (by simpa using List.all_eq_true.mp hall i (List.mem_range.mpr hi))
    simp only [step, hc, if_neg hall, Option.some.injEq, Prod.mk.injEq] at hs
    obtain ⟨rfl, rfl⟩ := hs
    exact ⟨rfl, .inl rfl⟩

/-- In the run with the trace `tr` to `m`, `main` calls `interrupt_handler` in `m₁` while some process has not
terminated; the step emits `ev` and ends in `m₂`. -/
def MainCall (algo : Algorithm) (specs : List ProcessSpec) (tr : List Event) (m m₁ : Machine) (ev : List Event)
    (m₂ : Machine) : Prop :=
  m₁.control = .mainLoop ∧ (∃ i < specs.length, (m₁.sstate.pcbs i).state ≠ .TERMINATED) ∧ Step algo m₁ ev m₂ ∧
    ∃ tr₁ tr₂, Reaches algo specs tr₁ m₁ ∧ Run (Step algo) m₂ tr₂ m ∧ tr = tr₁ ++ ev ++ tr₂

theorem MainCall.table {m₁ m₂ : Machine} (h : MainCall algo specs tr m m₁ ev m₂) :
    m₁.sstate.num_processes = specs.length ∧ m₁.sstate.current_process < m₁.sstate.num_processes := by
  obtain ⟨_, ⟨i, hi, _⟩, _, tr₁, _, hr, _⟩ := h
  have hne : specs ≠ [] := List.length_pos_iff.mp (Nat.lt_of_le_of_lt (Nat.zero_le _) hi)
  exact ⟨hr.num_processes, hr.current_lt hne⟩

/-- **Progress.** In every run under `basic` or `rr`, the calls that `main` makes while some process is unfinished all
make progress iff each of them finds somebody ready; and a call that finds nobody leaves `main` in its loop on the same
table for the rest of the run. -/
theorem main_progress (ha : algo = .basic ∨ algo = .rr) :
    ((∀ m₁ ev m₂, MainCall algo specs tr m m₁ ev m₂ → Progress m₁ ev m₂) ↔
      ∀ m₁ ev m₂, MainCall algo specs tr m m₁ ev m₂ → SomeReady m₁.sstate) ∧
    ∀ m₁ ev m₂, MainCall algo specs tr m m₁ ev m₂ → ¬SomeReady m₁.sstate →
      m.sstate = m₁.sstate ∧ m.control ≠ .finished := by
  constructor
  · refine forall_congr' fun m₁ => forall_congr' fun ev => forall_congr' fun m₂ => forall_congr' fun h => ?_
    rcases main_call ha h.1 h.table.2 h.2.2.1 with ⟨hr, hp⟩ | ⟨hr, hp, _⟩
    · constructor
      · intro _
        exact hr
      · intro _
        exact hp
    · constructor
      · intro h
        exact absurd h hp
      · intro h
        exact absurd h hr
  · intro m₁ ev m₂ h hno
    obtain ⟨hn, hcur⟩ := h.table
    obtain ⟨hc, hu, hs, _, tr₂, _, hrun, _⟩ := h
    rcases main_call ha hc hcur hs with ⟨hr, _⟩ | ⟨_, _, heq, hc'⟩
    · exact absurd hr hno
    · obtain ⟨hsame, hctl⟩ := stuck_forever ha hno hcur (hn ▸ hu) ⟨heq, .inr hc'⟩ hrun
      refine ⟨hsame, fun hfin => ?_⟩
      rcases hctl with hctl | hctl <;> rw [hctl] at hfin <;> cases hfin

/-- One process, created at quantum 1: the clock never leaves 0. -/
theorem main_progress_idle :
    ¬∀ algo, algo = .basic ∨ algo = .rr → ∀ specs, specs ≠ [] → ∀ tr m m₁ ev m₂,
      MainCall algo specs tr m m₁ ev m₂ → Progress m₁ ev m₂ := by
  intro h
  have hs : Step .basic (Machine.init [⟨"Process_A", 1, 10, 60⟩]) _ _ := ⟨⟨false, [], 0⟩, rfl⟩
  rcases h .basic (.inl rfl) _ (by simp) _ _ _ _ _
    ⟨rfl, ⟨0, by decide, by decide⟩, hs, [], [], .nil, .nil, rfl⟩ with hp | hp
  · exact hp rfl
  · exact hp rfl

/-- After three steps of that run the table is still the initial one. -/
theorem main_progress_stuck :
    ∃ tr m, Reaches .basic [⟨"Process_A", 1, 10, 60⟩] tr m ∧ (calls tr).length = 2 ∧
      m.sstate = load [⟨"Process_A", 1, 10, 60⟩] ∧ m.control ≠ .finished := by
  have h₁ : Step .basic (Machine.init [⟨"Process_A", 1, 10, 60⟩]) _
      ⟨atCall (load [⟨"Process_A", 1, 10, 60⟩]), .mainStart, .mainCheck⟩ := ⟨⟨false, [], 0⟩, rfl⟩
  have h₂ : Run (Step .basic) ⟨atCall (load [⟨"Process_A", 1, 10, 60⟩]), .mainStart, .mainCheck⟩ _ _ :=
    (Run.nil.snoc ⟨⟨false, [], 0⟩, rfl⟩).snoc ⟨⟨false, [], 0⟩, rfl⟩
  refine ⟨_, _, (Run.single h₁).trans h₂, rfl, (main_progress (.inl rfl)).2 _ _ _
    ⟨rfl, ⟨0, by decide, by decide⟩, h₁, [], _, .nil, h₂, rfl⟩ ?_⟩
  rintro ⟨i, hi, hready⟩
  obtain rfl : i = 0 := Nat.lt_one_iff.mp hi
  rcases hready with h | ⟨_, h⟩ | h <;> cases h

end Cs326.Scheduler
