import Cs326.Scheduler.Invariant

/-!
# Where the events of a run stand

A call of the algorithm stands right before the dispatch it makes (`Reaches.at_call`, `Reaches.at_dispatch`). A process
that has been dispatched and has not terminated since waits at every later call (`Reaches.waits`): nothing but its own
termination takes it from `RUNNING` and `WAITING`, in any run, sound or not.
-/

namespace Cs326.Scheduler

variable {algo : Algorithm} {specs : List ProcessSpec} {tr ev a b c x y : List Event} {m m' : Machine}
  {s s' : SchedulerState} {inp : Input} {caller : Context} {pid : Int} {p : Nat}

/-! ## One step -/

/-- The switch emits one event. -/
theorem context_switch_events (h : context_switch pid caller m = (m', ev)) :
    (∃ p < m.sstate.num_processes, pid = p ∧ ev = [.dispatch p m.sstate] ∧ Switched m.sstate p m'.sstate) ∨
      (¬∃ p < m.sstate.num_processes, pid = p) ∧ ev = [.abort] ∧ m'.sstate = m.sstate := by
  by_cases hp : ∃ p < m.sstate.num_processes, pid = (p : Nat)
  · obtain ⟨p, hp, rfl⟩ := hp
    obtain ⟨m'', he, hs, _⟩ := context_switch_valid caller hp
    obtain ⟨rfl, rfl⟩ := Prod.mk.inj (h.symm.trans he)
    exact .inl ⟨p, hp, rfl, rfl, hs⟩
  · have hinvalid : ¬((0 : Int) ≤ pid ∧ pid < m.sstate.num_processes) :=
      fun hv => hp ⟨pid.toNat, by omega, by omega⟩
    unfold context_switch at h
    dsimp only at h
    rw [if_neg hinvalid] at h
    obtain ⟨rfl, rfl⟩ := Prod.mk.inj h
    exact .inr ⟨hp, rfl, rfl⟩

/-- **The interrupt that calls the algorithm.** -/
theorem step_at_call (h : Step algo m (x ++ .call inp s :: y) m') : ∃ caller, ∃ l : List Nat, Calls m.control caller ∧
    x = l.map .arrival ∧ s = atCall m.sstate ∧
    (algo.run s inp = some .ret ∧ y = [] ∨ ∃ pid, algo.run s inp = some (.context_switch pid) ∧
      context_switch pid caller { m with sstate := s } = (m', y)) := by
  obtain ⟨inp', h⟩ := h
  have hno : ∀ l : List Nat, Event.call inp s ∉ l.map .arrival := fun l hl => by simp at hl
  rcases step_cases h with ⟨caller, hc, hi⟩ | hq
  · rcases handler_cases hi with ⟨hret, hev, _⟩ | ⟨pid, ev', hrun, hev, hsw⟩
    · obtain ⟨rfl, he, rfl⟩ := (List.append_cons_inj_of_notMem (hno _) List.not_mem_nil).mp hev.symm
      obtain ⟨rfl, rfl⟩ := Event.call.inj he
      exact ⟨caller, _, hc, rfl, rfl, .inl ⟨hret, rfl⟩⟩
    · have hnew : Event.call inp s ∉ ev' := by
        rcases context_switch_events hsw with ⟨_, _, _, rfl, _⟩ | ⟨_, rfl, _⟩ <;> simp
      rw [callEvents, List.append_assoc, List.singleton_append] at hev
      obtain ⟨rfl, he, rfl⟩ := (List.append_cons_inj_of_notMem (hno _) hnew).mp hev.symm
      obtain ⟨rfl, rfl⟩ := Event.call.inj he
      exact ⟨caller, _, hc, rfl, rfl, .inr ⟨pid, hrun, hsw⟩⟩
  · have := hq.silent.1
    simp [calls] at this

/-- A dispatch is made by the call before it. -/
theorem step_at_dispatch (h : Step algo m (x ++ .dispatch p s :: y) m') :
    ∃ l inp, x = l ++ [Event.call inp s] := by
  obtain ⟨inp, h⟩ := h
  have hmem : Event.dispatch p s ∈ x ++ .dispatch p s :: y := by simp
  rcases step_cases h with ⟨caller, hc, hi⟩ | hq
  · rcases handler_cases hi with ⟨_, hev, _⟩ | ⟨pid, ev', _, hev, hsw⟩
    · rw [hev] at hmem
      simp [callEvents] at hmem
    · have hno : Event.dispatch p s ∉ callEvents inp m.sstate := by simp [callEvents]
      rcases context_switch_events hsw with ⟨q, _, _, rfl, _⟩ | ⟨_, rfl, _⟩
      · obtain ⟨rfl, he, rfl⟩ := (List.append_cons_inj_of_notMem hno List.not_mem_nil).mp hev.symm
        obtain ⟨rfl, rfl⟩ := Event.dispatch.inj he
        exact ⟨_, inp, rfl⟩
      · rw [hev] at hmem
        simp [callEvents] at hmem
  · rcases hq.events with he | ⟨_, _, he⟩
    · rw [he] at hmem
      cases hmem
    · rw [he] at hmem
      simp at hmem

/-! ## Runs -/

/-- **A call in a run**, and what follows it when the algorithm switches. -/
theorem Reaches.at_call (h : Reaches algo specs tr m) (he : tr = a ++ .call inp s :: c) : ∃ tr₁, ∃ l : List Nat, ∃ m₁,
    ∃ caller, a = tr₁ ++ l.map .arrival ∧ Reaches algo specs tr₁ m₁ ∧ Calls m₁.control caller ∧ s = atCall m₁.sstate ∧
      s.num_processes = specs.length ∧ ∀ pid, algo.run s inp = some (.context_switch pid) →
        ∀ p : Nat, (∃ c', c = .dispatch p s :: c') ↔ p < specs.length ∧ pid = p := by
  subst he
  obtain ⟨tr₁, x, y, tr₂, m₁, m₂, rfl, rfl, h₁, hs, h₂⟩ := Run.at_event h
  obtain ⟨caller, l, hc, rfl, rfl, hcases⟩ := step_at_call hs
  have hn : (atCall m₁.sstate).num_processes = specs.length :=
    (atCall_num_processes _).trans (Reaches.num_processes h₁)
  refine ⟨tr₁, l, m₁, caller, rfl, h₁, hc, rfl, hn, ?_⟩
  intro pid hpid p
  rcases hcases with ⟨hret, _⟩ | ⟨pid', hrun, hsw⟩
  · rw [hret] at hpid
    cases hpid
  · obtain rfl : pid' = pid := by
      rw [hrun] at hpid
      exact Call.context_switch.inj (Option.some.inj hpid)
    rcases context_switch_events hsw with ⟨q, hq, rfl, rfl, _⟩ | ⟨hno, rfl, _⟩
    · have hq' : q < specs.length := hn ▸ hq
      constructor
      · rintro ⟨c', he⟩
        obtain ⟨he, _⟩ := List.cons.inj he
        obtain ⟨rfl, _⟩ := Event.dispatch.inj he
        exact ⟨hq', rfl⟩
      · rintro ⟨_, he⟩
        obtain rfl : q = p := Int.ofNat.inj he
        exact ⟨tr₂, rfl⟩
    · constructor
      · rintro ⟨c', he⟩
        obtain ⟨he, _⟩ := List.cons.inj he
        cases he
      · rintro ⟨hp, rfl⟩
        exact absurd ⟨p, hn ▸ hp, rfl⟩ hno

theorem mem_calls {k : Input × SchedulerState} : k ∈ calls tr ↔ ∃ a c, tr = a ++ .call k.1 k.2 :: c := by
  constructor
  · intro h
    obtain ⟨e, he, hk⟩ := List.mem_filterMap.mp h
    cases e with
    | call inp s =>
      obtain rfl := Option.some.inj hk
      exact List.append_of_mem he
    | arrival | dispatch | abort | termination => cases hk
  · rintro ⟨a, c, rfl⟩
    simp [calls]

/-- **A dispatch in a run.** -/
theorem Reaches.at_dispatch (h : Reaches algo specs tr m) (he : tr = a ++ .dispatch p s :: c) : ∃ a' inp,
    a = a' ++ [Event.call inp s] ∧ algo.run s inp = some (.context_switch p) ∧ p < specs.length := by
  subst he
  obtain ⟨tr₁, x, y, tr₂, m₁, m₂, rfl, rfl, h₁, hs, h₂⟩ := Run.at_event h
  obtain ⟨l, inp, rfl⟩ := step_at_dispatch hs
  have hn := Reaches.num_processes h₁
  rw [List.append_assoc, List.singleton_append] at hs
  obtain ⟨caller, l', _, _, rfl, ⟨_, hy⟩ | ⟨pid, hrun, hsw⟩⟩ := step_at_call hs
  · cases hy
  · rcases context_switch_events hsw with ⟨q, hq, rfl, he, _⟩ | ⟨_, he, _⟩
    · obtain ⟨he, _⟩ := List.cons.inj he
      obtain ⟨rfl, _⟩ := Event.dispatch.inj he
      refine ⟨tr₁ ++ l, inp, (List.append_assoc ..).symm, hrun, ?_⟩
      simpa [hn] using hq
    · obtain ⟨he, _⟩ := List.cons.inj he
      cases he

/-- The place of a dispatch in a trace. -/
theorem dispatches_eq_append_cons {d : Nat × SchedulerState} {l₁ l₂ : List (Nat × SchedulerState)} :
    dispatches tr = l₁ ++ d :: l₂ ↔
      ∃ a c, tr = a ++ .dispatch d.1 d.2 :: c ∧ dispatches a = l₁ ∧ dispatches c = l₂ := by
  constructor
  · intro h
    obtain ⟨a, c, rfl, rfl, h₂⟩ := List.filterMap_eq_append_iff.mp h
    obtain ⟨b, e, c, rfl, hb, he, rfl⟩ := List.filterMap_eq_cons_iff.mp h₂
    have hnil : dispatches b = [] := List.filterMap_eq_nil_iff.mpr hb
    cases e with
    | dispatch p s =>
      obtain rfl := Option.some.inj he
      refine ⟨a ++ b, c, by simp, ?_, rfl⟩
      rw [dispatches_append, hnil, List.append_nil]
      rfl
    | arrival | call | abort | termination => cases he
  · rintro ⟨a, c, rfl, rfl, rfl⟩
    rw [dispatches_append]
    rfl

/-- What `read_spec` stored stays, in every run. -/
theorem Reaches.erase (h : Reaches algo specs tr m) (i : Nat) : (m.sstate.pcbs i).erase = (load specs).pcbs i := by
  refine Run.stable (I := fun m => ∀ i, (m.sstate.pcbs i).erase = (load specs).pcbs i) ?_ h
    (fun i => erase_load i specs) i
  rintro m ev m' ih ⟨inp, hs⟩ i
  rw [← ih i]
  rcases step_cases hs with ⟨caller, _, hi⟩ | hq
  · rcases handler_cases hi with ⟨_, _, rfl⟩ | ⟨pid, ev', _, _, hsw⟩
    · exact atCall_erase _ i
    · rcases context_switch_events hsw with ⟨q, _, _, _, htbl⟩ | ⟨_, _, hsame⟩
      · exact (htbl.erase i).trans (atCall_erase _ i)
      · rw [hsame]
        exact atCall_erase _ i
  · exact hq.table.2.2.2.2.1 i

/-- The last dispatch of a trace. -/
theorem exists_last_dispatch (h : dispatches b ≠ []) :
    ∃ b₁ p s b₂, b = b₁ ++ .dispatch p s :: b₂ ∧ dispatches b₂ = [] := by
  induction b with
  | nil => exact absurd rfl h
  | cons e b ih =>
    by_cases hb : dispatches b = []
    · cases e with
      | dispatch p s => exact ⟨[], p, s, b, rfl, hb⟩
      | arrival | call | abort | termination => exact absurd hb h
    · obtain ⟨b₁, p, s, b₂, rfl, h₂⟩ := ih hb
      exact ⟨e :: b₁, p, s, b₂, rfl, h₂⟩

/-- The process has been dispatched and has not terminated since. -/
def Unended (tr : List Event) (p : Nat) : Prop := ∃ a s b, tr = a ++ .dispatch p s :: b ∧ Event.termination p ∉ b

/-- What a step adds to an unended process: it is dispatched, or it was unended and does not terminate. -/
theorem Unended.append (h : Unended (tr ++ ev) p) :
    Unended tr p ∧ Event.termination p ∉ ev ∨ ∃ s, Event.dispatch p s ∈ ev := by
  obtain ⟨a, s, b, he, hno⟩ := h
  rcases List.append_eq_append_iff.mp he with ⟨as, rfl, rfl⟩ | ⟨bs, rfl, he'⟩
  · exact .inr ⟨s, by simp⟩
  · cases bs with
    | nil =>
      obtain rfl : Event.dispatch p s :: b = ev := he'
      exact .inr ⟨s, List.mem_cons_self⟩
    | cons e bs =>
      simp only [List.cons_append, List.cons.injEq] at he'
      obtain ⟨rfl, rfl⟩ := he'
      rw [List.mem_append, not_or] at hno
      exact .inl ⟨⟨a, s, bs, rfl, hno.1⟩, hno.2⟩

/-- It waits, or it is the one that runs. -/
def Live (s : SchedulerState) (p : Nat) : Prop :=
  (s.pcbs p).state = .WAITING ∨ (s.pcbs p).state = .RUNNING ∧ p = s.current_process

/-- At a call it waits. -/
theorem Live.atCall (h : Live s p) : ((atCall s).pcbs p).state = .WAITING := by
  rw [atCall_state]
  rcases h with h | ⟨h, hcur⟩
  · rw [h]
    exact ite_self _
  · exact if_pos (.inr ⟨hcur, h⟩)

/-- **An unended process waits or runs**, after every step. -/
theorem Reaches.live (h : Reaches algo specs tr m) (hu : Unended tr p) : Live m.sstate p := by
  refine Run.invariant (I := fun tr m => Unended tr p → Live m.sstate p) ?_ ?_ h hu
  · rintro ⟨a, s, b, he, _⟩
    exact absurd he (by simp)
  intro tr m ev m' ih ⟨inp, hs⟩ hu
  rcases step_cases hs with ⟨caller, hc, hi⟩ | hq
  · rcases handler_cases hi with ⟨_, rfl, rfl⟩ | ⟨pid, ev', _, rfl, hsw⟩
    · rcases hu.append with ⟨hu, _⟩ | ⟨s, hd⟩
      · exact .inl (ih hu).atCall
      · simp [callEvents] at hd
    · rcases context_switch_events hsw with ⟨q, _, _, rfl, htbl⟩ | ⟨_, rfl, hsame⟩
      · by_cases hpq : p = q
        · subst hpq
          exact .inr ⟨by rw [htbl.state, if_pos rfl], htbl.current.symm⟩
        · rcases hu.append with ⟨hu, _⟩ | ⟨s, hd⟩
          · refine .inl ?_
            rw [htbl.state, if_neg hpq]
            exact (ih hu).atCall
          · simp [callEvents, hpq] at hd
      · rcases hu.append with ⟨hu, _⟩ | ⟨s, hd⟩
        · refine .inl ?_
          rw [hsame]
          exact (ih hu).atCall
        · simp [callEvents] at hd
  · obtain ⟨_, _, _, hcur, _, _, hst⟩ := hq.table
    rcases hu.append with ⟨hu, hno⟩ | ⟨s, hd⟩
    · have hkeep : (m'.sstate.pcbs p).state = (m.sstate.pcbs p).state := by
        rw [hst, if_neg]
        rintro ⟨hctl, hev⟩
        rcases hq.events with rfl | ⟨pid, hctl', rfl⟩
        · exact hev rfl
        · rw [hctl] at hctl'
          obtain rfl := Control.loopTest.inj hctl'
          exact hno List.mem_cons_self
      unfold Live
      rw [hkeep, hcur]
      exact ih hu
    · have hmem : (p, s) ∈ dispatches ev := List.mem_filterMap.mpr ⟨_, hd, rfl⟩
      rw [hq.silent.2.1] at hmem
      cases hmem

/-- **... and waits at every call.** -/
theorem Reaches.waits (h : Reaches algo specs tr m) (he : tr = a ++ .call inp s :: c) (hu : Unended a p) :
    (s.pcbs p).state = .WAITING := by
  obtain ⟨tr₁, l, m₁, _, rfl, h₁, _, rfl, _⟩ := h.at_call he
  rcases hu.append with ⟨hu, _⟩ | ⟨s, hd⟩
  · exact (h₁.live hu).atCall
  · simp at hd

/-- In a run of sound calls whoever has terminated is `TERMINATED`. -/
theorem Reaches.terminated_of_mem (h : Reaches algo specs tr m) (hne : specs ≠ []) (hq : quanta tr < 2 ^ 32)
    (hsound : SoundCalls algo tr) (hmem : Event.termination p ∈ tr) : (m.sstate.pcbs p).state = .TERMINATED := by
  refine (h.induct (I := fun tr m => Event.termination p ∈ tr → (m.sstate.pcbs p).state = .TERMINATED) hne hq hsound
    (fun hmem => by cases hmem) (fun {tr m ev m'} hinv ih hs _ _ _ hmem => ?_)).2 hmem
  rcases List.mem_append.mp hmem with hold | hnew
  · exact hinv.terminated_step hs (ih hold)
  cases hs with
  | quiet hq =>
    rcases hq.events with rfl | ⟨pid, hctl, rfl⟩
    · cases hnew
    · obtain rfl := Event.termination.inj (List.mem_singleton.mp hnew)
      rw [hq.table.2.2.2.2.2.2, if_pos ⟨hctl, by simp⟩]
  | ret => simp [callEvents] at hnew
  | dispatch => simp [callEvents] at hnew

end Cs326.Scheduler
