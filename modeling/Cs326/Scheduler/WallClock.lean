import Cs326.Scheduler.Termination
import Mathlib.Algebra.Order.Group.Defs
import Mathlib.Algebra.Order.Ring.Int

/-!
# The wall clock of the processes

`arrival_time`, `start_time` and `completion_time` of the process table, which the machine leaves out, and the times
that `main` prints from them. `get_time()` is read where a process arrives, where `process()` is entered and where it
has done its work. A timed run is a run (`TimedReaches.reaches`). On a clock that does not go back, in a run of sound
calls, a process is stamped in this order (`TimesInv`), so its response time lies between zero and its turnaround time
(`response_le_turnaround`). The `float`s that the times are rounded to are left out.
-/

namespace Cs326.Scheduler

variable {K : Type*} {algo : Algorithm} {specs : List ProcessSpec} {tr ev : List Event} {m m' : Machine} {inp : Input}

/-- The wall clock fields of the process table. -/
structure Times (K : Type*) where
  arrival_time : Nat → K
  start_time : Nat → K
  completion_time : Nat → K

structure Timed (K : Type*) where
  machine : Machine
  times : Times K
  /-- What `get_time()` has returned last. -/
  clock : K

/-- `pcbs[i].time = get_time()` for the processes one after the other. -/
def stamp (time : Nat → K) : List Nat → List K → Nat → K
  | i :: is, t :: ts => stamp (Function.update time i t) is ts
  | _, _ => time

/-- The process whose `process()` the step enters: an interrupt leads to the first test of its loop. -/
def entered (m m' : Machine) : List Nat :=
  match m.control, m'.control with
  | .mainLoop, .loopTest pid => [pid]
  | .checkPoint _ _, .loopTest pid => [pid]
  | _, _ => []

/-- The stamps of a step: arrivals first, then the start or the completion of a process. -/
def Times.read (times : Times K) (arrivals starts completions : List Nat) (now : List K) : Times K where
  arrival_time := stamp times.arrival_time arrivals now
  start_time := stamp times.start_time starts (now.drop arrivals.length)
  completion_time := stamp times.completion_time completions (now.drop (arrivals.length + starts.length))

/-- A step during which `get_time()` returns `now`. -/
def timedStep (algo : Algorithm) (inp : Input) (now : List K) (c : Timed K) : Option (Timed K × List Event) :=
  match step algo inp c.machine with
  | none => none
  | some (m, ev) =>
    let starts := entered c.machine m
    if now.length = (arrived ev).length + starts.length + (terminated ev).length then
      some (⟨m, c.times.read (arrived ev) starts (terminated ev) now, now.getLastD c.clock⟩, ev)
    else none

/-- `main` before its loop. The times of `empty_pcb` are never used. -/
def Timed.init (specs : List ProcessSpec) (zero : K) : Timed K :=
  ⟨Machine.init specs, ⟨fun _ => zero, fun _ => zero, fun _ => zero⟩, zero⟩

/-- `turn` of process `i` in `main`. -/
def Times.turnaround [Sub K] (times : Times K) (i : Nat) : K := times.completion_time i - times.arrival_time i

/-- `resp` of process `i` in `main`. -/
def Times.response [Sub K] (times : Times K) (i : Nat) : K := times.start_time i - times.arrival_time i

/-! ## Stamps -/

section Stamps

variable {time : Nat → K} {is : List Nat} {ts : List K} {i : Nat}

theorem stamp_of_not_mem (h : i ∉ is) : stamp time is ts i = time i := by
  induction is generalizing time ts with
  | nil => rfl
  | cons j is ih =>
    obtain ⟨hne, hmem⟩ := not_or.mp (fun h' => h (List.mem_cons.mpr h'))
    cases ts with
    | nil => rfl
    | cons t ts => exact (ih hmem).trans (Function.update_of_ne hne _ _)

/-- Who is stamped gets one of the times. -/
theorem stamp_mem (h : i ∈ is) (hlen : is.length ≤ ts.length) : stamp time is ts i ∈ ts.take is.length := by
  induction is generalizing time ts with
  | nil => cases h
  | cons j is ih =>
    cases ts with
    | nil => cases hlen
    | cons t ts =>
      rw [List.length_cons, List.take_succ_cons]
      by_cases hmem : i ∈ is
      · exact List.mem_cons_of_mem _ (ih hmem (Nat.le_of_succ_le_succ hlen))
      · obtain rfl := (List.mem_cons.mp h).resolve_right hmem
        have hlast : stamp time (i :: is) (t :: ts) i = t :=
          (stamp_of_not_mem hmem).trans (Function.update_self i t time)
        rw [hlast]
        exact List.mem_cons_self

end Stamps

variable {c c' : Timed K} {now : List K}

theorem timedStep_eq (h : timedStep algo inp now c = some (c', ev)) : step algo inp c.machine = some (c'.machine, ev) ∧
    now.length = (arrived ev).length + (entered c.machine c'.machine).length + (terminated ev).length ∧
    c'.times = c.times.read (arrived ev) (entered c.machine c'.machine) (terminated ev) now ∧
    c'.clock = now.getLastD c.clock := by
  unfold timedStep at h
  split at h
  · cases h
  · rename_i m ev' hs
    dsimp only at h
    split_ifs at h with hlen
    obtain ⟨rfl, rfl⟩ := Prod.mk.inj (Option.some.inj h)
    exact ⟨hs, hlen, rfl, rfl⟩

section Clock

variable [LinearOrder K]

/-- A step on a clock that does not go back. -/
def TimedStep (algo : Algorithm) (c : Timed K) (ev : List Event) (c' : Timed K) : Prop :=
  ∃ inp now, (c.clock :: now).Pairwise (· ≤ ·) ∧ timedStep algo inp now c = some (c', ev)

def TimedReaches (algo : Algorithm) (specs : List ProcessSpec) (zero : K) (tr : List Event) (c : Timed K) : Prop :=
  Run (TimedStep algo) (Timed.init specs zero) tr c

/-- A timed run is a run. -/
theorem TimedReaches.reaches {zero : K} (h : TimedReaches algo specs zero tr c) : Reaches algo specs tr c.machine := by
  induction h with
  | nil => exact .nil
  | snoc _ hs ih =>
    obtain ⟨inp, now, -, hs⟩ := hs
    exact ih.snoc ⟨inp, (timedStep_eq hs).1⟩

/-- What `get_time()` returns in a step lies between the clock before and the clock after. -/
theorem le_of_mem_now (hsorted : (c.clock :: now).Pairwise (· ≤ ·)) {t : K} (ht : t ∈ now) :
    c.clock ≤ t ∧ t ≤ now.getLastD c.clock := by
  refine ⟨(List.pairwise_cons.mp hsorted).1 t ht, ?_⟩
  have hne : now ≠ [] := List.ne_nil_of_mem ht
  obtain ⟨front, last, rfl⟩ : ∃ front last, now = front ++ [last] :=
    ⟨now.dropLast, now.getLast hne, (List.dropLast_append_getLast hne).symm⟩
  rw [List.getLastD_eq_getLast?, List.getLast?_concat, Option.getD_some]
  rcases List.mem_append.mp ht with ht | ht
  · exact (List.pairwise_append.mp (List.pairwise_cons.mp hsorted).2).2.2 t ht last List.mem_cons_self
  · exact (List.mem_singleton.mp ht).le

theorem clock_le (hsorted : (c.clock :: now).Pairwise (· ≤ ·)) : c.clock ≤ now.getLastD c.clock := by
  cases now with
  | nil => exact le_rfl
  | cons t now =>
    obtain ⟨hle, hle'⟩ := le_of_mem_now hsorted (List.mem_cons_self (a := t) (l := now))
    exact hle.trans hle'

/-- What is read first is no later than what is read behind it. -/
theorem le_of_take_drop (hsorted : (c.clock :: now).Pairwise (· ≤ ·)) {k : Nat} {t u : K} (ht : t ∈ now.take k)
    (hu : u ∈ now.drop k) : t ≤ u := by
  have hpair := (List.pairwise_cons.mp hsorted).2
  rw [← List.take_append_drop k now, List.pairwise_append] at hpair
  exact hpair.2.2 t ht u hu

/-! ## The invariant -/

/-- `process()` of `i` has been entered. -/
def Started (s : SchedulerState) (i : Nat) : Prop :=
  (s.pcbs i).state = .RUNNING ∨ (s.pcbs i).state = .TERMINATED ∨
    (s.pcbs i).state = .WAITING ∧ (s.pcbs i).context ≠ .entry

/-- **The stamps of a process** come one after the other. -/
structure TimesInv (specs : List ProcessSpec) (c : Timed K) : Prop where
  arrival : ∀ i < specs.length, (c.machine.sstate.pcbs i).state ≠ .CREATED → c.times.arrival_time i ≤ c.clock
  start : ∀ i < specs.length, Started c.machine.sstate i →
    c.times.arrival_time i ≤ c.times.start_time i ∧ c.times.start_time i ≤ c.clock
  completion : ∀ i < specs.length, (c.machine.sstate.pcbs i).state = .TERMINATED →
    c.times.start_time i ≤ c.times.completion_time i ∧ c.times.completion_time i ≤ c.clock

theorem Started.ne_created {s : SchedulerState} {i : Nat} (h : Started s i) : (s.pcbs i).state ≠ .CREATED := by
  rcases h with h | h | ⟨h, -⟩ <;> rw [h] <;> simp

/-- A started process does not arrive again. -/
theorem Started.not_arrives {s : SchedulerState} {i k : Nat} (h : Started s i) (hinv : TableInv specs k k s) :
    ¬arrives s i := fun ha => h.ne_created (hinv.created_of_arrives ha)

/-- Between the interrupts no process arrives or starts. -/
theorem entered_quiet (hq : Quiet m ev m') : entered m m' = [] := by
  cases hq <;> rfl

theorem TimesInv.quiet (h : TimesInv specs c) (hinv : Inv specs tr c.machine) (hq : Quiet c.machine ev c'.machine)
    (hsorted : (c.clock :: now).Pairwise (· ≤ ·)) (hs : timedStep algo inp now c = some (c', ev)) :
    TimesInv specs c' := by
  obtain ⟨-, hlen, htimes, hclock⟩ := timedStep_eq hs
  have hle := clock_le hsorted
  obtain ⟨-, -, -, -, -, hctx, hst⟩ := hq.table
  rw [entered_quiet hq, hq.silent.2.2.1] at htimes hlen
  rw [← hclock] at hle
  have harr : c'.times.arrival_time = c.times.arrival_time := by
    rw [htimes]
    cases now <;> rfl
  have hstart : c'.times.start_time = c.times.start_time := by
    rw [htimes]
    cases now <;> rfl
  -- who has terminated in this step was running
  have hend : ∀ i, c.machine.control = .loopTest i → (c.machine.sstate.pcbs i).state = .RUNNING := by
    intro i hm
    have hctl := hinv.control
    unfold ControlInv at hctl
    rw [hm] at hctl
    exact hctl.running
  have hbefore : ∀ i, Started c'.machine.sstate i → Started c.machine.sstate i := by
    intro i hi
    unfold Started at hi
    rw [hst, hctx] at hi
    split at hi
    · rename_i hm
      exact .inl (hend i hm.1)
    · exact hi
  refine ⟨fun i hi hne => ?_, fun i hi hstarted => ?_, fun i hi hT => ?_⟩
  · rw [harr]
    refine (h.arrival i hi fun hcr => hne ?_).trans hle
    rw [hst, hcr]
    refine if_neg fun hm => ?_
    rw [hend i hm.1] at hcr
    cases hcr
  · rw [harr, hstart]
    obtain ⟨h₁, h₂⟩ := h.start i hi (hbefore i hstarted)
    exact ⟨h₁, h₂.trans hle⟩
  · have hstarted := h.start i hi (hbefore i (.inr (.inl hT)))
    rw [hstart]
    by_cases hmem : i ∈ terminated ev
    · -- the completion is stamped now
      have hin : c'.times.completion_time i ∈ now := by
        rw [htimes]
        exact List.mem_of_mem_take (stamp_mem hmem (by simp at hlen ⊢; omega))
      obtain ⟨hge, hle'⟩ := le_of_mem_now hsorted hin
      rw [← hclock] at hle'
      exact ⟨hstarted.2.trans hge, hle'⟩
    · have hsame : c'.times.completion_time i = c.times.completion_time i := by
        rw [htimes]
        exact stamp_of_not_mem hmem
      have hT' : (c.machine.sstate.pcbs i).state = .TERMINATED := by
        rw [hst] at hT
        split at hT
        · rename_i hm
          rcases hq.events with rfl | ⟨pid, hpid, rfl⟩
          · exact absurd rfl hm.2
          · rw [hm.1] at hpid
            obtain rfl := Control.loopTest.inj hpid
            exact absurd (by simp [terminated]) hmem
        · exact hT
      obtain ⟨h₁, h₂⟩ := h.completion i hi hT'
      rw [hsame]
      exact ⟨h₁, h₂.trans hle⟩

/-- The return without a switch: nobody waits, so nobody arrives or starts. -/
theorem TimesInv.ret (h : TimesInv specs c) (hinv : Inv specs tr c.machine) {inp' : Input} {caller : Context}
    (hc : Calls c.machine.control caller) (hret : algo.run (atCall c.machine.sstate) inp' = some .ret)
    (hm : c'.machine = ⟨atCall c.machine.sstate, c.machine.main_ctx, caller.resume c.machine.sstate.current_process⟩)
    (hev : ev = callEvents inp' c.machine.sstate) (hsorted : (c.clock :: now).Pairwise (· ≤ ·))
    (hs : timedStep algo inp now c = some (c', ev)) : TimesInv specs c' := by
  subst hev
  obtain ⟨-, -, htimes, hclock⟩ := timedStep_eq hs
  have hle := clock_le hsorted
  rw [← hclock] at hle
  have hcall := hinv.toCall hc
  have hidle := hcall.idle_of_ret hret
  have hentered : entered c.machine c'.machine = [] := by
    rw [hm]
    unfold entered
    cases hctl : c.machine.control <;> rw [hctl] at hc <;> cases hc <;> rfl
  have harr : ∀ i < specs.length, c'.times.arrival_time i = c.times.arrival_time i := by
    intro i hi
    rw [htimes]
    refine stamp_of_not_mem fun hmem => ?_
    rw [arrived_callEvents] at hmem
    have ha := (mem_arrivals c.machine.sstate i).mp hmem
    exact hidle i hi (by rw [atCall_state, if_pos (.inl ha)])
  have hstart : c'.times.start_time = c.times.start_time := by
    rw [htimes, hentered]
    unfold Times.read stamp
    rfl
  have hcompletion : c'.times.completion_time = c.times.completion_time := by
    rw [htimes, terminated_callEvents]
    unfold Times.read stamp
    rfl
  have hstate : ∀ i < specs.length, (c'.machine.sstate.pcbs i).state = (c.machine.sstate.pcbs i).state := by
    intro i hi
    rw [hm]
    dsimp only
    rw [atCall_state, if_neg]
    intro hw
    exact hidle i hi (by rw [atCall_state, if_pos hw])
  have hterminated : ∀ i < specs.length, Started c'.machine.sstate i →
      (c.machine.sstate.pcbs i).state = .TERMINATED := by
    intro i hi hstarted
    rw [← hstate i hi]
    have hat : (c'.machine.sstate.pcbs i).state = ((atCall c.machine.sstate).pcbs i).state := by rw [hm]
    rcases hstarted with hr | hT | ⟨hw, -⟩
    · exact absurd (hat.symm.trans hr) (hcall.idle i hi)
    · exact hT
    · exact absurd (hat.symm.trans hw) (hidle i hi)
  refine ⟨fun i hi hne => ?_, fun i hi hstarted => ?_, fun i hi hT => ?_⟩
  · rw [harr i hi]
    exact (h.arrival i hi (by rwa [← hstate i hi])).trans hle
  · obtain ⟨h₁, h₂⟩ := h.start i hi (.inr (.inl (hterminated i hi hstarted)))
    rw [harr i hi, hstart]
    exact ⟨h₁, h₂.trans hle⟩
  · obtain ⟨h₁, h₂⟩ := h.completion i hi (hstate i hi ▸ hT)
    rw [hstart, hcompletion]
    exact ⟨h₁, h₂.trans hle⟩

/-- Who waits at a call with a context that is not the start of `process()` has been started before. -/
theorem started_of_atCall {s : SchedulerState} {i : Nat} (hw : ((atCall s).pcbs i).state = .WAITING)
    (hctx : ((atCall s).pcbs i).context ≠ .entry) : Started s i := by
  rw [atCall_context] at hctx
  split at hctx
  · exact absurd rfl hctx
  · rename_i hno
    rw [atCall_state] at hw
    by_cases hrun : i = s.current_process ∧ (s.pcbs i).state = .RUNNING
    · exact .inl hrun.2
    · rw [if_neg (by tauto)] at hw
      exact .inr (.inr ⟨hw, hctx⟩)

section Dispatch

variable {caller : Context} {new : Nat}

/-- What a dispatch does to the contexts: the new process goes on where it was interrupted, or from its context, which
may be the start of `process()`; and the context of another one changes only where it has been interrupted. -/
theorem Inv.dispatch_contexts (hinv : Inv specs tr m) (hc : Calls m.control caller)
    (hnew : new < m.sstate.num_processes) (hw : ((atCall m.sstate).pcbs new).state = .WAITING)
    (hsw : context_switch new caller ⟨atCall m.sstate, m.main_ctx, m.control⟩ =
      (m', [.dispatch new (atCall m.sstate)])) :
    (entered m m' = [new] ∨ entered m m' = [] ∧ Started m.sstate new) ∧
      ∀ i, i ≠ new → (m'.sstate.pcbs i).context ≠ ((atCall m.sstate).pcbs i).context → Started m.sstate i := by
  have hcall := hinv.toCall hc
  have hn : m.sstate.num_processes = specs.length := hinv.table.num
  obtain ⟨m'', he, -, hcases⟩ := context_switch_valid (m := ⟨atCall m.sstate, m.main_ctx, m.control⟩) caller
    (show new < (atCall m.sstate).num_processes by simpa using hnew)
  obtain rfl : m' = m'' := congrArg Prod.fst (hsw.symm.trans he)
  -- the interrupted process was running
  have hrunning : ∀ pid t, m.control = .checkPoint pid t →
      pid = m.sstate.current_process ∧ (m.sstate.pcbs pid).state = .RUNNING := by
    intro pid t hm
    have hctl := hinv.control
    unfold ControlInv at hctl
    rw [hm] at hctl
    exact ⟨hctl.1.current, hctl.1.running⟩
  -- a process is resumed from its context
  have hresume : m'.control = ((atCall m.sstate).pcbs new).context.resume new →
      (new ≠ m.sstate.current_process ∨ m.control = .mainLoop) →
      entered m m' = [new] ∨ entered m m' = [] ∧ Started m.sstate new := by
    intro hctl hfrom
    have hres : Resumable (atCall m.sstate) new ((atCall m.sstate).pcbs new).context := by
      refine (hcall.saved new (hn ▸ hnew) hw).resolve_right fun hr => ?_
      rcases hfrom with hne | hm
      · exact hne (hr.1.trans (atCall_current_process _))
      · rw [hm] at hc
        cases hc
        exact not_resumable_mainLoop hr.2
    rcases hres with hentry | ⟨t, -, hctx, -⟩
    · rw [hentry] at hctl
      left
      unfold entered
      rw [hctl]
      cases hm : m.control <;> rw [hm] at hc <;> cases hc <;> rfl
    · rw [hctx] at hctl
      refine .inr ⟨?_, started_of_atCall hw (by rw [hctx]; simp)⟩
      unfold entered
      rw [hctl]
      cases hm : m.control <;> rw [hm] at hc <;> cases hc <;> rfl
  cases hm : m.control <;> rw [hm] at hc <;> cases hc
  · rcases hcases with ⟨hsame, hpos, -⟩ | ⟨-, hctl, -, hctx⟩ | ⟨hno, -⟩
    · rcases hcall.origin with ⟨-, h0 | hT⟩ | ⟨_, -, hcaller, -⟩
      · exact absurd h0 (Nat.ne_of_gt hpos)
      · rw [← show new = (atCall m.sstate).current_process from hsame, hw] at hT
        cases hT
      · cases hcaller
    · exact ⟨hresume hctl (.inr hm), fun i _ hne => absurd (hctx i) hne⟩
    · rcases hcall.origin with ⟨-, h0⟩ | ⟨_, -, hcaller, -⟩
      · exact absurd h0 hno
      · cases hcaller
  · rename_i pid t
    obtain ⟨hcur, hrun⟩ := hrunning pid t hm
    rcases hcases with ⟨hsame, -, hctl, -, hctx⟩ | ⟨h0, -⟩ | ⟨-, hne, hctl, -, hctx⟩
    · obtain rfl : new = pid := (hsame.trans (atCall_current_process _)).trans hcur.symm
      refine ⟨.inr ⟨?_, .inl hrun⟩, fun i _ hne => absurd (hctx i) hne⟩
      unfold entered
      rw [hctl, hm]
      rfl
    · rcases hcall.origin with ⟨hcaller, -⟩ | ⟨_, -, -, hpos, hwait, -⟩
      · cases hcaller
      · rcases h0 with h0 | hT
        · exact absurd h0 (Nat.ne_of_gt hpos)
        · cases hwait.symm.trans hT
    · have hne' : new ≠ m.sstate.current_process := fun h => hne (h.trans (atCall_current_process _).symm)
      refine ⟨hresume hctl (.inl hne'), fun i _ hdiff => ?_⟩
      rw [hctx i] at hdiff
      split at hdiff
      · rename_i hi
        have hip : i = pid := (hi.trans (atCall_current_process _)).trans hcur.symm
        exact .inl (hip ▸ hrun)
      · exact absurd rfl hdiff

/-- Who is started at a dispatch was started before, or is started by it. -/
theorem Inv.started_dispatch (hinv : Inv specs tr m) (hc : Calls m.control caller)
    (hnew : new < m.sstate.num_processes) (hw : ((atCall m.sstate).pcbs new).state = .WAITING)
    (hs : Switched (atCall m.sstate) new m'.sstate)
    (hsw : context_switch new caller ⟨atCall m.sstate, m.main_ctx, m.control⟩ =
      (m', [.dispatch new (atCall m.sstate)])) {i : Nat} (hi : i < specs.length) (hstarted : Started m'.sstate i) :
    i ∈ entered m m' ∨ i ∉ entered m m' ∧ Started m.sstate i := by
  obtain ⟨hfirst, hctx⟩ := hinv.dispatch_contexts hc hnew hw hsw
  have hcall := hinv.toCall hc
  by_cases hin : i = new
  · subst hin
    rcases hfirst with hent | ⟨hent, hold⟩
    · exact .inl (by rw [hent]; exact List.mem_singleton_self i)
    · exact .inr ⟨by rw [hent]; exact List.not_mem_nil, hold⟩
  · refine .inr ⟨fun hmem => ?_, ?_⟩
    · rcases hfirst with hent | ⟨hent, -⟩
      · rw [hent] at hmem
        exact hin (List.mem_singleton.mp hmem)
      · rw [hent] at hmem
        cases hmem
    · by_contra hno
      have hsame : (m'.sstate.pcbs i).context = ((atCall m.sstate).pcbs i).context := by
        by_contra hne
        exact hno (hctx i hin hne)
      unfold Started at hstarted
      rw [hs.state, if_neg hin, hsame] at hstarted
      rcases hstarted with hr | hT | ⟨hwait, hentry⟩
      · exact hcall.idle i hi hr
      · exact hno (.inr (.inl (by rwa [hinv.terminated_atCall_iff] at hT)))
      · exact hno (started_of_atCall hwait hentry)

end Dispatch

theorem TimesInv.dispatch (h : TimesInv specs c) (hinv : Inv specs tr c.machine) {caller : Context} {new : Nat}
    {inp' : Input} (hc : Calls c.machine.control caller) (hnew : new < c.machine.sstate.num_processes)
    (hw : ((atCall c.machine.sstate).pcbs new).state = .WAITING)
    (hsw : Switched (atCall c.machine.sstate) new c'.machine.sstate)
    (hswitch : context_switch new caller ⟨atCall c.machine.sstate, c.machine.main_ctx, c.machine.control⟩ =
      (c'.machine, [.dispatch new (atCall c.machine.sstate)]))
    (hev : ev = callEvents inp' c.machine.sstate ++ [.dispatch new (atCall c.machine.sstate)])
    (hsorted : (c.clock :: now).Pairwise (· ≤ ·)) (hs : timedStep algo inp now c = some (c', ev)) :
    TimesInv specs c' := by
  obtain ⟨-, hlen, htimes, hclock⟩ := timedStep_eq hs
  have hle := clock_le hsorted
  rw [← hclock] at hle
  have hn : c.machine.sstate.num_processes = specs.length := hinv.table.num
  have harrived : arrived ev = arrivals (preempt c.machine.sstate) := by
    rw [hev, arrived_append, arrived_callEvents]
    exact List.append_nil _
  have hterminated : terminated ev = [] := by
    rw [hev, terminated_append, terminated_callEvents]
    rfl
  rw [hterminated] at htimes hlen
  have hmem : ∀ {i}, i ∈ arrived ev ↔ arrives c.machine.sstate i := by
    intro i
    rw [harrived]
    exact mem_arrivals _ i
  -- the stamps of this step
  have harr : ∀ i, arrives c.machine.sstate i → c'.times.arrival_time i ∈ now.take (arrived ev).length := by
    intro i ha
    rw [htimes]
    exact stamp_mem (hmem.mpr ha) (by omega)
  have hkeep : ∀ i, ¬arrives c.machine.sstate i → c'.times.arrival_time i = c.times.arrival_time i := by
    intro i ha
    rw [htimes]
    exact stamp_of_not_mem fun hi => ha (hmem.mp hi)
  have hcompletion : c'.times.completion_time = c.times.completion_time := by
    rw [htimes]
    unfold Times.read stamp
    rfl
  have hstate : ∀ i < specs.length, (c'.machine.sstate.pcbs i).state ≠ .CREATED → ¬arrives c.machine.sstate i →
      (c.machine.sstate.pcbs i).state ≠ .CREATED := by
    intro i hi hne ha hcr
    have hat : ((atCall c.machine.sstate).pcbs i).state = .CREATED := by
      rw [atCall_state, if_neg, hcr]
      rintro (ha' | ⟨-, hrun⟩)
      · exact ha ha'
      · cases hcr.symm.trans hrun
    rw [hsw.state] at hne
    split at hne
    · rename_i hin
      rw [hin, hw] at hat
      cases hat
    · exact hne hat
  have harrival : ∀ i < specs.length, (c'.machine.sstate.pcbs i).state ≠ .CREATED →
      c'.times.arrival_time i ≤ c'.clock := by
    intro i hi hne
    by_cases ha : arrives c.machine.sstate i
    · have hle' := (le_of_mem_now hsorted (List.mem_of_mem_take (harr i ha))).2
      rwa [← hclock] at hle'
    · rw [hkeep i ha]
      exact (h.arrival i hi (hstate i hi hne ha)).trans hle
  refine ⟨harrival, fun i hi hstarted => ?_, fun i hi hT => ?_⟩
  · rcases hinv.started_dispatch hc hnew hw hsw hswitch hi hstarted with hent | ⟨hent, hold⟩
    · -- the process starts now, behind the arrivals
      have hstart : c'.times.start_time i ∈ now.drop (arrived ev).length := by
        rw [htimes]
        refine List.mem_of_mem_take (stamp_mem hent ?_)
        rw [List.length_drop]
        omega
      obtain ⟨hge, hle'⟩ := le_of_mem_now hsorted (List.mem_of_mem_drop hstart)
      rw [← hclock] at hle'
      refine ⟨?_, hle'⟩
      by_cases ha : arrives c.machine.sstate i
      · exact le_of_take_drop hsorted (harr i ha) hstart
      · rw [hkeep i ha]
        exact (h.arrival i hi (hstate i hi hstarted.ne_created ha)).trans hge
    · obtain ⟨h₁, h₂⟩ := h.start i hi hold
      have hstart : c'.times.start_time i = c.times.start_time i := by
        rw [htimes]
        exact stamp_of_not_mem hent
      rw [hkeep i (hold.not_arrives hinv.table), hstart]
      exact ⟨h₁, h₂.trans hle⟩
  · have hin : i ≠ new := fun hin => by
      rw [hsw.state, if_pos hin] at hT
      cases hT
    rw [hsw.state, if_neg hin, hinv.terminated_atCall_iff] at hT
    have hent : i ∉ entered c.machine c'.machine := by
      intro hmem'
      rcases (hinv.dispatch_contexts hc hnew hw hswitch).1 with hent | ⟨hent, -⟩
      · rw [hent] at hmem'
        exact hin (List.mem_singleton.mp hmem')
      · rw [hent] at hmem'
        cases hmem'
    have hstart : c'.times.start_time i = c.times.start_time i := by
      rw [htimes]
      exact stamp_of_not_mem hent
    obtain ⟨h₁, h₂⟩ := h.completion i hi hT
    rw [hstart, hcompletion]
    exact ⟨h₁, h₂.trans hle⟩

/-! ## Runs -/

theorem timesInv_init (zero : K) : TimesInv specs (Timed.init specs zero) := by
  have hcreated : ∀ i, ((load specs).pcbs i).state = .CREATED := by
    intro i
    unfold load
    dsimp only
    split <;> rfl
  refine ⟨fun i _ hne => absurd (hcreated i) hne, fun i _ hs => absurd (hcreated i) hs.ne_created, fun i _ hT => ?_⟩
  cases (hcreated i).symm.trans hT

theorem TimedReaches.timesInv {zero : K} (h : TimedReaches algo specs zero tr c) (hne : specs ≠ [])
    (hq : quanta tr < 2 ^ 32) (hsound : SoundCalls algo tr) : TimesInv specs c := by
  induction h with
  | nil => exact timesInv_init zero
  | @snoc tr ev c c' hr hs ih =>
    have hinv := TimedReaches.reaches hr |>.inv hne (quanta_lt_of_append _ _ hq) hsound.left
    have hold := ih (quanta_lt_of_append _ _ hq) hsound.left
    obtain ⟨inp, now, hsorted, hs⟩ := hs
    have hstep : Step algo c.machine ev c'.machine := ⟨inp, (timedStep_eq hs).1⟩
    have hss := soundStep_of_step hstep hsound.right
    generalize hev : ev = ev' at hss
    generalize hm : c'.machine = m' at hss
    cases hss with
    | quiet hq =>
      subst hev hm
      exact hold.quiet hinv hq hsorted hs
    | ret hc hret => exact hold.ret hinv hc hret hm hev hsorted hs
    | dispatch hc hrun hnew hw hsw hswitch =>
      subst hm
      exact hold.dispatch hinv hc hnew hw hsw hswitch hev hsorted hs

end Clock

/-- **Response and turnaround.** On a clock that does not go back, in a run of sound calls, the response time of a
process that has terminated is not negative and no more than its turnaround time. -/
theorem response_le_turnaround [AddCommGroup K] [LinearOrder K] [IsOrderedAddMonoid K] {c : Timed K} {zero : K}
    (hne : specs ≠ []) (h : TimedReaches algo specs zero tr c) (hq : quanta tr < 2 ^ 32)
    (hsound : SoundCalls algo tr) {i : Nat} (hi : i < specs.length)
    (hT : (c.machine.sstate.pcbs i).state = .TERMINATED) :
    0 ≤ c.times.response i ∧ c.times.response i ≤ c.times.turnaround i := by
  have hinv := h.timesInv hne hq hsound
  obtain ⟨hresponse, -⟩ := hinv.start i hi (.inr (.inl hT))
  obtain ⟨hcompletion, -⟩ := hinv.completion i hi hT
  exact ⟨sub_nonneg.mpr hresponse, sub_le_sub_right hcompletion _⟩

/-- Round robin: a process that arrives at the first interrupt is dispatched at once and terminates. -/
theorem response_le_turnaround_two :
    ∃ tr, ∃ c : Timed Int, TimedReaches .rr [⟨"A", 0, 1, 0⟩, ⟨"B", 1, 0, 0⟩] 0 tr c ∧ c.times.turnaround 1 = 5 ∧
      c.times.response 1 = 2 ∧ 0 ≤ c.times.response 1 ∧ c.times.response 1 ≤ c.times.turnaround 1 := by
  have h₁ : TimedStep .rr (Timed.init [⟨"A", 0, 1, 0⟩, ⟨"B", 1, 0, 0⟩] (0 : Int)) _ _ :=
    ⟨⟨false, [], 0⟩, [3, 5], by decide, rfl⟩
  have h₂ : TimedReaches .rr [⟨"A", 0, 1, 0⟩, ⟨"B", 1, 0, 0⟩] (0 : Int) _ _ :=
    (Run.single h₁).snoc ⟨⟨false, [], 0⟩, [], by decide, rfl⟩
  have h₃ : TimedReaches .rr [⟨"A", 0, 1, 0⟩, ⟨"B", 1, 0, 0⟩] (0 : Int) _ _ :=
    h₂.snoc ⟨⟨true, [], 0⟩, [9, 11], by decide, rfl⟩
  have h₄ : TimedReaches .rr [⟨"A", 0, 1, 0⟩, ⟨"B", 1, 0, 0⟩] (0 : Int) _ _ :=
    h₃.snoc ⟨⟨false, [], 0⟩, [14], by decide, rfl⟩
  exact ⟨_, _, h₄, by decide, by decide, response_le_turnaround (by simp) h₄ (by decide)
    (h₄.reaches.soundCalls (.inr (.inl rfl)) (by simp)) (by decide) (by decide)⟩

end Cs326.Scheduler
