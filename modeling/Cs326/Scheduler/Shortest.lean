import Cs326.Scheduler.Dispatch
import Cs326.Scheduler.Positions

/-!
# When `sjf` preempts and when `psjf` and `sctf` do not

`sjf` is to keep the process that runs, and it looks for the shortest one at every call. `psjf` and `sctf` are to look
for the shortest one at every call, and they keep the process that runs. Each does what it is to do exactly in the runs
where the two come to the same.
-/

namespace Cs326.Scheduler

variable {algo : Algorithm} {specs : List ProcessSpec} {tr a b c : List Event} {m : Machine} {s : SchedulerState}
  {inp : Input}

/-! ## The least waiting process -/

section Least

variable {α : Type*} [LinearOrder α] {key : ProcessCtlBlock → α} {bound : α} {i j : Nat}

/-- `i` is the waiting process of least key, and the first of those. -/
def Least (s : SchedulerState) (key : ProcessCtlBlock → α) (i : Nat) : Prop :=
  i < s.num_processes ∧ (s.pcbs i).state = .WAITING ∧ ∀ j < s.num_processes, (s.pcbs j).state = .WAITING →
    key (s.pcbs i) < key (s.pcbs j) ∨ key (s.pcbs i) = key (s.pcbs j) ∧ i ≤ j

instance [DecidableEq α] [DecidableLT α] : Decidable (Least s key i) :=
  inferInstanceAs (Decidable (_ ∧ _ ∧ ∀ j < _, _ → _ ∨ _ ∧ _))

theorem Least.unique (hi : Least s key i) (hj : Least s key j) : i = j := by
  obtain ⟨hin, hiw, hi⟩ := hi
  obtain ⟨hjn, hjw, hj⟩ := hj
  rcases hi j hjn hjw with h | ⟨h, hle⟩
  · rcases hj i hin hiw with h' | ⟨h', _⟩
    · exact absurd h (lt_asymm h')
    · exact absurd h (h' ▸ lt_irrefl _)
  · rcases hj i hin hiw with h' | ⟨_, hle'⟩
    · exact absurd h' (h ▸ lt_irrefl _)
    · exact Nat.le_antisymm hle hle'

/-- Below the bound the loop finds the least waiting process. -/
theorem least_of_selectable (pid : Int) (h : Selectable s key bound) :
    ∃ i, Least s key i ∧ key (s.pcbs i) < bound ∧ selectLeast s key bound pid = .context_switch i := by
  obtain ⟨i, hi, he, hw, hb, hmin⟩ := selectLeast_of_selectable pid h
  refine ⟨i, ⟨hi, waiting_iff.mp hw, ?_⟩, hb, he⟩
  intro j hj hwj
  obtain ⟨hle, hlt⟩ := hmin j hj (waiting_iff.mpr hwj)
  rcases Nat.lt_or_ge j i with hji | hij
  · exact .inl (hlt hji)
  · rcases hle.lt_or_eq with h | h
    · exact .inl h
    · exact .inr ⟨h, hij⟩

theorem Least.selectable (h : Least s key i) (hb : key (s.pcbs i) < bound) : Selectable s key bound :=
  ⟨i, h.1, waiting_iff.mpr h.2.1, hb⟩

/-- What the loop started with `0` takes. -/
theorem selectLeast_zero_iff : selectLeast s key bound 0 = .context_switch i ↔
    Least s key i ∧ key (s.pcbs i) < bound ∨ i = 0 ∧ ¬Selectable s key bound := by
  by_cases h : Selectable s key bound
  · obtain ⟨k, hk, hb, he⟩ := least_of_selectable 0 h
    rw [he, Call.context_switch.injEq, Int.natCast_inj]
    constructor
    · rintro rfl
      exact .inl ⟨hk, hb⟩
    · rintro (⟨hi, _⟩ | ⟨_, hno⟩)
      · exact hk.unique hi
      · exact absurd h hno
  · rw [selectLeast_of_not_selectable h, Call.context_switch.injEq]
    constructor
    · intro he
      exact .inr ⟨by omega, h⟩
    · rintro (⟨hi, hb⟩ | ⟨rfl, _⟩)
      · exact absurd (hi.selectable hb) h
      · rfl

/-- The loop started with `0` always takes somebody. -/
theorem exists_selectLeast_zero (s : SchedulerState) (key : ProcessCtlBlock → α) (bound : α) :
    ∃ i : Nat, selectLeast s key bound 0 = .context_switch i := by
  by_cases h : Selectable s key bound
  · obtain ⟨i, _, _, he⟩ := least_of_selectable 0 h
    exact ⟨i, he⟩
  · exact ⟨0, selectLeast_of_not_selectable h⟩

end Least

/-! ## `sjf` -/

/-- A process that has been dispatched is dispatched by every later call until it terminates. -/
def NonPreemptive (tr : List Event) : Prop :=
  ∀ a p inp s c, tr = a ++ .call inp s :: c → Unended a p → ∃ c', c = .dispatch p s :: c'

/-- The first call behind a termination dispatches the waiting process of least workload. -/
def ShortestNext (tr : List Event) : Prop :=
  ∀ a q b inp s c, tr = a ++ .termination q :: b ++ .call inp s :: c → dispatches b = [] →
    ∃ p c', c = .dispatch p s :: c' ∧ Least s (·.workload) p

/-- Whenever the process dispatched last has not terminated, no waiting process comes before it. -/
def Uncontested (tr : List Event) : Prop :=
  ∀ a p s' b inp s c, tr = a ++ .dispatch p s' :: b ++ .call inp s :: c → dispatches b = [] →
    Event.termination p ∉ b →
      Least s (·.workload) p ∧ (s.pcbs p).workload < INT_MAX ∨ p = 0 ∧ ¬Selectable s (·.workload) INT_MAX

/-- Behind every termination somebody waits whom the loop can take, or process `0` is the one to take. -/
def Succeeded (tr : List Event) : Prop :=
  ∀ a q b inp s c, tr = a ++ .termination q :: b ++ .call inp s :: c → dispatches b = [] →
    Selectable s (·.workload) INT_MAX ∨ Least s (·.workload) 0

/-- What a call of `sjf` dispatches. -/
theorem Reaches.sjf_dispatches (h : Reaches .sjf specs tr m) (he : tr = a ++ .call inp s :: c) (p : Nat) :
    (∃ c', c = .dispatch p s :: c') ↔ p < specs.length ∧
      (Least s (·.workload) p ∧ (s.pcbs p).workload < INT_MAX ∨ p = 0 ∧ ¬Selectable s (·.workload) INT_MAX) := by
  obtain ⟨_, _, _, _, _, _, _, _, _, hd⟩ := h.at_call he
  obtain ⟨i, hi⟩ := exists_selectLeast_zero s (·.workload) INT_MAX
  rw [hd i (congrArg some hi), ← selectLeast_zero_iff, hi, Call.context_switch.injEq]

/-- Where no call before has switched away from it, an unended process is the one dispatched last. -/
theorem Reaches.last_dispatch (h : Reaches algo specs tr m) {p : Nat} (he : tr = a ++ c) (hu : Unended a p)
    (hkeep : ∀ a' inp s c', a'.length < a.length → tr = a' ++ .call inp s :: c' → Unended a' p →
      ∃ c'', c' = .dispatch p s :: c'') :
    ∃ a' s b, a = a' ++ .dispatch p s :: b ∧ dispatches b = [] ∧ Event.termination p ∉ b := by
  obtain ⟨a₁, s₁, b, rfl, hno⟩ := hu
  by_cases hb : dispatches b = []
  · exact ⟨a₁, s₁, b, rfl, hb, hno⟩
  obtain ⟨b₁, q, s₂, b₂, rfl, hb₂⟩ := exists_last_dispatch hb
  have he₂ : tr = (a₁ ++ .dispatch p s₁ :: b₁) ++ .dispatch q s₂ :: (b₂ ++ c) := by simp [he]
  obtain ⟨a', inp, hcall, _⟩ := h.at_dispatch he₂
  -- the call that dispatches `q` stands behind the dispatch of `p`
  rcases List.eq_nil_or_concat b₁ with rfl | ⟨b₁, e, rfl⟩
  · obtain ⟨_, he⟩ := List.append_inj' hcall rfl
    cases he
  · rw [List.concat_eq_append, ← List.cons_append, ← List.append_assoc] at hcall
    obtain ⟨rfl, he⟩ := List.append_inj' hcall rfl
    obtain rfl := List.singleton_inj.mp he
    rw [List.mem_append, not_or, List.concat_eq_append, List.mem_append, not_or] at hno
    obtain ⟨c'', he⟩ := hkeep (a₁ ++ .dispatch p s₁ :: b₁) inp s₂ (.dispatch q s₂ :: (b₂ ++ c)) (by simp)
      (by simp [he₂]) ⟨a₁, s₁, b₁, rfl, hno.1.1⟩
    obtain ⟨he, _⟩ := List.cons.inj he
    obtain ⟨rfl, _⟩ := Event.dispatch.inj he
    exact ⟨a₁ ++ .dispatch q s₁ :: (b₁ ++ [.call inp s₂]), s₂, b₂, by simp, hb₂, fun hm => hno.2 (by simp [hm])⟩

theorem Reaches.nonPreemptive (h : Reaches .sjf specs tr m) (hU : Uncontested tr) : NonPreemptive tr := by
  intro a p inp s c he hu
  induction hn : a.length using Nat.strong_induction_on generalizing a inp s c with
  | _ n ih =>
    subst hn
    obtain ⟨a', s', b, rfl, hb, hno⟩ := h.last_dispatch he hu
      fun a' inp s c' hlt he' hu' => ih _ hlt _ _ _ _ he' hu' rfl
    have he' : tr = a' ++ .dispatch p s' :: (b ++ .call inp s :: c) := by simp [he]
    obtain ⟨_, _, _, _, hp⟩ := h.at_dispatch he'
    exact (h.sjf_dispatches he p).mpr ⟨hp, hU a' p s' b inp s c he hb hno⟩

/-- **`sjf` is non-preemptive** and serves the shortest process next in exactly the runs in which it finds nobody that
comes before the process that runs, and somebody behind every termination. -/
theorem sjf_non_preemptive (h : Reaches .sjf specs tr m) :
    NonPreemptive tr ∧ ShortestNext tr ↔ Uncontested tr ∧ Succeeded tr := by
  constructor
  · rintro ⟨hP, hN⟩
    constructor
    · intro a p s' b inp s c he hb hno
      have hu : Unended (a ++ .dispatch p s' :: b) p := ⟨a, s', b, rfl, hno⟩
      exact ((h.sjf_dispatches he p).mp (hP _ p inp s c he hu)).2
    · intro a q b inp s c he hb
      obtain ⟨p, c', hc, hl⟩ := hN a q b inp s c he hb
      rcases ((h.sjf_dispatches he p).mp ⟨c', hc⟩).2 with ⟨hl, hlt⟩ | ⟨rfl, _⟩
      · exact .inl (hl.selectable hlt)
      · exact .inr hl
  · rintro ⟨hU, hS⟩
    refine ⟨h.nonPreemptive hU, ?_⟩
    intro a q b inp s c he hb
    have hn : s.num_processes = specs.length := by
      obtain ⟨_, _, _, _, _, _, _, _, hn, _⟩ := h.at_call he
      exact hn
    have hfind : ∃ p, Least s (·.workload) p ∧
        ((s.pcbs p).workload < INT_MAX ∨ p = 0 ∧ ¬Selectable s (·.workload) INT_MAX) := by
      by_cases hsel : Selectable s (·.workload) INT_MAX
      · obtain ⟨p, hp, hlt, _⟩ := least_of_selectable 0 hsel
        exact ⟨p, hp, .inl hlt⟩
      · exact ⟨0, (hS a q b inp s c he hb).resolve_left hsel, .inr ⟨rfl, hsel⟩⟩
    obtain ⟨p, hp, hcase⟩ := hfind
    have hlt : p < specs.length := hn ▸ hp.1
    obtain ⟨c', hc⟩ := (h.sjf_dispatches he p).mpr ⟨hlt, hcase.imp_left fun hw => ⟨hp, hw⟩⟩
    exact ⟨p, c', hc, hp⟩

/-- A shorter process arrives at the first interrupt. -/
theorem sjf_preempts : ¬∀ specs tr m, Reaches .sjf specs tr m → NonPreemptive tr ∧ ShortestNext tr := by
  intro hall
  let inps : List Input := [⟨false, [], 0⟩, ⟨false, [], 0⟩, ⟨true, [], 0⟩]
  have hr : Reaches .sjf [⟨"A", 0, 10, 0⟩, ⟨"B", 1, 1, 0⟩] _ _ := @run_of_exec .sjf inps _ _ _ rfl
  obtain ⟨c', hc⟩ := (hall _ _ _ hr).1 [_, _, _, _] 0 _ _ [_] rfl ⟨[_, _], _, [_], rfl, by simp⟩
  obtain ⟨he, _⟩ := List.cons.inj hc
  obtain ⟨hp, _⟩ := Event.dispatch.inj he
  exact absurd hp (by decide)

/-- A longer process arrives at the first interrupt. -/
theorem sjf_non_preemptive_kept :
    ∃ tr m, Reaches .sjf [⟨"A", 0, 1, 0⟩, ⟨"B", 1, 10, 0⟩] tr m ∧ (dispatches tr).map Prod.fst = [0, 0] ∧
      NonPreemptive tr ∧ ShortestNext tr := by
  let inps : List Input := [⟨false, [], 0⟩, ⟨false, [], 0⟩, ⟨true, [], 0⟩]
  obtain ⟨tr, m, hr, hd, hc, ht⟩ : ∃ tr m, Reaches .sjf [⟨"A", 0, 1, 0⟩, ⟨"B", 1, 10, 0⟩] tr m ∧
      (dispatches tr).map Prod.fst = [0, 0] ∧
      (∀ k ∈ calls tr, Least k.2 (·.workload) 0 ∧ (k.2.pcbs 0).workload < INT_MAX) ∧ terminated tr = [] :=
    ⟨_, _, @run_of_exec .sjf inps _ _ _ rfl, by decide, by decide, by decide⟩
  refine ⟨tr, m, hr, hd, (sjf_non_preemptive hr).mpr ⟨?_, ?_⟩⟩
  · intro a p s' b inp s c he _ _
    have hmem : p ∈ (dispatches tr).map Prod.fst := by
      rw [he]
      simp [dispatches]
    obtain rfl : p = 0 := by simpa [hd] using hmem
    exact .inl (hc (inp, s) (mem_calls.mpr ⟨_, c, he⟩))
  · intro a q b inp s c he _
    rw [he] at ht
    simp [terminated] at ht

/-! ## `psjf` and `sctf` -/

section Preemptive

variable {key : ProcessCtlBlock → Nat}

/-- Every call dispatches the waiting process of least key. -/
def PicksLeast (key : ProcessCtlBlock → Nat) (tr : List Event) : Prop :=
  ∀ a inp s c, tr = a ++ .call inp s :: c → ∃ p c', c = .dispatch p s :: c' ∧ Least s key p

/-- The interrupted process is the one of least key, or nobody is interrupted and the loop takes the least one. -/
def LeastCalled (key : ProcessCtlBlock → Nat) (s : SchedulerState) : Prop :=
  if 0 < s.current_quantum ∧ s.current_pcb.state = .WAITING then Least s key s.current_process
  else Selectable s key INT_MAX ∨ Least s key 0

instance : Decidable (Selectable s key INT_MAX) := inferInstanceAs (Decidable (∃ j < _, _ ∧ _))

instance : Decidable (LeastCalled key s) :=
  inferInstanceAs (Decidable (if 0 < s.current_quantum ∧ s.current_pcb.state = .WAITING then
    Least s key s.current_process else Selectable s key INT_MAX ∨ Least s key 0))

/-- An algorithm that keeps the interrupted process and otherwise looks for the least one. -/
theorem Reaches.picksLeast_iff (h : Reaches algo specs tr m)
    (hrun : ∀ s inp, algo.run s inp = some (if 0 < s.current_quantum ∧ s.current_pcb.state = .WAITING then
      .context_switch s.current_process else selectLeast s key INT_MAX 0)) :
    PicksLeast key tr ↔ ∀ k ∈ calls tr, LeastCalled key k.2 := by
  constructor
  · intro hP k hk
    obtain ⟨a, c, he⟩ := mem_calls.mp hk
    obtain ⟨p, c', hc, hl⟩ := hP a k.1 k.2 c he
    obtain ⟨_, _, _, _, _, _, _, _, _, hd⟩ := h.at_call he
    have hk := hrun k.2 k.1
    unfold LeastCalled
    split at hk
    · rename_i hkept
      rw [if_pos hkept]
      obtain ⟨_, hcur⟩ := (hd _ hk p).mp ⟨c', hc⟩
      exact Int.ofNat.inj hcur ▸ hl
    · rename_i hkept
      rw [if_neg hkept]
      obtain ⟨i, hi⟩ := exists_selectLeast_zero k.2 key INT_MAX
      obtain ⟨_, hip⟩ := (hd _ (hk.trans (congrArg some hi)) p).mp ⟨c', hc⟩
      obtain rfl : i = p := Int.ofNat.inj hip
      rcases selectLeast_zero_iff.mp hi with ⟨_, hlt⟩ | ⟨rfl, _⟩
      · exact .inl (hl.selectable hlt)
      · exact .inr hl
  · intro hC a inp s c he
    have hs := hC (inp, s) (mem_calls.mpr ⟨a, c, he⟩)
    obtain ⟨_, _, _, _, _, _, _, _, hn, hd⟩ := h.at_call he
    have hr := hrun s inp
    have hfind : ∃ p, Least s key p ∧ algo.run s inp = some (.context_switch p) := by
      unfold LeastCalled at hs
      split at hr
      · rename_i hkept
        rw [if_pos hkept] at hs
        exact ⟨_, hs, hr⟩
      · rename_i hkept
        rw [if_neg hkept] at hs
        by_cases hsel : Selectable s key INT_MAX
        · obtain ⟨i, hi, _, he⟩ := least_of_selectable 0 hsel
          exact ⟨i, hi, hr.trans (congrArg some he)⟩
        · exact ⟨0, hs.resolve_left hsel, hr.trans (congrArg some (selectLeast_of_not_selectable hsel))⟩
    obtain ⟨p, hp, hpr⟩ := hfind
    obtain ⟨c', hc⟩ := (hd p hpr p).mpr ⟨hn ▸ hp.1, rfl⟩
    exact ⟨p, c', hc, hp⟩

theorem LeastCalled.pos (h : LeastCalled key s) : 0 < s.num_processes := by
  unfold LeastCalled at h
  split at h
  · exact Nat.lt_of_le_of_lt (Nat.zero_le _) h.1
  · rcases h with ⟨j, hj, _⟩ | hl
    · exact Nat.lt_of_le_of_lt (Nat.zero_le _) hj
    · exact hl.1

theorem LeastCalled.selects (h : LeastCalled ProcessCtlBlock.remaining s) : Selects .sctf inp s := by
  unfold LeastCalled at h
  split at h
  · rename_i hkept
    exact .inl ⟨hkept.1, h.1, hkept.2⟩
  · exact .inr (h.imp_right fun hl => ⟨0, hl.1, rfl, hl.2.1⟩)

theorem load_workload_lt (specs : List ProcessSpec) (i : Nat) : ((load specs).pcbs i).workload < 2 ^ 32 := by
  unfold load
  dsimp only
  split
  · decide
  · exact UInt32.toNat_lt _

/-- While `current_quantum` does not wrap, `sctf` compares the work that is left. -/
theorem Reaches.remaining_eq (h : Reaches .sctf specs tr m) (hq : quanta tr < 2 ^ 32)
    (hC : ∀ k ∈ calls tr, LeastCalled ProcessCtlBlock.remaining k.2) {k : Input × SchedulerState} (hk : k ∈ calls tr)
    (i : Nat) : (k.2.pcbs i).executed_work ≤ (k.2.pcbs i).workload ∧
      (k.2.pcbs i).remaining = (k.2.pcbs i).workload - (k.2.pcbs i).executed_work := by
  have hsound : SoundCalls .sctf tr := (h.soundCalls_iff (by simp [Algorithm.Selecting])).mpr
    fun k hk => (hC k hk).selects
  have hne : specs ≠ [] := by
    rintro rfl
    obtain ⟨a, c, he⟩ := mem_calls.mp hk
    obtain ⟨_, _, _, _, _, _, _, _, hn, _⟩ := h.at_call he
    exact absurd (hC k hk).pos (by rw [hn]; simp)
  obtain ⟨_, _, _, hcall⟩ := h.callInv hne hq hsound k hk
  have hwork := hcall.table.work i
  have hlt : (k.2.pcbs i).workload < 2 ^ 32 := by
    rw [hcall.table.load_workload]
    exact load_workload_lt specs i
  refine ⟨hwork, ?_⟩
  unfold ProcessCtlBlock.remaining
  omega

/-- **`psjf` and `sctf` take the shortest process** at every call of exactly the runs in which the interrupted process
is always the shortest one that waits. -/
theorem shortest_preempts (hkey : algo = .psjf ∧ key = (·.workload) ∨ algo = .sctf ∧ key = ProcessCtlBlock.remaining)
    (h : Reaches algo specs tr m) :
    (PicksLeast key tr ↔ ∀ k ∈ calls tr, LeastCalled key k.2) ∧
    (algo = .sctf → quanta tr < 2 ^ 32 → PicksLeast key tr → ∀ k ∈ calls tr, ∀ i,
      (k.2.pcbs i).executed_work ≤ (k.2.pcbs i).workload ∧
        key (k.2.pcbs i) = (k.2.pcbs i).workload - (k.2.pcbs i).executed_work) := by
  rcases hkey with ⟨rfl, rfl⟩ | ⟨rfl, rfl⟩
  · refine ⟨h.picksLeast_iff fun _ _ => rfl, ?_⟩
    intro he
    cases he
  · have hiff : PicksLeast ProcessCtlBlock.remaining tr ↔ ∀ k ∈ calls tr, LeastCalled ProcessCtlBlock.remaining k.2 :=
      h.picksLeast_iff fun _ _ => rfl
    refine ⟨hiff, ?_⟩
    intro _ hq hP k hk i
    exact h.remaining_eq hq (hiff.mp hP) hk i

/-- `psjf` and `sctf` keep the process that a shorter one should preempt. -/
theorem shorter_not_dispatched : ¬∃ algo key,
    (algo = .psjf ∧ key = (·.workload) ∨ algo = .sctf ∧ key = ProcessCtlBlock.remaining) ∧
      ∀ specs tr m, Reaches algo specs tr m → PicksLeast key tr := by
  rintro ⟨algo, key, hkey, hall⟩
  let inps : List Input := [⟨false, [], 0⟩, ⟨false, [], 0⟩, ⟨true, [], 0⟩]
  rcases hkey with ⟨rfl, rfl⟩ | ⟨rfl, rfl⟩
  · have hr : Reaches .psjf [⟨"A", 0, 2, 0⟩, ⟨"B", 1, 1, 0⟩] _ _ := @run_of_exec .psjf inps _ _ _ rfl
    obtain ⟨p, c', hc, hl⟩ := hall _ _ _ hr [_, _, _, _] _ _ [_] rfl
    obtain ⟨he, _⟩ := List.cons.inj hc
    obtain ⟨rfl, _⟩ := Event.dispatch.inj he
    exact absurd hl (by decide)
  · have hr : Reaches .sctf [⟨"A", 0, 2, 0⟩, ⟨"B", 1, 1, 0⟩] _ _ := @run_of_exec .sctf inps _ _ _ rfl
    obtain ⟨p, c', hc, hl⟩ := hall _ _ _ hr [_, _, _, _] _ _ [_] rfl
    obtain ⟨he, _⟩ := List.cons.inj hc
    obtain ⟨rfl, _⟩ := Event.dispatch.inj he
    exact absurd hl (by decide)

/-- A longer process arrives at the first interrupt. -/
theorem shortest_preempts_kept :
    ∃ tr m, Reaches .sctf [⟨"A", 0, 1, 0⟩, ⟨"B", 1, 10, 0⟩] tr m ∧ (dispatches tr).map Prod.fst = [0, 0] ∧
      PicksLeast ProcessCtlBlock.remaining tr := by
  let inps : List Input := [⟨false, [], 0⟩, ⟨false, [], 0⟩, ⟨true, [], 0⟩]
  have hr : Reaches .sctf [⟨"A", 0, 1, 0⟩, ⟨"B", 1, 10, 0⟩] _ _ := @run_of_exec .sctf inps _ _ _ rfl
  exact ⟨_, _, hr, by decide, (shortest_preempts (.inr ⟨rfl, rfl⟩) hr).1.mpr (by decide)⟩

end Preemptive

end Cs326.Scheduler
