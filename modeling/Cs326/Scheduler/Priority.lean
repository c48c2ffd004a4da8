import Cs326.Scheduler.Dispatch
import Cs326.Scheduler.Shortest

/-!
# What `priority` does with ties

`priority` takes the waiting process of maximal priority and the lowest index among those, at every call. So it never
passes the turn on among processes of one priority: until it terminates, the first of them is taken again
(`Reaches.not_passed`).
-/

namespace Cs326.Scheduler

variable {specs : List ProcessSpec} {tr a b c : List Event} {m : Machine} {s s' : SchedulerState} {inp : Input}
  {i j : Nat}

/-- The key of `priority`. -/
def ProcessCtlBlock.rank (p : ProcessCtlBlock) : Natᵒᵈ := OrderDual.toDual p.priority

/-- A process of maximal priority among those that wait. -/
def Maximal (s : SchedulerState) (i : Nat) : Prop :=
  i < s.num_processes ∧ (s.pcbs i).state = .WAITING ∧
    ∀ j < s.num_processes, (s.pcbs j).state = .WAITING → (s.pcbs j).priority ≤ (s.pcbs i).priority

/-- Every call that finds somebody waiting dispatches a waiting process of maximal priority. -/
def MaximalNext (tr : List Event) : Prop :=
  ∀ a inp s c, tr = a ++ .call inp s :: c → (∃ j < s.num_processes, (s.pcbs j).state = .WAITING) →
    ∃ p c', c = .dispatch p s :: c' ∧ Maximal s p

/-- Between two dispatches of `i` in a row, each process of its priority that was waiting is dispatched once. -/
def TiesInTurn (tr : List Event) : Prop :=
  ∀ t₁ i s₁ mid s₂ t₂, dispatches tr = t₁ ++ (i, s₁) :: mid ++ (i, s₂) :: t₂ → (∀ d ∈ mid, d.1 ≠ i) →
    ∀ j < s₁.num_processes, j ≠ i → (s₁.pcbs j).priority = (s₁.pcbs i).priority → (s₁.pcbs j).state = .WAITING →
      (mid.map Prod.fst).count j = 1

/-- Somebody who waits has a priority above `0`, or process `0` waits. -/
def Found (s : SchedulerState) : Prop :=
  (∃ j < s.num_processes, (s.pcbs j).state = .WAITING) →
    (∃ j < s.num_processes, (s.pcbs j).state = .WAITING ∧ 0 < (s.pcbs j).priority) ∨
      0 < s.num_processes ∧ (s.pcbs 0).state = .WAITING

instance : Decidable (Found s) :=
  inferInstanceAs (Decidable ((∃ j < _, _) → (∃ j < _, _ ∧ _) ∨ _))

/-- The process the call takes: the first one of maximal priority, or `0` when nobody waits. -/
def Top (s : SchedulerState) (i : Nat) : Prop :=
  Least s ProcessCtlBlock.rank i ∨ i = 0 ∧ ∀ j < s.num_processes, (s.pcbs j).state ≠ .WAITING

/-- In `a`, process `i` was last dispatched before `b`, with another process of its priority waiting. -/
def TieBehind (a : List Event) (i : Nat) (b : List Event) : Prop :=
  ∃ a₁ s₁, a = a₁ ++ .dispatch i s₁ :: b ∧ (∀ d ∈ dispatches b, d.1 ≠ i) ∧
    ∃ j < s₁.num_processes, j ≠ i ∧ (s₁.pcbs j).priority = (s₁.pcbs i).priority ∧ (s₁.pcbs j).state = .WAITING

/-- Whoever is taken again was not tied when it was dispatched last. -/
def Untied (tr : List Event) : Prop :=
  ∀ a inp s c i b, tr = a ++ .call inp s :: c → Top s i → ¬TieBehind a i b

/-- ... or has terminated since. -/
def Ended (tr : List Event) : Prop :=
  ∀ a inp s c i b, tr = a ++ .call inp s :: c → Top s i → TieBehind a i b → Event.termination i ∈ b

/-! ## One call -/

theorem Least.maximal (h : Least s ProcessCtlBlock.rank i) : Maximal s i := by
  refine ⟨h.1, h.2.1, fun j hj hw => ?_⟩
  rcases h.2.2 j hj hw with hlt | ⟨he, _⟩
  · exact Nat.le_of_lt (OrderDual.toDual_lt_toDual.mp hlt)
  · exact Nat.le_of_eq (OrderDual.toDual_inj.mp he).symm

theorem selectable_rank : Selectable s ProcessCtlBlock.rank (OrderDual.toDual 0) ↔
    ∃ j < s.num_processes, (s.pcbs j).state = .WAITING ∧ 0 < (s.pcbs j).priority := by
  refine exists_congr fun j => and_congr_right fun _ => ?_
  rw [waiting_iff]
  exact and_congr_right fun _ => OrderDual.toDual_lt_toDual

/-- What `priority` takes. -/
theorem priority_eq : priority s = .context_switch i ↔
    Least s ProcessCtlBlock.rank i ∧ 0 < (s.pcbs i).priority ∨
      i = 0 ∧ ∀ j < s.num_processes, (s.pcbs j).state = .WAITING → (s.pcbs j).priority = 0 := by
  have hsel : priority s = selectLeast s ProcessCtlBlock.rank (OrderDual.toDual 0) 0 := rfl
  rw [hsel, selectLeast_zero_iff, selectable_rank]
  refine or_congr (and_congr_right fun _ => OrderDual.toDual_lt_toDual) (and_congr_right fun _ => ?_)
  push Not
  refine forall₂_congr fun j _ => forall_congr' fun _ => ?_
  omega

theorem priority_of_top (h : Found s) (ht : Top s i) : priority s = .context_switch i := by
  rw [priority_eq]
  rcases ht with hl | ⟨rfl, hno⟩
  · by_cases hpos : 0 < (s.pcbs i).priority
    · exact .inl ⟨hl, hpos⟩
    · -- all that wait have priority `0`, so process `0` is one of them and the first
      have hzero : ∀ j < s.num_processes, (s.pcbs j).state = .WAITING → (s.pcbs j).priority = 0 := by
        intro j hj hw
        have := hl.maximal.2.2 j hj hw
        omega
      rcases h ⟨i, hl.1, hl.2.1⟩ with ⟨j, hj, hw, hp⟩ | ⟨hn, hw⟩
      · have := hzero j hj hw
        omega
      · refine .inr ⟨?_, hzero⟩
        rcases hl.2.2 0 hn hw with hlt | ⟨_, hle⟩
        · have hlt : (s.pcbs 0).priority < (s.pcbs i).priority := OrderDual.toDual_lt_toDual.mp hlt
          omega
        · omega
  · exact .inr ⟨rfl, fun j hj hw => absurd hw (hno j hj)⟩

theorem top_of_priority (h : Found s) (he : priority s = .context_switch i) : Top s i := by
  rcases priority_eq.mp he with ⟨hl, _⟩ | ⟨rfl, hzero⟩
  · exact .inl hl
  · by_cases hw : ∃ j < s.num_processes, (s.pcbs j).state = .WAITING
    · rcases h hw with ⟨j, hj, hwj, hp⟩ | ⟨hn, hw0⟩
      · have := hzero j hj hwj
        omega
      · refine .inl ⟨hn, hw0, fun j hj hwj => .inr ⟨?_, Nat.zero_le j⟩⟩
        exact congrArg OrderDual.toDual ((hzero 0 hn hw0).trans (hzero j hj hwj).symm)
    · push Not at hw
      exact .inr ⟨rfl, hw⟩

/-- Of two tied processes that wait, `priority` never takes the later one. -/
theorem priority_tie (hi : i < s.num_processes) (hwi : (s.pcbs i).state = .WAITING)
    (hp : (s.pcbs i).priority = (s.pcbs j).priority) (hij : i < j) : priority s ≠ .context_switch j := by
  intro he
  rcases priority_eq.mp he with ⟨hl, _⟩ | ⟨rfl, _⟩
  · rcases hl.2.2 i hi hwi with hlt | ⟨_, hle⟩
    · have hlt : (s.pcbs i).priority < (s.pcbs j).priority := OrderDual.toDual_lt_toDual.mp hlt
      omega
    · omega
  · omega

/-- Whoever is taken comes before the tied processes that wait. -/
theorem lt_of_priority (he : priority s = .context_switch i) (hj : j < s.num_processes) (hne : j ≠ i)
    (hp : (s.pcbs j).priority = (s.pcbs i).priority) (hwj : (s.pcbs j).state = .WAITING) : i < j := by
  rcases priority_eq.mp he with ⟨hl, _⟩ | ⟨rfl, _⟩
  · rcases hl.2.2 j hj hwj with hlt | ⟨_, hle⟩
    · have hlt : (s.pcbs j).priority < (s.pcbs i).priority := OrderDual.toDual_lt_toDual.mp hlt
      omega
    · omega
  · omega

/-! ## Runs -/

/-- What a call dispatches. -/
theorem Reaches.priority_dispatches (h : Reaches .priority specs tr m) (he : tr = a ++ .call inp s :: c) (p : Nat) :
    (∃ c', c = .dispatch p s :: c') ↔ p < specs.length ∧ priority s = .context_switch p := by
  obtain ⟨_, _, _, _, _, _, _, _, _, hd⟩ := h.at_call he
  obtain ⟨i, hi⟩ := exists_selectLeast_zero s ProcessCtlBlock.rank (OrderDual.toDual 0)
  have hi : priority s = .context_switch i := hi
  rw [hd i (congrArg some hi), hi, Call.context_switch.injEq]

theorem Reaches.maximalNext_iff (h : Reaches .priority specs tr m) :
    MaximalNext tr ↔ ∀ k ∈ calls tr, Found k.2 := by
  constructor
  · intro hM k hk hw
    obtain ⟨a, c, he⟩ := mem_calls.mp hk
    obtain ⟨p, c', hc, hmax⟩ := hM a k.1 k.2 c he hw
    obtain ⟨_, hp⟩ := (h.priority_dispatches he p).mp ⟨c', hc⟩
    rcases priority_eq.mp hp with ⟨_, hpos⟩ | ⟨rfl, _⟩
    · exact .inl ⟨p, hmax.1, hmax.2.1, hpos⟩
    · exact .inr ⟨hmax.1, hmax.2.1⟩
  · intro hF a inp s c he hw
    have hfound := hF (inp, s) (mem_calls.mpr ⟨a, c, he⟩)
    obtain ⟨i, hi⟩ := exists_selectLeast_zero s ProcessCtlBlock.rank (OrderDual.toDual 0)
    obtain ⟨_, _, _, _, _, _, _, _, hn, _⟩ := h.at_call he
    rcases top_of_priority hfound hi with hl | ⟨_, hno⟩
    · obtain ⟨c', hc⟩ := (h.priority_dispatches he i).mpr ⟨hn ▸ hl.1, hi⟩
      exact ⟨i, c', hc, hl.maximal⟩
    · obtain ⟨j, hj, hwj⟩ := hw
      exact absurd hwj (hno j hj)

/-- Where nobody is taken again that was tied, there is nothing to take in turn. -/
theorem Reaches.tiesInTurn (h : Reaches .priority specs tr m) (hF : ∀ k ∈ calls tr, Found k.2) (hU : Untied tr) :
    TiesInTurn tr := by
  intro t₁ i s₁ mid s₂ t₂ hd hmid j hj hne hp hw
  obtain ⟨a, c, rfl, ha, rfl⟩ := dispatches_eq_append_cons.mp hd
  obtain ⟨a₁, b, rfl, rfl, rfl⟩ := dispatches_eq_append_cons.mp ha
  obtain ⟨a', inp, hcall, hrun, _⟩ := h.at_dispatch rfl
  -- the call of the second dispatch stands behind the first one
  rcases List.eq_nil_or_concat b with rfl | ⟨b, e, rfl⟩
  · obtain ⟨_, he⟩ := List.append_inj' hcall rfl
    cases he
  · rw [List.concat_eq_append, ← List.cons_append, ← List.append_assoc] at hcall
    obtain ⟨rfl, he⟩ := List.append_inj' hcall rfl
    obtain rfl := List.singleton_inj.mp he
    have he' : a₁ ++ .dispatch i s₁ :: b.concat (.call inp s₂) ++ .dispatch i s₂ :: c =
        (a₁ ++ .dispatch i s₁ :: b) ++ .call inp s₂ :: .dispatch i s₂ :: c := by simp
    have hfound := hF (inp, s₂) (mem_calls.mpr ⟨_, _, he'⟩)
    refine absurd ⟨a₁, s₁, rfl, fun d hd => hmid d ?_, j, hj, hne, hp, hw⟩
      (hU _ inp s₂ _ i b he' (top_of_priority hfound (Option.some.inj hrun)))
    rw [List.concat_eq_append, dispatches_append]
    exact List.mem_append_left _ hd

theorem Reaches.priority_const (h : Reaches .priority specs tr m) (he : tr = a ++ .call inp s :: c) (i : Nat) :
    (s.pcbs i).priority = ((load specs).pcbs i).priority := by
  obtain ⟨_, _, m₁, _, _, h₁, _, rfl, _⟩ := h.at_call he
  have he : ((atCall m₁.sstate).pcbs i).erase = (load specs).pcbs i := (atCall_erase _ i).trans (h₁.erase i)
  simpa [ProcessCtlBlock.erase] using congrArg ProcessCtlBlock.priority he

/-- **The turn is not passed on**: before it terminates, a process is dispatched again before those it was tied with. -/
theorem Reaches.not_passed (h : Reaches .priority specs tr m) (he : tr = a ++ .dispatch i s :: b ++ c)
    (hj : j < s.num_processes) (hne : j ≠ i) (hp : (s.pcbs j).priority = (s.pcbs i).priority)
    (hw : (s.pcbs j).state = .WAITING) (hno : Event.termination i ∉ b) : j ∉ (dispatches b).map Prod.fst := by
  intro hmem
  obtain ⟨s', hmem⟩ : ∃ s', (j, s') ∈ dispatches b := by simpa using hmem
  obtain ⟨l₁, l₂, hl⟩ := List.append_of_mem hmem
  obtain ⟨b₁, b₂, rfl, _, _⟩ := dispatches_eq_append_cons.mp hl
  dsimp only at *
  obtain ⟨a₀, inp₀, rfl, hrun₀, hi⟩ := h.at_dispatch (p := i) (s := s) (a := a) (c := b₁ ++ .dispatch j s' :: b₂ ++ c)
    (by rw [he]; simp)
  obtain ⟨a', inp', hcall, hrun', _⟩ := h.at_dispatch (p := j) (s := s') (c := b₂ ++ c)
    (a := a₀ ++ [.call inp₀ s] ++ .dispatch i s :: b₁) (by rw [he]; simp)
  rcases List.eq_nil_or_concat b₁ with rfl | ⟨b₁, e, rfl⟩
  · obtain ⟨_, he⟩ := List.append_inj' hcall rfl
    cases he
  · rw [List.concat_eq_append, ← List.cons_append, ← List.append_assoc] at hcall
    obtain ⟨rfl, hlast⟩ := List.append_inj' hcall rfl
    obtain rfl := List.singleton_inj.mp hlast
    have hat : tr =
        a₀ ++ .call inp₀ s :: (.dispatch i s :: b₁.concat (.call inp' s') ++ .dispatch j s' :: b₂ ++ c) := by
      rw [he]
      simp
    have hat' : tr = (a₀ ++ [.call inp₀ s] ++ .dispatch i s :: b₁) ++ .call inp' s' :: (.dispatch j s' :: b₂ ++ c) := by
      rw [he]
      simp
    have hwi := h.waits hat' ⟨_, s, b₁, rfl, fun hb => hno (by simp [hb])⟩
    obtain ⟨_, _, _, _, _, _, _, _, hn, _⟩ := h.at_call hat'
    refine priority_tie (hn ▸ hi) hwi ?_ (lt_of_priority (Option.some.inj hrun₀) hj hne hp hw) (Option.some.inj hrun')
    rw [h.priority_const hat', h.priority_const hat', ← h.priority_const hat, ← h.priority_const hat, hp]

theorem Reaches.ended (h : Reaches .priority specs tr m) (hM : MaximalNext tr) (hT : TiesInTurn tr) : Ended tr := by
  rintro a inp s c i b he ht ⟨a₁, s₁, rfl, hmid, j, hj, hne, hp, hw⟩
  by_contra hno
  have he' : tr = a₁ ++ .dispatch i s₁ :: (b ++ .call inp s :: c) := by simp [he]
  have hnot := h.not_passed he hj hne hp hw hno
  obtain ⟨_, _, _, _, hi⟩ := h.at_dispatch he'
  have hfound := h.maximalNext_iff.mp hM (inp, s) (mem_calls.mpr ⟨_, c, he⟩)
  obtain ⟨c', rfl⟩ := (h.priority_dispatches he i).mpr ⟨hi, priority_of_top hfound ht⟩
  have hd : dispatches tr = dispatches a₁ ++ (i, s₁) :: dispatches b ++ (i, s) :: dispatches c' := by
    rw [he, dispatches_append, dispatches_append]
    rfl
  have hone := hT _ i s₁ _ s _ hd hmid j hj hne hp hw
  rw [List.count_eq_zero.mpr hnot] at hone
  cases hone

/-- While every call finds somebody waiting, a process that has terminated is not taken again. -/
theorem Reaches.untied (h : Reaches .priority specs tr m) (hF : ∀ k ∈ calls tr, Found k.2)
    (hw : ∀ k ∈ calls tr, ∃ j < k.2.num_processes, (k.2.pcbs j).state = .WAITING) (hq : quanta tr < 2 ^ 32)
    (hE : Ended tr) : Untied tr := by
  intro a inp s c i b he ht hb
  have hend := hE a inp s c i b he ht hb
  have hsound : SoundCalls .priority tr := by
    refine (h.soundCalls_iff (by simp [Algorithm.Selecting])).mpr fun k hk => ?_
    rcases hF k hk (hw k hk) with hpos | ⟨hn, hw0⟩
    · exact .inl (selectable_rank.mpr hpos)
    · exact .inr ⟨0, hn, rfl, hw0⟩
  have hcall : (inp, s) ∈ calls tr := mem_calls.mpr ⟨a, c, he⟩
  obtain ⟨j, hj, hwj⟩ := hw _ hcall
  rcases ht with hl | ⟨_, hno⟩
  · obtain ⟨tr₁, l, m₁, _, rfl, h₁, _, rfl, hn, _⟩ := h.at_call he
    obtain ⟨a₁, s₁, he₁, _⟩ := hb
    have hmem : Event.termination i ∈ tr₁ := by
      have : Event.termination i ∈ tr₁ ++ l.map Event.arrival := by
        rw [he₁]
        simp [hend]
      simpa using this
    have hne : specs ≠ [] := List.length_pos_iff.mp (Nat.lt_of_le_of_lt (Nat.zero_le _) (hn ▸ hl.1))
    rw [he, List.append_assoc] at hq hsound
    have hq₁ := quanta_lt_of_append _ _ hq
    have hT := h₁.terminated_of_mem hne hq₁ hsound.left hmem
    have hT' := (h₁.inv hne hq₁ hsound.left).terminated_atCall hT
    exact absurd (hl.2.1.symm.trans hT') (by simp)
  · exact absurd hwj (hno j hj)

/-- Different priorities leave no ties. -/
theorem Reaches.untied_of_injective (h : Reaches .priority specs tr m)
    (hinj : ∀ i < specs.length, ∀ j < specs.length,
      ((load specs).pcbs j).priority = ((load specs).pcbs i).priority → j = i) : Untied tr := by
  rintro a inp s c i b he _ ⟨a₁, s₁, rfl, _, j, hj, hne, hp, _⟩
  have he' : tr = a₁ ++ .dispatch i s₁ :: (b ++ .call inp s :: c) := by simp [he]
  obtain ⟨a₀, inp₀, rfl, _, hi⟩ := h.at_dispatch he'
  have hat : tr = a₀ ++ .call inp₀ s₁ :: (.dispatch i s₁ :: b ++ .call inp s :: c) := by simp [he']
  obtain ⟨_, _, _, _, _, _, _, _, hn, _⟩ := h.at_call hat
  rw [h.priority_const hat, h.priority_const hat] at hp
  exact hne (hinj i hi j (hn ▸ hj) hp)

/-- **`priority` takes a process of maximal priority** at every call that finds one in the reach of its loop, and
passes the turn on among ties in the runs in which no process is taken again that was tied when it was taken last. -/
theorem priority_ties (h : Reaches .priority specs tr m) :
    (MaximalNext tr ↔ ∀ k ∈ calls tr, Found k.2) ∧
    ((∀ k ∈ calls tr, Found k.2) ∧ Untied tr → MaximalNext tr ∧ TiesInTurn tr) ∧
    (MaximalNext tr ∧ TiesInTurn tr → (∀ k ∈ calls tr, Found k.2) ∧ Ended tr) ∧
    ((∀ k ∈ calls tr, ∃ j < k.2.num_processes, (k.2.pcbs j).state = .WAITING) → quanta tr < 2 ^ 32 →
      (MaximalNext tr ∧ TiesInTurn tr ↔ (∀ k ∈ calls tr, Found k.2) ∧ Untied tr)) := by
  have hiff := h.maximalNext_iff
  have hkeep : (∀ k ∈ calls tr, Found k.2) ∧ Untied tr → MaximalNext tr ∧ TiesInTurn tr := by
    rintro ⟨hF, hU⟩
    exact ⟨hiff.mpr hF, h.tiesInTurn hF hU⟩
  have hforced : MaximalNext tr ∧ TiesInTurn tr → (∀ k ∈ calls tr, Found k.2) ∧ Ended tr := by
    rintro ⟨hM, hT⟩
    exact ⟨hiff.mp hM, h.ended hM hT⟩
  refine ⟨hiff, hkeep, hforced, fun hw hq => ⟨fun hMT => ?_, hkeep⟩⟩
  obtain ⟨hF, hE⟩ := hforced hMT
  exact ⟨hF, h.untied hF hw hq hE⟩

/-- Two processes of one priority: at the first interrupt the first one is taken again. -/
theorem priority_not_in_turn : ¬∀ specs tr m, Reaches .priority specs tr m → MaximalNext tr ∧ TiesInTurn tr := by
  intro hall
  let inps : List Input := [⟨false, [], 0⟩, ⟨false, [], 0⟩, ⟨true, [], 0⟩]
  have hr : Reaches .priority [⟨"A", 0, 1, 1⟩, ⟨"B", 0, 1, 1⟩] _ _ := @run_of_exec .priority inps _ _ _ rfl
  have hcount := (hall _ _ _ hr).2 [] 0 _ [] _ [] rfl (by simp) 1 (by decide) (by decide) (by decide) (by decide)
  cases hcount

/-- An arrival of higher priority at the first interrupt. -/
theorem priority_ties_kept :
    ∃ tr m, Reaches .priority [⟨"A", 0, 1, 1⟩, ⟨"B", 1, 1, 2⟩] tr m ∧ (dispatches tr).map Prod.fst = [0, 1] ∧
      MaximalNext tr ∧ TiesInTurn tr := by
  let inps : List Input := [⟨false, [], 0⟩, ⟨false, [], 0⟩, ⟨true, [], 0⟩]
  have hr : Reaches .priority [⟨"A", 0, 1, 1⟩, ⟨"B", 1, 1, 2⟩] _ _ := @run_of_exec .priority inps _ _ _ rfl
  exact ⟨_, _, hr, by decide, (priority_ties hr).2.1 ⟨by decide, hr.untied_of_injective (by decide)⟩⟩

end Cs326.Scheduler
