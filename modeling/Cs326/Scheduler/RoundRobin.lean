import Cs326.Scheduler.WorkConservation

/-!
# `rr` is fair

Fix two processes `i` and `j`. From a dispatch of `i` with `j` waiting until the next one of `i`, the current process
moves forward on the cycle of indices that starts in `i`: short of `j` while `j` has not been dispatched, and at `j` or
behind it once it has (`Between`). The next dispatch of `i` ends the round, so it comes after exactly one of `j`.
-/

namespace Cs326.Scheduler

variable {specs : List ProcessSpec} {tr ev : List Event} {m m' : Machine} {s s' : SchedulerState} {inp : Input}
  {i j n new : Nat} {mid : List (Nat × SchedulerState)}

/-- How often `j` is dispatched in `mid`. -/
def times (j : Nat) (mid : List (Nat × SchedulerState)) : Nat := (mid.map Prod.fst).count j

theorem times_concat (d : Nat × SchedulerState) :
    times j (mid ++ [d]) = times j mid + if d.1 = j then 1 else 0 := by
  simp [times, List.count_singleton]

/-- The table `s` after `i` was dispatched with `j` waiting, and then `mid` without `i`. -/
inductive Between (n i j : Nat) (mid : List (Nat × SchedulerState)) (s : SchedulerState) : Prop
  /-- The round does not end. -/
  | terminated : (s.pcbs i).state = .TERMINATED → Between n i j mid s
  | before : (s.pcbs i).state ≠ .CREATED → (s.pcbs j).state = .WAITING → times j mid = 0 →
      offset n i s.current_process < offset n i j → Between n i j mid s
  | behind : (s.pcbs i).state ≠ .CREATED → times j mid = 1 →
      offset n i j ≤ offset n i s.current_process → Between n i j mid s

theorem Between.atCall (h : Between n i j mid m.sstate) (hinv : Inv specs tr m) :
    Between n i j mid (atCall m.sstate) := by
  have hcreated : (m.sstate.pcbs i).state ≠ .CREATED → ((Scheduler.atCall m.sstate).pcbs i).state ≠ .CREATED := by
    intro hne
    rw [atCall_state]
    split
    · simp
    · exact hne
  cases h with
  | terminated hT => exact .terminated (hinv.terminated_atCall hT)
  | before hi hj ht ho =>
    refine .before (hcreated hi) ?_ ht (by simpa using ho)
    rw [atCall_state, hj]
    exact ite_self _
  | behind hi ht ho => exact .behind (hcreated hi) ht (by simpa using ho)

theorem Between.quiet (h : Between n i j mid m.sstate) (hinv : Inv specs tr m) (hq : Quiet m ev m') :
    Between n i j mid m'.sstate := by
  obtain ⟨_, _, _, hcur, _, _, hst⟩ := hq.table
  by_cases hi : m.control = .loopTest i ∧ ev ≠ []
  · exact .terminated (by rw [hst, if_pos hi])
  have hi' : (m'.sstate.pcbs i).state = (m.sstate.pcbs i).state := by rw [hst, if_neg hi]
  cases h with
  | terminated hT => exact .terminated (hi'.trans hT)
  | before hne hj ht ho =>
    refine .before (hi' ▸ hne) ?_ ht (hcur ▸ ho)
    rw [hst, if_neg ?_]
    · exact hj
    · -- the process that terminates is the current one
      rintro ⟨hctl, _⟩
      have hexec := hinv.control
      simp only [ControlInv, hctl] at hexec
      rw [hexec.running] at hj
      cases hj
  | behind hne ht ho => exact .behind (hi' ▸ hne) ht (hcur ▸ ho)

/-- What `rr` does in the table `s`: nobody who waits is nearer than `new`. -/
structure Nearest (n : Nat) (s : SchedulerState) (new : Nat) : Prop where
  lt : new < n
  current : s.current_process < n
  waiting : (s.pcbs new).state = .WAITING
  turn_le : ∀ k < n, (s.pcbs k).state = .WAITING → turn n s.current_process new ≤ turn n s.current_process k

/-- **The next dispatch** ends the round, with `j` dispatched once, or stays in it. -/
theorem Between.dispatch (h : Between n i j mid s) (hnew : Nearest n s new) (hs : Switched s new s') (hi : i < n)
    (hj : j < n) (hji : j ≠ i) (hidle : (s.pcbs i).state ≠ .RUNNING) :
    (new = i ∧ times j mid = 1) ∨ new ≠ i ∧ Between n i j (mid ++ [(new, s)]) s' := by
  by_cases hni : new = i
  · left
    refine ⟨hni, ?_⟩
    cases h with
    | terminated hT => rw [← hni, hnew.waiting] at hT; cases hT
    | before _ hwj _ ho =>
      rcases offset_of_turn_le hi hj hnew.current hnew.lt ho (hnew.turn_le j hj hwj) with hp | ⟨hp, _⟩
      · exact absurd (hp.symm.trans hni) hji
      · rw [hni, offset_self] at hp
        exact absurd hp (Nat.not_lt_zero _)
    | behind _ ht _ => exact ht
  · right
    refine ⟨hni, ?_⟩
    have hi' : (s'.pcbs i).state = (s.pcbs i).state := by rw [hs.state, if_neg (Ne.symm hni)]
    cases h with
    | terminated hT => exact .terminated (hi'.trans hT)
    | before hne hwj ht ho =>
      rcases offset_of_turn_le hi hj hnew.current hnew.lt ho (hnew.turn_le j hj hwj) with rfl | ⟨_, hp⟩
      · refine .behind (hi' ▸ hne) ?_ (by rw [hs.current])
        rw [times_concat, ht, if_pos rfl]
      · have hnj : new ≠ j := fun he => by rw [he] at hp; exact Nat.lt_irrefl _ hp
        refine .before (hi' ▸ hne) ?_ ?_ (by rw [hs.current]; exact hp)
        · rw [hs.state, if_neg (Ne.symm hnj)]; exact hwj
        · rw [times_concat, ht, if_neg hnj]
    | behind hne ht ho =>
      by_cases hT : (s.pcbs i).state = .TERMINATED
      · exact .terminated (hi'.trans hT)
      have hwi : (s.pcbs i).state = .WAITING := ProcessState.eq_waiting hne hidle hT
      have hp := (offset_of_turn_le_start hi hnew.current hnew.lt (hnew.turn_le i hi hwi)).resolve_left hni
      have hnj : new ≠ j := by rintro rfl; omega
      refine .behind (hi' ▸ hne) ?_ (by rw [hs.current]; omega)
      rw [times_concat, ht, if_neg hnj]

/-- The round starts. -/
theorem Between.start (hs : Switched s i s') (hi : i < n) (hji : j ≠ i) (hw : (s.pcbs j).state = .WAITING) :
    Between n i j [] s' := by
  refine .before ?_ ?_ rfl ?_
  · rw [hs.state, if_pos rfl]; simp
  · rw [hs.state, if_neg hji]; exact hw
  · rw [hs.current, offset_self]; exact offset_pos hi hji

theorem Inv.nearest {caller : Context} (h : Inv specs tr m) (hc : Calls m.control caller)
    (hrun : Algorithm.run (atCall m.sstate) inp .rr = some (.context_switch new)) :
    Nearest specs.length (atCall m.sstate) new := by
  have hcall := h.toCall hc
  obtain ⟨p, hp, he, hw, hle⟩ := rr_eq_switch (Option.some.inj hrun)
  obtain rfl : new = p := Int.ofNat.inj he
  rw [hcall.table.num] at hp hle
  exact ⟨hp, hcall.table.current, waiting_iff.mp hw, fun k hk hwk => hle k hk (waiting_iff.mpr hwk)⟩

/-- After every dispatch of `i` with `j` waiting, until the next one. -/
def Rounds (n i j : Nat) (tr : List Event) (m : Machine) : Prop :=
  ∀ t₁ s₁ mid, dispatches tr = t₁ ++ (i, s₁) :: mid → (∀ d ∈ mid, d.1 ≠ i) → (s₁.pcbs j).state = .WAITING →
    Between n i j mid m.sstate

theorem Rounds.step (hR : Rounds specs.length i j tr m) (hinv : Inv specs tr m) (hs : SoundStep .rr m ev m')
    (hi : i < specs.length) (hj : j < specs.length) (hji : j ≠ i) : Rounds specs.length i j (tr ++ ev) m' := by
  intro t₁ s₁ mid hd hmid hw
  rw [dispatches_append] at hd
  cases hs with
  | quiet hq =>
    rw [hq.silent.2.1, List.append_nil] at hd
    exact (hR t₁ s₁ mid hd hmid hw).quiet hinv hq
  | ret =>
    rw [dispatches_callEvents, List.append_nil] at hd
    exact (hR t₁ s₁ mid hd hmid hw).atCall hinv
  | @dispatch inp caller new m' hc hrun _ _ hs _ =>
    rw [dispatches_append, dispatches_callEvents, List.nil_append,
      show dispatches [Event.dispatch new (atCall m.sstate)] = [(new, atCall m.sstate)] from rfl] at hd
    rcases List.eq_nil_or_concat mid with rfl | ⟨mid', d, rfl⟩
    · obtain ⟨_, hd⟩ := List.append_inj' hd rfl
      obtain ⟨rfl, rfl⟩ := Prod.mk.inj (List.singleton_inj.mp hd)
      exact .start hs hi hji hw
    · rw [List.concat_eq_append] at hd hmid ⊢
      rw [← List.cons_append, ← List.append_assoc] at hd
      obtain ⟨hd', hlast⟩ := List.append_inj' hd rfl
      obtain rfl := List.singleton_inj.mp hlast
      have hb := (hR t₁ s₁ mid' hd' (fun d hd => hmid d (by simp [hd])) hw).atCall hinv
      have hidle := (hinv.toCall hc).idle i hi
      exact ((hb.dispatch (hinv.nearest hc hrun) hs hi hj hji hidle).resolve_left fun h =>
        hmid (new, atCall m.sstate) (by simp) h.1).2

/-- **Fairness.** Between two consecutive dispatches of `i` under `rr`, every other process that has arrived and not
terminated at the first one is dispatched exactly once. -/
theorem round_robin_fair (h : Reaches .rr specs tr m) (hq : quanta tr < 2 ^ 32) (i j : Nat) (s₁ s₂ : SchedulerState)
    (t₁ mid t₂ : List (Nat × SchedulerState)) (hd : dispatches tr = t₁ ++ (i, s₁) :: mid ++ (i, s₂) :: t₂)
    (hmid : ∀ d ∈ mid, d.1 ≠ i) (hj : j < specs.length) (hji : j ≠ i) (harrived : (s₁.pcbs j).state ≠ .CREATED)
    (hlive : (s₁.pcbs j).state ≠ .TERMINATED) : (mid.map Prod.fst).count j = 1 := by
  have hne : specs ≠ [] := List.length_pos_iff.mp (Nat.lt_of_le_of_lt (Nat.zero_le _) hj)
  have hsound := h.soundCalls (.inr (.inl rfl)) hne
  have hd₁ : dispatches tr = t₁ ++ (i, s₁) :: (mid ++ (i, s₂) :: t₂) := by rw [hd, List.append_assoc]; rfl
  have hw : (s₁.pcbs j).state = .WAITING := by
    obtain ⟨_, _, _, _, _, _, _, _, hinv, hc, rfl, _⟩ := h.dispatched hne hq hsound hd₁
    exact ProcessState.eq_waiting harrived ((hinv.toCall hc).idle j hj) hlive
  obtain ⟨tr₁, tr₂, m₁, inp, caller, rfl, hr, ha, hinv, hc, rfl, _, hrun, hi, _, s', hs⟩ :=
    h.dispatched hne hq hsound hd
  have hR : Rounds specs.length i j tr₁ m₁ := by
    refine (hr.induct hne (quanta_lt_of_append _ _ hq) hsound.left (fun t₁ s₁ mid hd => ?_)
      fun hinv hR hs _ _ _ => Rounds.step hR hinv hs hi hj hji).2
    exact absurd (congrArg List.length hd) (by simp [dispatches])
  have hb := (hR t₁ s₁ mid ha hmid hw).atCall hinv
  rcases hb.dispatch (hinv.nearest hc hrun) hs hi hj hji ((hinv.toCall hc).idle i hi) with ⟨_, ht⟩ | ⟨hii, _⟩
  · exact ht
  · exact absurd rfl hii

/-- Two processes and two interrupts. -/
theorem round_robin_fair_two :
    ∃ tr m s₁ s₂ mid, Reaches .rr [⟨"A", 0, 1, 0⟩, ⟨"B", 0, 1, 0⟩] tr m ∧
      dispatches tr = (1, s₁) :: mid ++ [(1, s₂)] ∧ (mid.map Prod.fst).count 0 = 1 := by
  let inps : List Input := [⟨false, [], 0⟩, ⟨false, [], 0⟩, ⟨true, [], 0⟩, ⟨false, [], 0⟩, ⟨true, [], 0⟩]
  obtain ⟨tr, m, hr, hq, hmap⟩ : ∃ tr m, Reaches .rr [⟨"A", 0, 1, 0⟩, ⟨"B", 0, 1, 0⟩] tr m ∧ quanta tr < 2 ^ 32 ∧
      (dispatches tr).map (fun d => (d.1, (d.2.pcbs 0).state)) = [(1, .WAITING), (0, .WAITING), (1, .WAITING)] :=
    ⟨_, _, @run_of_exec .rr inps _ _ _ rfl, by decide, by decide⟩
  rcases hd : dispatches tr with _ | ⟨⟨i, s₁⟩, _ | ⟨⟨k, s⟩, _ | ⟨⟨l, s₂⟩, _ | _⟩⟩⟩ <;> simp [hd] at hmap
  obtain ⟨⟨rfl, hw⟩, ⟨rfl, _⟩, rfl, _⟩ := hmap
  refine ⟨tr, m, s₁, s₂, [(0, s)], hr, hd, ?_⟩
  exact round_robin_fair hr hq 1 0 s₁ s₂ [] [(0, s)] [] hd (by simp) (by decide) (by decide) (by simp [hw])
    (by simp [hw])

end Cs326.Scheduler
