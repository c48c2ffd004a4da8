import Cs326.Shell.JobTable

/-!
# The job table along a run

In a run whose steps are `Sane` the entries of the table are the recorded jobs that have not been reaped, in start
order. The condition leaves out what the code gets wrong: an eleventh job, a command that does not fit, a job whose
child is reaped before it is recorded, and above all a handler run whose `waitpid` returns what the unused slot 9 holds.
-/

namespace Cs326.Shell

variable {w w' : World} {tr : List (World × Action)} {a : Action} {pid : Int}

/-- What a step needs of the state before it. -/
def Sane (w : World) : Action → Prop
  | .record => ∀ pid command_char, w.control = .forked pid command_char →
      w.table.count < 10 ∧ command_char.length < 5000 ∧ w.isChild pid
  | .handler pid past => (pid = w.table.num_jobs 9 → w.table.count = 10) ∧
      (w.table.count = 10 → pid ≠ w.table.num_jobs 9 → (∃ k < 9, w.table.num_jobs k = pid) → past.2.length < 5000)
  | _ => True

/-- The child that `main` is busy with is no recorded job. -/
def Control.Apart (jobs : List (Int × CString)) : Control → Prop
  | .prompt => True
  | .forked pid _ => pid ∉ jobs.map Prod.fst
  | .waiting pid => pid ∉ jobs.map Prod.fst
  | .undefined => False

structure Inv (w : World) : Prop where
  table : w.table.Wf
  entries : w.table.entries = w.jobs
  alive : ∀ j ∈ w.jobs, w.isChild j.1
  apart : w.control.Apart w.jobs

theorem inv_init : Inv World.init := ⟨JobTable.wf_init, rfl, fun j hj => (by cases hj), trivial⟩

theorem Control.Apart.mono {c : Control} {jobs jobs' : List (Int × CString)} (h : c.Apart jobs) (hs : jobs' ⊆ jobs) :
    c.Apart jobs' := by
  cases c with
  | prompt => trivial
  | forked pid _ => exact fun hm => h (List.map_subset _ hs hm)
  | waiting pid => exact fun hm => h (List.map_subset _ hs hm)
  | undefined => exact h

theorem Inv.not_mem_of_fresh (h : Inv w) (hf : w.fresh pid) : pid ∉ w.jobs.map Prod.fst := by
  intro hm
  obtain ⟨j, hj, rfl⟩ := List.mem_map.mp hm
  exact hf.2 (h.alive j hj)

/-- The jobs of the other children stay alive. -/
theorem Inv.alive_reap (h : Inv w) : ∀ j ∈ (w.reap pid).jobs, (w.reap pid).isChild j.1 := by
  intro j hj
  obtain ⟨hj, hne⟩ := List.mem_filter.mp hj
  have hne : j.1 ≠ pid := by simpa using hne
  exact (h.alive j hj).imp_right fun hx => (List.mem_erase_of_ne hne).mpr hx

/-- **One step.** -/
theorem Inv.step (h : Inv w) (hs : w.step a = some w') (hsane : Sane w a) : Inv w' := by
  cases a with
  | fork_background pid command_char =>
    simp only [World.step] at hs
    split at hs <;> cases hs
    rename_i hc
    exact ⟨h.table, h.entries, fun j hj => (h.alive j hj).imp_left (List.mem_cons_of_mem _), h.not_mem_of_fresh hc.2⟩
  | record =>
    simp only [World.step] at hs
    split at hs
    · rename_i pid command_char hctl
      obtain ⟨hc, hlen, hchild⟩ := hsane pid command_char hctl
      have hpid : pid ∉ w.jobs.map Prod.fst := by
        have := h.apart
        rwa [hctl] at this
      obtain ⟨t', ht', hwf, he⟩ := JobTable.record_spec h.table hc hlen (h.entries ▸ hpid)
      rw [ht'] at hs
      cases hs
      refine ⟨hwf, ?_, ?_, trivial⟩
      · dsimp only
        rw [if_pos hchild, he, h.entries]
      · dsimp only
        rw [if_pos hchild]
        intro j hj
        rcases List.mem_append.mp hj with hj | hj
        · exact h.alive j hj
        · obtain rfl := List.mem_singleton.mp hj
          exact hchild
    · cases hs
  | fork_foreground pid =>
    simp only [World.step] at hs
    split at hs <;> cases hs
    rename_i hc
    exact ⟨h.table, h.entries, fun j hj => (h.alive j hj).imp_left (List.mem_cons_of_mem _), h.not_mem_of_fresh hc.2⟩
  | wait =>
    simp only [World.step] at hs
    split at hs
    · rename_i pid hctl
      split at hs <;> cases hs
      -- a foreground child is no job
      have hpid : pid ∉ w.jobs.map Prod.fst := by
        have := h.apart
        rwa [hctl] at this
      refine ⟨h.table, ?_, h.alive_reap, trivial⟩
      change w.table.entries = w.jobs.filter fun j => decide (j.1 ≠ pid)
      rw [← h.entries] at hpid ⊢
      exact (JobTable.not_mem_iff_filter hpid).symm
    · cases hs
  | exit pid =>
    simp only [World.step] at hs
    split at hs <;> cases hs
    refine ⟨h.table, h.entries, fun j hj => ?_, h.apart⟩
    by_cases hne : j.1 = pid
    · exact .inr (hne ▸ List.mem_cons_self)
    · exact (h.alive j hj).imp (List.mem_erase_of_ne hne).mpr (List.mem_cons_of_mem _)
  | handler pid past =>
    simp only [World.step] at hs
    split at hs
    · obtain ⟨t', ht', hwf, he⟩ := JobTable.sigchld_handler_spec h.table hsane.1 hsane.2
      rw [ht'] at hs
      cases hs
      exact ⟨hwf, he.trans (by rw [h.entries]; rfl), h.alive_reap, h.apart.mono (List.filter_subset_self _)⟩
    · cases hs

/-- Every step of the trace is sane. -/
def SaneRun (tr : List (World × Action)) : Prop := ∀ e ∈ tr, Sane e.1 e.2

/-- **The job table is right** in every run whose steps are sane: `0 <= count <= 10`, and the entries are the jobs
recorded and not reaped, in start order. -/
theorem job_table_correct (h : Reaches tr w) (hs : SaneRun tr) :
    0 ≤ w.table.count ∧ w.table.count ≤ 10 ∧ w.control ≠ .undefined ∧ w.table.entries = w.jobs := by
  have hinv : Inv w := by
    refine Run.invariant_of_prefix (P := SaneRun) (I := fun _ w => Inv w)
      (fun a b hab e he => hab e (List.mem_append_left b he)) (fun _ => inv_init) ?_ h hs
    rintro tr w ev w' hI ⟨a, hstep, rfl⟩ hP
    exact hI.step hstep (hP (w, a) (by simp))
  refine ⟨hinv.table.nonneg, hinv.table.le, fun hc => ?_, hinv.entries⟩
  have := hinv.apart
  rwa [hc] at this

/-- `sleep &`. -/
def sleep : CString := ⟨[115, 108, 101, 101, 112, 32, 38], by decide⟩

/-- The job of a child that exits is erased. -/
theorem job_table_correct_reaped :
    ∃ tr w, Reaches tr w ∧ tr.length = 4 ∧ w.jobs = [] ∧ w.table.entries = w.jobs := by
  have h : Reaches _ _ := (((Run.nil.snoc ⟨.fork_background 100 sleep, rfl, rfl⟩).snoc ⟨.record, rfl, rfl⟩).snoc
    ⟨.exit 100, rfl, rfl⟩).snoc ⟨.handler 100 (0, .empty), rfl, rfl⟩
  refine ⟨_, _, h, rfl, rfl, (job_table_correct h ?_).2.2.2⟩
  intro e he
  simp only [List.nil_append, List.cons_append, List.mem_cons, List.not_mem_nil, or_false] at he
  rcases he with rfl | rfl | rfl | rfl
  · trivial
  · rintro pid cmd hc
    cases hc
    exact ⟨by decide, by decide, .inl (by decide)⟩
  · trivial
  · exact ⟨fun h => absurd h (by decide), fun h => absurd h (by decide)⟩

/-- The last step of the trace is a run of the handler. -/
def EndsInHandler (tr : List (World × Action)) : Prop := ∃ tr' w pid past, tr = tr' ++ [(w, .handler pid past)]

/-- A foreground command reaped by `main` while a job runs: the handler is called with nothing to reap, `waitpid`
returns `0`, which is what slot 9 holds, and the job is lost. -/
theorem job_lost :
    ¬∀ tr w, Reaches tr w →
      0 ≤ w.table.count ∧ w.table.count ≤ 10 ∧ (EndsInHandler tr → w.table.entries = w.jobs) := by
  intro hall
  have h : Reaches _ _ := (((((Run.nil.snoc ⟨.fork_background 100 sleep, rfl, rfl⟩).snoc ⟨.record, rfl, rfl⟩).snoc
    ⟨.fork_foreground 101, rfl, rfl⟩).snoc ⟨.exit 101, rfl, rfl⟩).snoc ⟨.wait, rfl, rfl⟩).snoc
    ⟨.handler 0 (0, .empty), rfl, rfl⟩
  have he := (hall _ _ h).2.2 ⟨_, _, 0, (0, .empty), rfl⟩
  exact absurd (congrArg List.length he) (by decide)

end Cs326.Shell
