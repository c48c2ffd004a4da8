import Cs326.Shell.Pipeline

/-!
# Who reads the lines

A failed system call in `execute_pipeline` makes it return, through `exec`, to the loop of `main`, and the process that
made the call goes on as a second shell. Only the failure of the last `execvp` closes `stdin` first, so that the next
`getline` fails and the process ends. A forked process reads a line iff one of the other calls has failed in it
(`Act.strays`).
-/

namespace Cs326.Pipeline

variable {α : Type*} {t : FdTable α} {st st' : System α} {tr a ev : List (Event α)} {e : Event α} {p c : Proc α}
  {pid k num : Nat} {env : Env} {exited : Nat → Bool} {r : Result α}

/-- The failures behind which `execute_pipeline` returns with `stdin` open. -/
def Act.strays : Act α → Bool
  | .openFile false => true
  | .dup2File false => true
  | .pipe false => true
  | .fork false => true
  | .childExec _ _ false => true
  | _ => false

/-- The system calls of `main` and `exec`. -/
def Pc.inShell : Pc → Bool
  | .main | .exec _ _ | .waitpid _ => true
  | _ => false

/-- A forked process that reads no line: it is in `execute_pipeline` or beyond, or its `stdin` is closed. -/
def Confined (p : Proc α) : Prop := p.pc.inShell = true → p.pc = .main ∧ p.stdin = false

/-! ## One system call -/

/-- Whatever is forked starts in `execute_pipeline`. -/
theorem Calls.child_confined (h : Calls k num p r) (hc : r.child = some c) : Confined c := by
  cases h with
  | forkJob | fork =>
    obtain rfl := Option.some.inj hc
    intro hin
    cases hin
  | _ => cases hc

/-- **A forked process** whose call does not make it stray reads no line, and stays confined. -/
theorem Calls.confined (h : Calls k num p r) (hp : Confined p) (hact : r.act.strays = false) :
    Confined r.proc ∧ ∀ line, r.act ≠ .getline (some line) := by
  have hout : ∀ {pc : Pc}, pc.inShell = false → Confined (⟨r.proc.fds, r.proc.stdin, pc⟩ : Proc α) := by
    intro pc hpc hin
    rw [hpc] at hin
    cases hin
  cases h with
  | quit | skip | run => exact absurd (hp rfl).2 (by simp)
  | forkJob | forkJob_fails | waitpid => exact absurd (hp rfl).1 (by simp)
  | pipe_fails | openFile_fails | dup2File_fails | fork_fails | childExec_fails => cases hact
  | execLast_fails => exact ⟨fun _ => ⟨rfl, rfl⟩, by simp⟩
  | _ => exact ⟨hout rfl, by simp⟩

/-- Where a process can be: process `0` never gets into `execute_pipeline`, and a closed `stdin` ends the process at the
next `getline`. -/
structure Placed (pid : Nat) (p : Proc α) : Prop where
  shell : pid = 0 → p.pc.inShell = true ∨ p.pc = .exited
  stdin : p.stdin = false → p.pc = .main ∨ p.pc = .exited

theorem Calls.placed (h : Calls k num p r) (hp : Placed pid p) : Placed pid r.proc := by
  obtain ⟨hshell, hstdin⟩ := hp
  cases h with
  | eof | quit | fault | exit => exact ⟨fun _ => .inr rfl, fun _ => .inr rfl⟩
  | skip | run => exact ⟨fun _ => .inl rfl, fun hc => by cases hc⟩
  | @forkJob _ _ _ bg =>
    refine ⟨fun _ => ?_, fun hc => ?_⟩
    · cases bg <;> exact .inl rfl
    · simpa using hstdin hc
  | forkJob_fails | waitpid => exact ⟨fun _ => .inl rfl, fun _ => .inl rfl⟩
  | pipe_fails | openFile_fails | dup2File_fails | fork_fails | childExec_fails | execLast_fails =>
    exact ⟨fun _ => .inl rfl, fun _ => .inl rfl⟩
  | execLast hpc =>
    rcases hpc with rfl | ⟨cmds, rfl⟩ <;>
      exact ⟨fun h0 => by simpa [Pc.inShell] using hshell h0, fun hc => by simpa using hstdin hc⟩
  | _ => exact ⟨fun h0 => by simpa [Pc.inShell] using hshell h0, fun hc => by simpa using hstdin hc⟩

theorem Calls.child_placed (h : Calls k num p r) (hp : Placed pid p) (hc : r.child = some c) (hnum : num ≠ 0) :
    Placed num c := by
  cases h with
  | forkJob | fork =>
    obtain rfl := Option.some.inj hc
    exact ⟨fun h0 => absurd h0 hnum, fun hc => by simpa using hp.stdin hc⟩
  | _ => cases hc

/-- **A straying process** is a forked one, back in `main` with `stdin` open. -/
theorem Calls.strayed (h : Calls k num p r) (hp : Placed pid p) (hact : r.act.strays = true) :
    pid ≠ 0 ∧ r.proc.pc = .main ∧ r.proc.stdin = true := by
  obtain ⟨hshell, hstdin⟩ := hp
  cases h with
  | pipe_fails | openFile_fails | dup2File_fails | fork_fails | childExec_fails =>
    refine ⟨fun h0 => by simpa [Pc.inShell] using hshell h0, rfl, ?_⟩
    by_contra hc
    simpa using hstdin (Bool.eq_false_iff.mpr hc)
  | _ => cases hact

/-! ## Runs -/

/-- The shell started on the files `t` makes the calls `tr` and is then in `st`. -/
def Reaches (t : FdTable α) (tr : List (Event α)) (st : System α) : Prop := Run Step (.init t) tr st

theorem Reaches.placed (h : Reaches t tr st) (pid : Nat) : 0 < st.num ∧ Placed pid (st.procs pid) := by
  refine Run.stable (I := fun st => ∀ pid, 0 < st.num ∧ Placed pid (st.procs pid)) ?_ h ?_ pid
  · rintro st ev st' hI ⟨pid, env, hs⟩ q
    obtain ⟨hpid, r, hr, rfl, rfl⟩ := step_eq_some.mp hs
    have hcalls := step_calls hr
    constructor
    · rw [after_num]
      split <;> omega
    rw [after_procs hpid]
    split
    · rename_i hq
      exact hq ▸ hcalls.placed (hI pid).2
    · split
      · rename_i hq
        cases hc : r.child with
        | none => exact (hI q).2
        | some c =>
          rw [Option.getD_some, hq]
          exact hcalls.child_placed (hI pid).2 hc (by omega)
      · exact (hI q).2
  · intro pid
    refine ⟨Nat.zero_lt_one, ?_⟩
    unfold System.init
    dsimp only
    split
    · exact ⟨fun _ => .inl rfl, fun hc => by cases hc⟩
    · rename_i h0
      exact ⟨fun h => absurd h h0, fun _ => .inr rfl⟩

/-- Only process `0` reads lines. -/
def OneShell (tr : List (Event α)) : Prop := ∀ e ∈ tr, ∀ line, e.act = .getline (some line) → e.pid = 0

theorem Reaches.confined (h : Reaches t tr st) (htr : ∀ e ∈ tr, e.act.strays = false) :
    (0 < st.num ∧ ∀ pid, pid ≠ 0 → Confined (st.procs pid)) ∧ OneShell tr := by
  refine Run.invariant_of_prefix (P := fun tr => ∀ e ∈ tr, e.act.strays = false)
    (I := fun tr st => (0 < st.num ∧ ∀ pid, pid ≠ 0 → Confined (st.procs pid)) ∧ OneShell tr)
    (fun (a b : List (Event α)) (hab : ∀ e ∈ a ++ b, _) e he => hab e (List.mem_append_left b he))
    (fun _ => ⟨⟨Nat.zero_lt_one, fun pid h0 hin => ?_⟩, fun e he => (by cases he)⟩) ?_ h htr
  · simp only [System.init, if_neg h0] at hin
    cases hin
  rintro tr st ev st' ⟨⟨hnum, hI⟩, hone⟩ ⟨pid, env, hs⟩ hP
  obtain ⟨hpid, r, hr, rfl, rfl⟩ := step_eq_some.mp hs
  have hcalls := step_calls hr
  have hact := hP ⟨pid, r.act⟩ (by simp)
  refine ⟨⟨?_, fun q h0 => ?_⟩, fun e he line hline => ?_⟩
  · rw [after_num]
    split <;> omega
  · rw [after_procs hpid]
    split
    · rename_i hq
      exact (hcalls.confined (hq ▸ hI q h0) hact).1
    · split
      · cases hc : r.child with
        | none => exact hI q h0
        | some c => exact hcalls.child_confined hc
      · exact hI q h0
  · rcases List.mem_append.mp he with he | he
    · exact hone e he line hline
    · obtain rfl := List.mem_singleton.mp he
      by_contra h0
      exact (hcalls.confined (hI pid h0) hact).2 line hline

theorem eq_of_run_nil (h : Run Step st [] st') : st' = st := by
  generalize htr : ([] : List (Event α)) = tr at h
  cases h with
  | nil => rfl
  | snoc _ hs =>
    obtain ⟨pid, env, hs⟩ := hs
    obtain ⟨_, _, _, _, rfl⟩ := step_eq_some.mp hs
    simp at htr

/-- In `main` with `stdin` open a process reads whatever line comes. -/
theorem step_getline (hpc : p.pc = .main) (hstdin : p.stdin = true) (line : Line) : ∃ r : Result α,
    (∀ pipe num exited, p.step ⟨true, some line⟩ pipe num exited = some r) ∧ r.act = .getline (some line) := by
  unfold Proc.step
  rw [hpc, hstdin]
  cases line <;> exact ⟨_, fun _ _ _ => rfl, rfl⟩

/-- **One shell reads the lines** in every run in which no `open`, `pipe` and `fork` of `execute_pipeline`, no `dup2` of
the redirection and no `execvp` in front of a pipe fails. Behind such a failure the process that it happened in, a
forked one, can read whatever line comes next. -/
theorem one_shell (h : Reaches t tr st) :
    ((∀ e ∈ tr, e.act.strays = false) → OneShell tr) ∧
    ∀ a e, tr = a ++ [e] → e.act.strays = true → e.pid ≠ 0 ∧
      ∀ line, ∃ st', Step st [⟨e.pid, .getline (some line)⟩] st' := by
  refine ⟨fun htr => (h.confined htr).2, ?_⟩
  rintro a e rfl hact
  obtain ⟨tr₁, x, y, tr₂, st₁, st₂, rfl, hy, h₁, ⟨pid, env, hs⟩, h₂⟩ := Run.at_event h
  obtain ⟨rfl, rfl⟩ := List.append_eq_nil_iff.mp hy.symm
  obtain rfl := eq_of_run_nil h₂
  obtain ⟨hpid, r, hr, rfl, hone⟩ := step_eq_some.mp hs
  obtain ⟨_, he⟩ := List.append_inj' (hone.trans (List.nil_append _).symm) rfl
  obtain rfl := List.singleton_inj.mp he
  obtain ⟨h0, hpc, hstdin⟩ := (step_calls hr).strayed (Reaches.placed h₁ pid).2 hact
  refine ⟨h0, fun line => ?_⟩
  have hself : (st₁.after pid r).procs pid = r.proc := by rw [after_procs hpid, if_pos rfl]
  have hlt : pid < (st₁.after pid r).num := by
    rw [after_num]
    split <;> omega
  obtain ⟨r', hr', hact'⟩ := step_getline hpc hstdin line
  exact ⟨_, pid, ⟨true, some line⟩, step_eq_some.mpr ⟨hlt, r', by rw [hself]; exact hr' _ _ _, rfl, by rw [hact']⟩⟩

/-- The first command of a pipeline cannot be executed, and its process reads the next line. -/
theorem second_shell :
    ¬∀ (t : FdTable Nat) (tr : List (Event Nat)) (st : System Nat), Reaches t tr st → OneShell tr := by
  intro hall
  obtain ⟨tr, st, he, hlast⟩ : ∃ tr st, execute [(0, ⟨true, some (.run [⟨["nosuch"], true, none⟩, ⟨["wc"], false, none⟩]
      false)⟩), (0, ⟨true, none⟩), (1, ⟨true, none⟩), (1, ⟨true, none⟩), (2, ⟨true, none⟩), (2, ⟨true, none⟩),
      (2, ⟨false, none⟩), (2, ⟨true, some .skip⟩)] (System.init stdTable) = some (tr, st) ∧
      tr[7]? = some ⟨2, .getline (some .skip)⟩ := ⟨_, _, rfl, rfl⟩
  have hr : Reaches stdTable tr st := Run.of_execute (fun k _ st st' ev hs => ⟨k.1, k.2, hs⟩) he
  have h0 := hall _ tr st hr _ (List.mem_of_getElem? hlast) .skip rfl
  exact absurd h0 (by decide)

/-- The only command of a line cannot be executed, and its process ends at its `getline`. -/
theorem one_shell_ends : ∃ (tr : List (Event Nat)) (st : System Nat), Reaches stdTable tr st ∧
    (st.procs 1).pc = .exited ∧ tr.length = 6 ∧ OneShell tr := by
  obtain ⟨tr, st, he, hlen, hpc, hno⟩ : ∃ tr st, execute [(0, ⟨true, some (.run [⟨["nosuch"], false, none⟩] false)⟩),
      (0, ⟨true, none⟩), (1, ⟨false, none⟩), (1, ⟨true, some .skip⟩), (0, ⟨true, none⟩), (0, ⟨true, some .skip⟩)]
      (System.init stdTable) = some (tr, st) ∧ tr.length = 6 ∧ (st.procs 1).pc = .exited ∧
      (tr.all fun e => !e.act.strays) = true := ⟨_, _, rfl, rfl, rfl, rfl⟩
  have hr : Reaches stdTable tr st := Run.of_execute (fun k _ st st' ev hs => ⟨k.1, k.2, hs⟩) he
  exact ⟨tr, st, hr, hpc, hlen, (one_shell hr).1 fun e he => by simpa using List.all_eq_true.mp hno e he⟩

end Cs326.Pipeline
