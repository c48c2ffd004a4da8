import Cs326.Shell.Wiring
import Mathlib.Algebra.BigOperators.Group.Finset.Basic
import Mathlib.Data.List.Perm.Subperm

/-!
# What a pipeline connects and what it leaks

A pipeline ends after finitely many system calls (`pipelineSteps_le`, `exists_complete`) with each command executed
once. The tables of the commands (`commandTable`) give the two results: every write end is open in one command only, so
its reader sees the end of the file, and the read ends leak into all later commands.
-/

namespace Cs326.Pipeline

variable {α : Type*} {t : FdTable α} {cmds : List CommandLine} {st st' : System α} {tr tr' ev : List (Event α)}
  {p : Proc α} {i j b fd pid k num : Nat} {env : Env} {exited : Nat → Bool} {r : Result α} {cmd : CommandLine}

/-! ## Termination -/

/-- How many more system calls a process of the pipeline makes at most, with those of the processes it forks. -/
def Pc.left : Pc → Nat
  | .execute_pipeline cmds => 8 * cmds.length + 1
  | .redirect _ _ => 3
  | .execLast _ => 2
  | .fork _ _ _ cmds => 8 * cmds.length + 8
  | .childDup2 _ _ _ => 4
  | .childClose _ _ => 3
  | .childExec _ => 2
  | .parentDup2 _ _ cmds => 8 * cmds.length + 3
  | .parentClose _ cmds => 8 * cmds.length + 2
  | .running _ => 1
  | .main | .exec _ _ | .waitpid _ | .exited => 0

theorem Calls.left (h : Calls k num p r) (hp : p.pc.left ≠ 0) :
    r.proc.pc.left + (r.child.elim 0 fun c => c.pc.left) < p.pc.left := by
  cases h with
  | eof | quit | skip | run | forkJob | forkJob_fails | waitpid => exact absurd rfl hp
  | execLast hpc | execLast_fails hpc => rcases hpc with rfl | ⟨cmds, rfl⟩ <;> simp [Pc.left]
  | pipe | openFile | fork | parentDup2 =>
    simp only [Pc.left, Option.elim, List.length_cons]
    omega
  | _ => simp [Pc.left]

/-- The system calls that are left. -/
def System.left (st : System α) : Nat := ∑ pid ∈ Finset.range st.num, (st.procs pid).pc.left

theorem sum_range_replace {n : Nat} {f g : Nat → Nat} (hpid : pid < n) (h : ∀ q < n, q ≠ pid → g q = f q) :
    ∑ q ∈ Finset.range n, g q + f pid = ∑ q ∈ Finset.range n, f q + g pid := by
  have hmem := Finset.mem_range.mpr hpid
  rw [← Finset.add_sum_erase _ g hmem, ← Finset.add_sum_erase _ f hmem]
  have hsame : ∑ q ∈ (Finset.range n).erase pid, g q = ∑ q ∈ (Finset.range n).erase pid, f q := by
    refine Finset.sum_congr rfl fun q hq => ?_
    rw [Finset.mem_erase, Finset.mem_range] at hq
    exact h q hq.2 hq.1
  omega

theorem after_left (hpid : pid < st.num) : (st.after pid r).left + (st.procs pid).pc.left =
    st.left + r.proc.pc.left + (r.child.elim 0 fun c => c.pc.left) := by
  have hold : ∑ q ∈ Finset.range st.num, ((st.after pid r).procs q).pc.left + (st.procs pid).pc.left =
      st.left + r.proc.pc.left := by
    have h := sum_range_replace (f := fun q => (st.procs q).pc.left) (g := fun q => ((st.after pid r).procs q).pc.left)
      hpid fun q hq hne => by rw [after_procs hpid, if_neg hne, if_neg (by omega)]
    rw [h, after_procs hpid, if_pos rfl]
    rfl
  unfold System.left
  rw [after_num]
  cases hc : r.child with
  | none =>
    rw [if_pos rfl]
    exact hold
  | some child =>
    have hnew : (st.after pid r).procs st.num = child := by
      rw [after_procs hpid, if_neg (by omega), if_pos rfl, hc]
      rfl
    rw [if_neg (by simp), Finset.sum_range_succ, hnew]
    unfold System.left at hold
    simp only [Option.elim]
    omega

/-- A process of the pipeline that has not exited makes a system call. -/
theorem Walker.cases_left (h : Walker t cmds b k p) : p.pc = .exited ∨ p.pc.left ≠ 0 := by
  cases h <;> simp [Pc.left]

theorem Child.cases_left (h : Child t i cmd p) : p.pc = .exited ∨ p.pc.left ≠ 0 := by
  cases h <;> simp [Pc.left]

theorem PipelineInv.cases_left (h : PipelineInv t cmds tr st) (h0 : pid ≠ 0) (hpid : pid < st.num) :
    (st.procs pid).pc = .exited ∨ (st.procs pid).pc.left ≠ 0 := by
  rcases h.proc h0 hpid with rfl | ⟨i, cmd, _, _, _, hc⟩
  · obtain ⟨b, _, hw⟩ := h.walker
    exact hw.cases_left
  · exact hc.cases_left

/-- **A pipeline ends**: the number of its system calls is bounded. -/
theorem pipelineSteps_le (hwf : WellFormed cmds) (h : Run PipelineStep (.start t cmds) tr st) :
    tr.length + st.left ≤ 8 * cmds.length + 1 := by
  refine (h.invariant (I := fun tr st => PipelineInv t cmds tr st ∧ tr.length + st.left ≤ 8 * cmds.length + 1)
    ⟨pipelineInv_start hwf, ?_⟩ ?_).2
  · simp [System.left, System.start, Finset.sum_range_succ, Pc.left]
  · rintro tr st ev st' ⟨hI, hle⟩ hs
    refine ⟨hI.step hwf hs, ?_⟩
    obtain ⟨pid, env, h0, hok, hs⟩ := hs
    obtain ⟨hpid, r, hr, rfl, rfl⟩ := step_eq_some.mp hs
    rcases hI.cases_left h0 hpid with hexit | hleft
    · rw [Proc.step, hexit] at hr
      cases hr
    · have hstep := (step_calls hr).left hleft
      have hafter := after_left (r := r) hpid
      rw [List.length_append, List.length_singleton]
      omega

/-- No process of the pipeline has a system call left. -/
def Complete (st : System α) : Prop := ∀ ev st', ¬PipelineStep st ev st'

theorem exists_complete (hwf : WellFormed cmds) (h : Run PipelineStep (.start t cmds) tr st) :
    ∃ tr' st', Run PipelineStep (.start t cmds) (tr ++ tr') st' ∧ Complete st' := by
  induction hn : 8 * cmds.length + 1 - tr.length using Nat.strong_induction_on generalizing tr st with
  | _ n ih =>
    by_cases hc : Complete st
    · exact ⟨[], st, by simpa using h, hc⟩
    · unfold Complete at hc
      push Not at hc
      obtain ⟨ev, st₁, hs⟩ := hc
      have h₁ := h.snoc hs
      have hle := pipelineSteps_le hwf h₁
      have hev : ev.length = 1 := by
        obtain ⟨_, _, _, _, hs⟩ := hs
        obtain ⟨_, _, _, _, rfl⟩ := step_eq_some.mp hs
        rfl
      rw [List.length_append, hev] at hle
      obtain ⟨tr', st', h', hc'⟩ := ih _ (by rw [List.length_append, hev]; omega) h₁ rfl
      exact ⟨ev ++ tr', st', by rwa [← List.append_assoc], hc'⟩

/-- Only `main` and `waitpid` wait: every other call returns, with or without success. -/
theorem step_isSome (hleft : p.pc.left ≠ 0) : (p.step env k num exited).isSome = true := by
  obtain ⟨fds, stdin, pc⟩ := p
  cases pc with
  | main | exec | waitpid | exited => exact absurd rfl hleft
  | execute_pipeline cmds =>
    cases cmds with
    | nil => rfl
    | cons cmd cmds =>
      simp only [Proc.step, Proc.step.execLast]
      split
      · split <;> rfl
      · split <;> split <;> rfl
  | redirect | execLast | fork | childExec =>
    simp only [Proc.step, Proc.step.execLast]
    split <;> rfl
  | childDup2 | childClose | parentDup2 | parentClose | running => rfl

/-- At the end every process of the pipeline has exited, and they are as many as the commands. -/
theorem PipelineInv.complete (h : PipelineInv t cmds tr st) (hc : Complete st) :
    st.num = cmds.length + 1 ∧ ∀ pid, pid ≠ 0 → pid < st.num → (st.procs pid).pc = .exited := by
  have hexit : ∀ pid, pid ≠ 0 → pid < st.num → (st.procs pid).pc = .exited := by
    intro pid h0 hpid
    refine (h.cases_left h0 hpid).resolve_right fun hleft => ?_
    have hsome : ((st.procs pid).step ⟨true, none⟩ st.pipes st.num st.exited).isSome = true := step_isSome hleft
    obtain ⟨r, hr⟩ := Option.isSome_iff_exists.mp hsome
    exact hc _ _ ⟨pid, ⟨true, none⟩, h0, rfl, step_eq_some.mpr ⟨hpid, r, hr, rfl, rfl⟩⟩
  refine ⟨?_, hexit⟩
  obtain ⟨b, hb, hw⟩ := h.walker
  have hpc := hexit 1 (by omega) (by omega)
  have hlast : b + 1 = cmds.length := by
    generalize st.procs 1 = p, st.pipes = k at hw hpc
    cases hw with
    | exited hb | redirect hb | execLast hb | running hb => exact hb
    | execute_pipeline | fork | parentDup2 | parentClose => cases hpc
  omega

/-! ## The commands executed -/

theorem commandPid_injective (hi : i < cmds.length) (hj : j < cmds.length)
    (h : commandPid cmds i = commandPid cmds j) : i = j := by
  unfold commandPid at h
  split at h <;> split at h <;> omega

theorem PipelineInv.nodup (h : PipelineInv t cmds tr st) : ((execs tr).map Executed.pid).Nodup := by
  rw [List.nodup_iff_count_le_one]
  intro pid
  rw [h.once pid]
  split <;> omega

theorem PipelineInv.mem_execs (h : PipelineInv t cmds tr st) : pid ∈ (execs tr).map Executed.pid ↔
    pid ≠ 0 ∧ pid < st.num ∧ (st.procs pid).pc.done = true := by
  rw [← List.count_pos_iff, h.once pid]
  split
  · rename_i hd
    simp [hd]
  · rename_i hd
    simp [hd]

/-- Once as many have been executed as there are commands, all processes of the pipeline are commands. -/
theorem PipelineInv.all_done (h : PipelineInv t cmds tr st) (hlen : (execs tr).length = cmds.length) :
    st.num = cmds.length + 1 ∧ ∀ pid, pid ≠ 0 → pid < st.num → (st.procs pid).pc.done = true := by
  obtain ⟨b, hb, hw⟩ := h.walker
  have hlt := hw.lt
  have hsub : (execs tr).map Executed.pid ⊆ List.range' 1 (b + 1) := by
    intro pid hpid
    obtain ⟨h0, hlt, _⟩ := h.mem_execs.mp hpid
    rw [List.mem_range'_1]
    omega
  have hperm : ((execs tr).map Executed.pid).Perm (List.range' 1 (b + 1)) := by
    refine (List.subperm_of_subset h.nodup hsub).perm_of_length_le ?_
    rw [List.length_range', List.length_map, hlen]
    omega
  have hnum : b + 1 = cmds.length := by
    have := hperm.length_eq
    rw [List.length_range', List.length_map, hlen] at this
    exact this.symm
  refine ⟨by omega, fun pid h0 hpid => ?_⟩
  have hmem : pid ∈ List.range' 1 (b + 1) := by
    rw [List.mem_range'_1]
    omega
  exact (h.mem_execs.mp (hperm.mem_iff.mpr hmem)).2.2

/-- At the end every command has been executed. -/
theorem PipelineInv.executed (h : PipelineInv t cmds tr st) (hc : Complete st) :
    (execs tr).length = cmds.length ∧ ∀ i < cmds.length, ∃ e ∈ execs tr, IsCommand t cmds i e := by
  obtain ⟨hnum, hexit⟩ := h.complete hc
  have hmem : ∀ pid, pid ∈ (execs tr).map Executed.pid ↔ pid ∈ List.range' 1 cmds.length := by
    intro pid
    rw [h.mem_execs, List.mem_range'_1]
    constructor
    · rintro ⟨h0, hlt, _⟩
      omega
    · rintro ⟨h1, hlt⟩
      refine ⟨by omega, by omega, ?_⟩
      rw [hexit pid (by omega) (by omega)]
      rfl
  constructor
  · have := ((List.perm_ext_iff_of_nodup h.nodup List.nodup_range').mpr hmem).length_eq
    rwa [List.length_range', List.length_map] at this
  · intro i hi
    have hpid : commandPid cmds i ∈ (execs tr).map Executed.pid := by
      rw [hmem, List.mem_range'_1]
      unfold commandPid
      split <;> omega
    obtain ⟨e, he, hp⟩ := List.mem_map.mp hpid
    obtain ⟨j, cmd, hcmd, rfl⟩ := h.commands e he
    obtain ⟨hj, _⟩ := List.getElem?_eq_some_iff.mp hcmd
    obtain rfl := commandPid_injective hi hj hp.symm
    exact ⟨_, he, cmd, hcmd, rfl⟩

/-- Who has executed a command has its table, until it exits and has none. -/
theorem PipelineInv.done (h : PipelineInv t cmds tr st) (h0 : pid ≠ 0) (hpid : pid < st.num)
    (hd : (st.procs pid).pc.done = true) : (∃ i cmd, cmds[i]? = some cmd ∧ pid = commandPid cmds i ∧
      (st.procs pid).pc = .running cmd ∧ (st.procs pid).fds = commandTable t cmds i cmd) ∨
        (st.procs pid).pc = .exited ∧ (st.procs pid).fds = .empty := by
  rcases h.proc h0 hpid with rfl | ⟨i, cmd, rfl, hi, hcmd, hc⟩
  · obtain ⟨b, _, hw⟩ := h.walker
    generalize st.procs 1 = p, st.pipes = k at hw hd
    cases hw with
    | @running b cmd hb hcmd =>
      have hlast : ¬b + 1 < cmds.length := by omega
      exact .inl ⟨b, cmd, hcmd, (if_neg hlast).symm, rfl, (if_neg hlast).symm⟩
    | exited => exact .inr ⟨rfl, rfl⟩
    | execute_pipeline | fork | parentDup2 | parentClose | redirect | execLast => cases hd
  · generalize st.procs (i + 2) = p at hc hd
    cases hc with
    | running => exact .inl ⟨i, cmd, hcmd, (if_pos hi).symm, rfl, (if_pos hi).symm⟩
    | exited => exact .inr ⟨rfl, rfl⟩
    | childDup2 | childClose | childExec => cases hd

/-! ## The tables of the commands -/

/-- The standard output of command `i`. -/
def stdoutOf (t : FdTable α) (cmds : List CommandLine) (i : Nat) (cmd : CommandLine) : Option (File α) :=
  if i + 1 < cmds.length then some (.pipeWrite i)
  else
    match cmd.stdout_file with
    | some file => some (.opened file)
    | none => (t.file 1).map .inherited

/-- What command `i` reads from and writes to. -/
structure Connected (t : FdTable α) (cmds : List CommandLine) (i : Nat) (cmd : CommandLine)
    (fds : FdTable (File α)) : Prop where
  stdin : fds.file 0 = stdinOf t i
  stdout : fds.file 1 = stdoutOf t cmds i cmd

theorem stdinOf_pipeRead : stdinOf t i = some (.pipeRead j) ↔ i = j + 1 := by
  cases i with
  | zero =>
    simp [stdinOf]
  | succ i => simp [stdinOf]

theorem stdinOf_ne_pipeWrite : stdinOf t i ≠ some (.pipeWrite j) := by
  cases i <;> simp [stdinOf]

theorem stdoutOf_pipeWrite : stdoutOf t cmds i cmd = some (.pipeWrite j) ↔ i = j ∧ i + 1 < cmds.length := by
  unfold stdoutOf
  split
  · rename_i hi
    simp [hi]
  · rename_i hi
    split <;> simp [hi]

theorem stdoutOf_ne_pipeRead : stdoutOf t cmds i cmd ≠ some (.pipeRead j) := by
  unfold stdoutOf
  split
  · simp
  · split <;> simp

theorem commandTable_connected (h : Std t) : Connected t cmds i cmd (commandTable t cmds i cmd) := by
  have hp := parentFiles h i
  have h0 := hp.std 0 (by omega)
  have h1 := hp.std 1 (by omega)
  have hwrite : writeFd (parentTable t i) i ≠ 0 := fun he => h0 (he ▸ writeFd_free _ i)
  have hlow := FdTable.le_lowest hp.std
  unfold commandTable
  split
  · rename_i hi
    refine ⟨?_, ?_⟩
    · rw [childTable_file h1, if_neg (by omega)]
      exact hp.stdin
    · rw [childTable_file h1, if_pos (.inl rfl), stdoutOf, if_pos hi]
  · rename_i hi
    refine ⟨?_, ?_⟩
    · rw [lastTable_file]
      cases cmd.stdout_file with
      | some file =>
        dsimp only
        rw [if_neg (by omega)]
        exact hp.stdin
      | none => exact hp.stdin
    · rw [lastTable_file, stdoutOf, if_neg hi]
      cases cmd.stdout_file with
      | some file => exact if_pos (.inl rfl)
      | none => exact hp.stdout

/-- A command has one write end open, of its own pipe. -/
theorem commandTable_write (h : Std t) (hf : (commandTable t cmds i cmd).file fd = some (.pipeWrite j)) :
    j = i ∧ i + 1 < cmds.length := by
  have hp := parentFiles h i
  unfold commandTable at hf
  split at hf
  · rename_i hi
    rw [childTable_file (hp.std 1 (by omega))] at hf
    split at hf
    · exact ⟨(File.pipeWrite.inj (Option.some.inj hf)).symm, hi⟩
    · exact absurd hf (hp.no_write fd j)
  · rw [lastTable_file] at hf
    cases hs : cmd.stdout_file with
    | some file =>
      rw [hs] at hf
      dsimp only at hf
      split at hf
      · cases hf
      · exact absurd hf (hp.no_write fd j)
    | none =>
      rw [hs] at hf
      exact absurd hf (hp.no_write fd j)

/-- A command has no read end of its own pipe and of the later ones. -/
theorem commandTable_read (h : Std t) (hf : (commandTable t cmds i cmd).file fd = some (.pipeRead j)) : j < i := by
  have hp := parentFiles h i
  unfold commandTable at hf
  split at hf
  · rw [childTable_file (hp.std 1 (by omega))] at hf
    split at hf
    · cases hf
    · exact hp.read_lt fd j hf
  · rw [lastTable_file] at hf
    cases hs : cmd.stdout_file with
    | some file =>
      rw [hs] at hf
      dsimp only at hf
      split at hf
      · cases hf
      · exact hp.read_lt fd j hf
    | none =>
      rw [hs] at hf
      exact hp.read_lt fd j hf

/-- **The leak**: a command has the read ends of all earlier pipes. -/
theorem commandTable_leak (h : Std t) (hj : j < i) :
    ∃ fd, (commandTable t cmds i cmd).file fd = some (.pipeRead j) := by
  have hp := parentFiles h i
  obtain ⟨fd, hfd, hf⟩ := hp.read j hj
  have hne : (parentTable t i).file fd ≠ none := by simp [hf]
  have hlow : (parentTable t i).lowest ≠ fd := FdTable.lowest_ne hne
  have hwrite : writeFd (parentTable t i) i ≠ fd := fun he => hne (he ▸ writeFd_free _ i)
  refine ⟨fd, ?_⟩
  unfold commandTable
  split
  · rw [childTable_file (hp.std 1 (by omega)), if_neg (by omega), hf]
  · rw [lastTable_file]
    cases cmd.stdout_file with
    | some file =>
      dsimp only
      rw [if_neg (by omega), hf]
    | none => exact hf

/-! ## The results -/

/-- **What a pipeline connects.** Whatever the order of its processes, each process that `execute_pipeline` executes is
one of the commands, with its ends of the two pipes beside it, which are nobody else's standard input or output. The
pipeline ends, with every command executed once, and from then on the write end of a pipe is open in the command before
it only, while that runs. -/
theorem pipeline_wiring (hstd : Std t) (hwf : WellFormed cmds) (h : Run PipelineStep (.start t cmds) tr st) :
    ((execs tr).map Executed.pid).Nodup ∧
    (∀ e ∈ execs tr, ∃ i, cmds[i]? = some e.cmd ∧ e.pid = commandPid cmds i ∧ Connected t cmds i e.cmd e.fds) ∧
    (∀ e ∈ execs tr, ∀ i, ∀ fd < 2,
      (e.fds.file fd = some (.pipeRead i) → fd = 0 ∧ i + 1 < cmds.length ∧ e.pid = commandPid cmds (i + 1)) ∧
      (e.fds.file fd = some (.pipeWrite i) → fd = 1 ∧ i + 1 < cmds.length ∧ e.pid = commandPid cmds i)) ∧
    tr.length ≤ 8 * cmds.length + 1 ∧
    (Complete st → (execs tr).length = cmds.length) ∧
    ((execs tr).length = cmds.length → ∀ i pid fd, pid < st.num →
      (st.procs pid).fds.file fd = some (.pipeWrite i) →
        i + 1 < cmds.length ∧ pid = commandPid cmds i ∧ ∃ cmd, (st.procs pid).pc = .running cmd) := by
  have hI := pipelineInv hwf h
  refine ⟨hI.nodup, fun e he => ?_, fun e he i fd hfd => ?_, by have := pipelineSteps_le hwf h; omega,
    fun hc => (hI.executed hc).1, fun hlen i pid fd hpid hf => ?_⟩
  · obtain ⟨i, cmd, hcmd, rfl⟩ := hI.commands e he
    exact ⟨i, hcmd, rfl, commandTable_connected hstd⟩
  · obtain ⟨j, cmd, hcmd, rfl⟩ := hI.commands e he
    obtain ⟨hj, _⟩ := List.getElem?_eq_some_iff.mp hcmd
    obtain ⟨hstdin, hstdout⟩ : Connected t cmds j cmd (commandTable t cmds j cmd) := commandTable_connected hstd
    dsimp only
    obtain rfl | rfl : fd = 0 ∨ fd = 1 := by omega
    · rw [hstdin, stdinOf_pipeRead]
      refine ⟨?_, fun hf => absurd hf stdinOf_ne_pipeWrite⟩
      rintro rfl
      exact ⟨rfl, hj, rfl⟩
    · rw [hstdout, stdoutOf_pipeWrite]
      refine ⟨fun hf => absurd hf stdoutOf_ne_pipeRead, ?_⟩
      rintro ⟨rfl, hlt⟩
      exact ⟨rfl, hlt, rfl⟩
  · obtain ⟨_, hdone⟩ := hI.all_done hlen
    by_cases h0 : pid = 0
    · subst h0
      rw [hI.caller] at hf
      simp at hf
    · rcases hI.done h0 hpid (hdone pid h0 hpid) with ⟨j, cmd, _, hp, hrun, hfds⟩ | ⟨_, hfds⟩
      · rw [hfds] at hf
        obtain ⟨rfl, hlt⟩ := commandTable_write hstd hf
        exact ⟨hlt, hp, cmd, hrun⟩
      · rw [hfds] at hf
        cases hf

theorem run_of_pids {t : FdTable α} {pids : List Nat} (h0 : 0 ∉ pids)
    (h : execute (pids.map fun pid => (pid, ⟨true, none⟩)) (System.start t cmds) = some (tr, st)) :
    Run PipelineStep (.start t cmds) tr st := by
  refine Run.of_execute (fun k hk st st' ev hs => ?_) h
  obtain ⟨pid, hpid, rfl⟩ := List.mem_map.mp hk
  exact ⟨pid, _, fun he => h0 (he ▸ hpid), rfl, hs⟩

/-- Three commands, the last one with its output in a file. -/
theorem pipeline_wiring_three : ∃ (cmds : List CommandLine) (tr : List (Event Nat)) (st : System Nat),
    Run PipelineStep (.start stdTable cmds) tr st ∧ cmds.length = 3 ∧ (execs tr).length = 3 ∧
      ∀ i pid fd, pid < st.num → (st.procs pid).fds.file fd = some (.pipeWrite i) →
        i + 1 < cmds.length ∧ pid = commandPid cmds i ∧ ∃ cmd, (st.procs pid).pc = .running cmd := by
  let cmds : List CommandLine := [⟨["cat"], true, none⟩, ⟨["tr"], true, none⟩, ⟨["sed"], false, some "out"⟩]
  let pids : List Nat := [1, 1, 1, 1, 2, 1, 1, 2, 1, 1, 3, 1, 2, 3, 1, 3, 1]
  obtain ⟨tr, st, he, hlen⟩ : ∃ tr st, execute (pids.map fun pid => (pid, ⟨true, none⟩)) (System.start stdTable cmds) =
      some (tr, st) ∧ (execs tr).length = 3 := ⟨_, _, rfl, rfl⟩
  have hr : Run PipelineStep (.start stdTable cmds) tr st := run_of_pids (by decide) he
  have hwiring := pipeline_wiring (by unfold Std; decide) ⟨by decide, by decide⟩ hr
  exact ⟨cmds, tr, st, hr, rfl, hlen, hwiring.2.2.2.2.2 hlen⟩

/-- No executed command has a read end open but the one that reads from it. -/
def NoLeak (cmds : List CommandLine) (st : System α) : Prop :=
  ∀ pid cmd, pid < st.num → (st.procs pid).pc = .running cmd →
    ∀ i fd, (st.procs pid).fds.file fd = some (.pipeRead i) → pid = commandPid cmds (i + 1)

/-- The commands of a run are reached while they run. -/
theorem exists_running (hwf : WellFormed cmds) (h : Run PipelineStep (.start t cmds) tr st) {e : Executed α}
    (he : e ∈ execs tr) : ∃ tr' st', Run PipelineStep (.start t cmds) tr' st' ∧ e.pid < st'.num ∧
      (st'.procs e.pid).pc = .running e.cmd ∧ (st'.procs e.pid).fds = e.fds := by
  obtain ⟨ev, hev, hexec⟩ := List.mem_filterMap.mp he
  obtain ⟨a, c, rfl⟩ := List.append_of_mem hev
  obtain ⟨tr₁, x, y, _, st₁, st₂, _, _, h₁, hs, _⟩ := h.at_event
  have hI := pipelineInv hwf h₁
  have hI' := pipelineInv hwf (h₁.snoc hs)
  obtain ⟨pid, env, h0, hok, hs'⟩ := id hs
  obtain ⟨hpid, r, hr, rfl, hone⟩ := step_eq_some.mp hs'
  obtain ⟨rfl, hone⟩ : x = [] ∧ ev :: y = [⟨pid, r.act⟩] := by
    cases x with
    | nil => exact ⟨rfl, hone⟩
    | cons => simp at hone
  obtain ⟨rfl, rfl⟩ := List.cons.inj hone
  obtain ⟨i, hi, hp, hexe⟩ := hI.executes hwf h0 hpid hok hr
  cases hexe with
  | nothing hact => simp [Event.executed, hact] at hexec
  | @command cmd hcmd hact _ hafter =>
    obtain rfl : ⟨pid, cmd, commandTable t cmds i cmd⟩ = e := by simpa [Event.executed, hact] using hexec
    have hself : (st₁.after pid r).procs pid = r.proc := by rw [after_procs hpid, if_pos rfl]
    have hrun : ((st₁.after pid r).procs pid).pc = .running cmd := by rw [hself, hafter]
    have hlt : pid < (st₁.after pid r).num := by
      rw [after_num]
      split <;> omega
    refine ⟨_, _, h₁.snoc hs, hlt, hrun, ?_⟩
    rcases hI'.done h0 hlt (by rw [hrun]; rfl) with ⟨j, cmd', hcmd', hp', hrun', hfds⟩ | ⟨hexit, _⟩
    · obtain ⟨hj, _⟩ := List.getElem?_eq_some_iff.mp hcmd'
      obtain rfl := commandPid_injective hi hj (hp.trans hp')
      obtain rfl : cmd = cmd' := Pc.running.inj (hrun.symm.trans hrun')
      exact hfds
    · rw [hrun] at hexit
      cases hexit

/-- **Read ends leak** exactly in the pipelines of three commands and more. -/
theorem no_leaked_readers (hstd : Std t) (hwf : WellFormed cmds) :
    (∀ tr st, Run PipelineStep (.start t cmds) tr st → NoLeak cmds st) ↔ cmds.length ≤ 2 := by
  constructor
  · intro hall
    by_contra hlen
    -- in a run to the end the third command is executed with the read end of the first pipe
    obtain ⟨tr, st, hr, hc⟩ := exists_complete hwf (Run.nil (R := PipelineStep) (s := .start t cmds))
    rw [List.nil_append] at hr
    obtain ⟨e, he, cmd, hcmd, rfl⟩ := ((pipelineInv hwf hr).executed hc).2 2 (by omega)
    obtain ⟨tr', st', hr', hpid, hrun, hfds⟩ := exists_running hwf hr he
    obtain ⟨fd, hfd⟩ := commandTable_leak hstd (show 0 < 2 by omega)
    have hp := hall tr' st' hr' _ _ hpid hrun 0 fd (by rw [hfds]; exact hfd)
    have := commandPid_injective (show 2 < cmds.length by omega) (show 0 + 1 < cmds.length by omega) hp
    omega
  · intro hlen tr st hr pid cmd hpid hrun i fd hf
    have hI := pipelineInv hwf hr
    have h0 : pid ≠ 0 := by
      rintro rfl
      rw [hI.caller] at hrun
      cases hrun
    rcases hI.done h0 hpid (by rw [hrun]; rfl) with ⟨j, cmd', hcmd, hp, _, hfds⟩ | ⟨hexit, _⟩
    · rw [hfds] at hf
      have hij := commandTable_read hstd hf
      obtain ⟨hj, _⟩ := List.getElem?_eq_some_iff.mp hcmd
      obtain rfl : j = i + 1 := by omega
      exact hp
    · rw [hrun] at hexit
      cases hexit

/-- The third command is executed with the read end of the first pipe. -/
theorem readers_leak : ¬∀ (t : FdTable Nat) (cmds : List CommandLine), Std t → WellFormed cmds →
    ∀ tr st, Run PipelineStep (.start t cmds) tr st → NoLeak cmds st := by
  intro hall
  obtain ⟨tr, st, he, hnum, hrun, hfd⟩ : ∃ tr st,
      execute ((List.replicate 9 1).map fun pid => (pid, ⟨true, none⟩))
        (System.start stdTable [⟨["cat"], true, none⟩, ⟨["tr"], true, none⟩, ⟨["sed"], false, none⟩]) = some (tr, st) ∧
      1 < st.num ∧ (st.procs 1).pc = .running ⟨["sed"], false, none⟩ ∧
        (st.procs 1).fds.file 3 = some (.pipeRead 0) := ⟨_, _, rfl, by decide, rfl, rfl⟩
  have hp := hall stdTable _ (by unfold Std; decide) ⟨by decide, by decide⟩ tr st (run_of_pids (by decide) he) 1 _ hnum
    hrun 0 3 hfd
  exact absurd hp (by decide)

/-- Two commands. -/
theorem no_leaked_readers_two : ∃ (cmds : List CommandLine) (tr : List (Event Nat)) (st : System Nat),
    Run PipelineStep (.start stdTable cmds) tr st ∧ (execs tr).length = 2 ∧ NoLeak cmds st := by
  let cmds : List CommandLine := [⟨["ls"], true, none⟩, ⟨["wc"], false, none⟩]
  let pids : List Nat := [1, 1, 1, 1, 2, 2, 2, 1]
  obtain ⟨tr, st, he, hlen⟩ : ∃ tr st, execute (pids.map fun pid => (pid, ⟨true, none⟩)) (System.start stdTable cmds) =
      some (tr, st) ∧ (execs tr).length = 2 := ⟨_, _, rfl, rfl⟩
  have hr : Run PipelineStep (.start stdTable cmds) tr st := run_of_pids (by decide) he
  exact ⟨cmds, tr, st, hr, hlen,
    (no_leaked_readers (by unfold Std; decide) ⟨by decide, by decide⟩).mpr (by decide) tr st hr⟩

end Cs326.Pipeline
