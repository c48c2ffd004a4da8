import Cs326.Shell.Flow

/-!
# A pipeline never blocks

The commands have the read ends of all the pipes before them, so a command that writes on is not killed when the next
one has exited, but waits for room that nobody makes. It is killed when all the commands behind it have exited, and they
do not wait for it: where the calls succeed, and as long as not all have exited, some process can go on
(`pipeline_never_blocks`).
-/

namespace Cs326.Pipeline

open Dataflow

variable {α β : Type*} {t : FdTable α} {cmds : List CommandLine} {prog : CommandLine → Program β}
  {cap : Nat} {s : Flow α β} {pid i : Nat} {env : Env} {cmd : CommandLine} {stdin : List β}

/-- A process that has a system call left makes it. -/
theorem call_isSome (hpid : pid < s.sys.num) (hleft : (s.sys.procs pid).pc.left ≠ 0) :
    (s.call pid env).isSome = true := by
  have hstep : ((s.sys.procs pid).step env s.sys.pipes s.sys.num s.sys.exited).isSome = true := step_isSome hleft
  unfold Flow.call Pipeline.step
  rw [if_pos hpid]
  simpa using hstep

/-- Once every process has executed its command, all of them have been forked. -/
theorem PipelineInv.all_forked {tr : List (Event α)} {st : System α} (h : PipelineInv t cmds tr st)
    (hdone : ∀ pid, pid ≠ 0 → pid < st.num → (st.procs pid).pc.done = true) (_ : i < cmds.length) :
    commandPid cmds i < st.num := by
  obtain ⟨w, hw, hwalker⟩ := h.walker
  have hd := hdone 1 Nat.one_ne_zero (by omega)
  have hlast : w + 1 = cmds.length := by
    generalize st.procs 1 = p, st.pipes = k at hwalker hd
    cases hwalker with
    | running hb | exited hb => exact hb
    | execute_pipeline | fork | parentDup2 | parentClose | redirect | execLast => cases hd
  unfold commandPid
  split <;> omega

theorem exists_last {n : Nat} {P : Nat → Prop} (h : ∃ i < n, P i) : ∃ i < n, P i ∧ ∀ j < n, i < j → ¬P j := by
  induction n with
  | zero =>
    obtain ⟨i, hi, -⟩ := h
    exact absurd hi (Nat.not_lt_zero i)
  | succ n ih =>
    by_cases hn : P n
    · exact ⟨n, Nat.lt_succ_self n, hn, fun j hj hnj => by omega⟩
    · obtain ⟨i, hi, hP⟩ := h
      have hne : i ≠ n := fun e => hn (e ▸ hP)
      obtain ⟨k, hk, hPk, hbehind⟩ := ih ⟨i, by omega, hP⟩
      refine ⟨k, by omega, hPk, fun j hj hkj => ?_⟩
      by_cases hjn : j = n
      · exact hjn ▸ hn
      · exact hbehind j (by omega) hkj

variable [DecidableEq α]

/-- Some process of the pipeline can take a step, whatever its call returns. -/
def CanGoOn (prog : CommandLine → Program β) (cap : Nat) (s : Flow α β) : Prop :=
  ∃ pid, ∀ env, (s.step pid env prog cap).isSome = true

/-- Where a command does not wait for room in its pipe, it goes on or waits for the one before. -/
theorem step_isSome_or (env : Env) (prog : CommandLine → Program β) (cap : Nat) (h0 : pid ≠ 0) (hpid : pid < s.sys.num)
    (hpc : (s.sys.procs pid).pc = .running cmd)
    (hroom : ∀ j, (s.sys.procs pid).fds.file 1 = some (.pipeWrite j) → s.sys.hasOpen (.pipeRead j) = true →
      (s.pipes j).length < cap) : (s.step pid env prog cap).isSome = true ∨
        ∃ j, (s.sys.procs pid).fds.file 0 = some (.pipeRead j) ∧ s.pipes j = [] ∧
          s.sys.hasOpen (.pipeWrite j) = true := by
  have hcall : (s.call pid env).isSome = true := call_isSome hpid (by rw [hpc]; exact Nat.one_ne_zero)
  have hguard : ¬(pid = 0 ∨ s.sys.num ≤ pid) := by omega
  unfold Flow.step
  rw [if_neg hguard, hpc]
  dsimp only
  cases prog cmd (s.logs pid) with
  | exit => exact .inl hcall
  | put b =>
    refine .inl ?_
    dsimp only
    split
    · rename_i j hfile
      split
      · rename_i hopen
        rw [if_pos (hroom j hfile hopen)]
        rfl
      · exact hcall
    · rfl
  | read =>
    dsimp only
    split
    · rename_i j hfile
      split
      · exact .inl rfl
      · rename_i hpipe
        cases hopen : s.sys.hasOpen (.pipeWrite j) with
        | true => exact .inr ⟨j, hfile, hpipe, hopen⟩
        | false => exact .inl rfl
    · split
      · exact .inl rfl
      · exact .inl rfl

/-- A process that is still to execute its command can go on. -/
theorem canGoOn_of_not_done {tr : List (Event α)} (h : PipelineInv t cmds tr s.sys) (h0 : pid ≠ 0)
    (hpid : pid < s.sys.num) (hdone : (s.sys.procs pid).pc.done = false) : CanGoOn prog cap s := by
  have hleft : (s.sys.procs pid).pc.left ≠ 0 := by
    refine (h.cases_left h0 hpid).resolve_left fun hexit => ?_
    rw [hexit] at hdone
    cases hdone
  have hguard : ¬(pid = 0 ∨ s.sys.num ≤ pid) := by omega
  refine ⟨pid, fun env => ?_⟩
  unfold Flow.step
  rw [if_neg hguard]
  split
  · rename_i cmd hpc
    rw [hpc] at hdone
    cases hdone
  · exact call_isSome hpid hleft

/-- **A command that does not wait for room** is enough for some process to go on: itself, or one that it waits for. -/
theorem FlowInv.canGoOn (h : FlowInv prog t cmds stdin s) (hstd : Std t) (hcap : 0 < cap)
    (hdone : ∀ pid, pid ≠ 0 → pid < s.sys.num → (s.sys.procs pid).pc.done = true) (hi : i < cmds.length)
    (hlt : commandPid cmds i < s.sys.num) (hpc : (s.sys.procs (commandPid cmds i)).pc = .running cmd)
    (hroom : i + 1 < cmds.length → s.sys.hasOpen (.pipeRead i) = true → (s.pipes i).length < cap) :
    CanGoOn prog cap s := by
  obtain ⟨tr, hpipe⟩ := h.pipeline
  have h0 : ∀ k, commandPid cmds k ≠ 0 := by
    intro k
    unfold commandPid
    split <;> omega
  have hconnected : ∀ {k cmd}, k < cmds.length → commandPid cmds k < s.sys.num →
      (s.sys.procs (commandPid cmds k)).pc = .running cmd →
      Connected t cmds k cmd (s.sys.procs (commandPid cmds k)).fds := by
    intro k cmd hk hlt hpc
    obtain ⟨k', -, hk', hp, hfds⟩ := hpipe.running (h0 k) hlt hpc
    obtain rfl := commandPid_injective hk hk' hp
    exact hfds ▸ commandTable_connected hstd
  induction i generalizing cmd with
  | zero =>
    have hconn := hconnected hi hlt hpc
    refine ⟨_, fun env => (step_isSome_or env prog cap (h0 0) hlt hpc fun j hfile hopen => ?_).resolve_right ?_⟩
    · rw [hconn.stdout, stdoutOf_pipeWrite] at hfile
      obtain ⟨rfl, hnext⟩ := hfile
      exact hroom hnext hopen
    · rintro ⟨j, hfile, -⟩
      rw [hconn.stdin, stdinOf_pipeRead] at hfile
      cases hfile
  | succ i ih =>
    have hconn := hconnected hi hlt hpc
    by_cases hwait : ∃ j, (s.sys.procs (commandPid cmds (i + 1))).fds.file 0 = some (.pipeRead j) ∧ s.pipes j = [] ∧
        s.sys.hasOpen (.pipeWrite j) = true
    · obtain ⟨j, hfile, hempty, hopen⟩ := hwait
      rw [hconn.stdin, stdinOf_pipeRead] at hfile
      obtain rfl : i = j := by omega
      -- the write end is open in the command before, whose pipe is empty
      obtain ⟨q, hq, fd, hfd⟩ := hasOpen_iff.mp hopen
      have hq0 : q ≠ 0 := by
        rintro rfl
        rw [hpipe.caller] at hfd
        simp at hfd
      rcases hpipe.done hq0 hq (hdone q hq0 hq) with ⟨k, cmd', hcmd, rfl, hpc', hfds⟩ | ⟨-, hfds⟩
      · rw [hfds] at hfd
        obtain ⟨rfl, hk⟩ := commandTable_write hstd hfd
        refine ih (Nat.lt_of_succ_lt hk) hq hpc' fun _ _ => ?_
        rw [hempty]
        exact hcap
      · rw [hfds] at hfd
        cases hfd
    · refine ⟨commandPid cmds (i + 1), fun env => Or.resolve_right ?_ hwait⟩
      refine step_isSome_or env prog cap (h0 (i + 1)) hlt hpc fun j hfile hopen => ?_
      rw [hconn.stdout, stdoutOf_pipeWrite] at hfile
      obtain ⟨rfl, hnext⟩ := hfile
      exact hroom hnext hopen

/-- **Where the invariant holds**, all commands have been executed and have exited, or some process can go on. -/
theorem FlowInv.goesOn (h : FlowInv prog t cmds stdin s) (hstd : Std t) (hcap : 0 < cap) :
    (∀ i < cmds.length, HasExited cmds s.sys i) ∨ CanGoOn prog cap s := by
  obtain ⟨tr, hpipe⟩ := h.pipeline
  by_cases hdone : ∀ pid, pid ≠ 0 → pid < s.sys.num → (s.sys.procs pid).pc.done = true
  · -- the last command that has not exited does not wait for room
    by_cases hall : ∀ i < cmds.length, HasExited cmds s.sys i
    · exact .inl hall
    · push Not at hall
      obtain ⟨k, hk, hnot, hbehind⟩ := exists_last hall
      have hlt := hpipe.all_forked hdone hk
      have h0 : commandPid cmds k ≠ 0 := by
        unfold commandPid
        split <;> omega
      rcases hpipe.done h0 hlt (hdone _ h0 hlt) with ⟨_, cmd, -, -, hpc, -⟩ | ⟨hexit, -⟩
      · refine .inr (h.canGoOn hstd hcap hdone hk hlt hpc fun _ hopen => ?_)
        obtain ⟨q, hq, fd, hfd⟩ := hasOpen_iff.mp hopen
        have hq0 : q ≠ 0 := by
          rintro rfl
          rw [hpipe.caller] at hfd
          simp at hfd
        rcases hpipe.done hq0 hq (hdone q hq0 hq) with ⟨j, cmd', hcmd, rfl, hpc', hfds⟩ | ⟨-, hfds⟩
        · rw [hfds] at hfd
          have hexit := not_not.mp (hbehind j (List.getElem?_eq_some_iff.mp hcmd).1 (commandTable_read hstd hfd))
          rw [hexit.2] at hpc'
          cases hpc'
        · rw [hfds] at hfd
          cases hfd
      · exact absurd ⟨hlt, hexit⟩ hnot
  · push Not at hdone
    obtain ⟨pid, h0, hpid, hnot⟩ := hdone
    exact .inr (canGoOn_of_not_done hpipe h0 hpid (Bool.eq_false_iff.mpr hnot))

/-- **A pipeline never blocks**: in every state of every run whose calls succeed, all commands have been executed and
have exited, or some process can go on. -/
theorem pipeline_never_blocks {calls : List (Nat × Env)} (hstd : Std t) (hwf : WellFormed cmds) (hcap : 0 < cap)
    (h : Run (FlowStep prog cap) (.start t cmds stdin) calls s) (hok : Succeed calls) :
    (∀ i < cmds.length, HasExited cmds s.sys i) ∨ CanGoOn prog cap s :=
  (flowInv hstd hwf h hok).goesOn hstd hcap

/-- A command that writes on when the next one has exited, and a third one that still has its pipe. -/
theorem pipeline_never_blocks_leak : ∃ (cmds : List CommandLine) (prog : CommandLine → Program Nat) (s : Flow Nat Nat),
    cmds.length = 3 ∧ HasExited cmds s.sys 1 ∧ s.sys.hasOpen (.pipeRead 0) = true ∧
      s.step 2 ⟨true, none⟩ prog 1 = none ∧ CanGoOn prog 1 s := by
  let cmds : List CommandLine := [⟨["yes", "y"], true, none⟩, ⟨["true"], true, none⟩, ⟨["cat"], false, none⟩]
  let prog : CommandLine → Program Nat := fun cmd log =>
    if cmd.tokens.length = 2 then .put 7 else if cmd.stdout_pipe then .exit
    else if log.length = 0 then .read else .exit
  let check : Flow Nat Nat → Bool := fun s => decide (3 < s.sys.num) && s.sys.exited 3 &&
    s.sys.hasOpen (.pipeRead 0) && (s.step 2 ⟨true, none⟩ prog 1).isNone &&
    decide ((s.sys.procs 1).pc = .running ⟨["cat"], false, none⟩)
  have hcheck : ((Flow.execute prog 1 (inOrder [1, 1, 1, 1, 1, 1, 1, 1, 1, 2, 2, 2, 2, 3, 3, 3, 3])
      (.start stdTable cmds [])).any check) = true := by decide +kernel
  obtain ⟨s, hs, hs'⟩ := (Option.any_eq_true _ _).mp hcheck
  simp only [check, Bool.and_eq_true, decide_eq_true_eq, Option.isNone_iff_eq_none] at hs'
  obtain ⟨⟨⟨⟨hlt, hexited⟩, hopen⟩, hwaits⟩, hrun⟩ := hs'
  have hexit : HasExited cmds s.sys 1 := ⟨hlt, of_decide_eq_true hexited⟩
  refine ⟨cmds, prog, s, rfl, hexit, hopen, hwaits, ?_⟩
  have hnever := pipeline_never_blocks (by unfold Std; decide) ⟨by decide, by decide⟩ Nat.one_pos (run_of_flow hs)
    (succeed_inOrder _)
  refine hnever.resolve_left fun hall => ?_
  have hexit' := (hall 2 (by decide)).2
  rw [show commandPid cmds 2 = 1 from rfl, hrun] at hexit'
  cases hexit'

end Cs326.Pipeline
