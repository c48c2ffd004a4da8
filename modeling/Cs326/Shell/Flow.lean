import Cs326.Lib.Dataflow
import Cs326.Shell.Connections

/-!
# What flows through a pipeline

The programs that `execute_pipeline` executes, as they read their standard input and write their standard output, in any
interleaving with each other and with the calls that are still to connect them. A `read` of an empty pipe ends when no
process has its write end any more, a `write` waits for room, and where no process has the read end the writer is
killed. The programs are deterministic and use no other descriptors; what they do is a parameter. The standard input of
the shell ends: it is a list.

The calls of `execute_pipeline` succeed or fail, as the run says. Where all of them succeed (`Succeed`), each pipe has
one writer and, with data, one reader, so the programs are a network in the sense of `Dataflow` (`FlowInv`). What the
commands write does not depend on the interleaving nor on the room in the pipes (`pipeline_output_determined`). A call
that fails leaves a copy of the shell that keeps the ends of the pipes, as in `nosuch | wc`; nothing is said of such
runs.
-/

namespace Cs326.Pipeline

open Dataflow

variable {α β : Type*} {t : FdTable α} {cmds : List CommandLine} {i j : Nat} {cmd : CommandLine}

/-! ## Who has the ends of a pipe -/

section

variable {p : Proc α} {w k fd : Nat} {f : File α}

/-- `pipe` and `dup2` leave what is open. -/
theorem piped_keeps {fds : FdTable (File α)} (h : fds.file fd = some f) : (piped fds i).file fd = some f := by
  have hw : fd ≠ writeFd fds i := by
    rintro rfl
    rw [writeFd_free] at h
    cases h
  have hl : fd ≠ fds.lowest := by
    rintro rfl
    rw [FdTable.lowest_free] at h
    cases h
  rw [piped_file, if_neg hw, if_neg hl, h]

/-- The new read end. -/
theorem piped_read (fds : FdTable (File α)) (i : Nat) : (piped fds i).file fds.lowest = some (.pipeRead i) := by
  rw [piped_file, if_neg (writeFd_ne_lowest fds i).symm, if_pos rfl]

/-- The new write end. -/
theorem piped_write (fds : FdTable (File α)) (i : Nat) :
    (piped fds i).file (writeFd fds i) = some (.pipeWrite i) := by rw [piped_file, if_pos rfl]

/-- The process that walks down `cmds` has the read ends of the pipes before it, until it exits. -/
theorem Walker.has_read (h : Walker t cmds w k p) (hstd : Std t) (hj : j < w) :
    p.pc = .exited ∨ ∃ fd, p.fds.file fd = some (.pipeRead j) := by
  have hparent : ∀ {b}, j < b → ∃ fd, 3 ≤ fd ∧ (parentTable t b).file fd = some (.pipeRead j) :=
    fun hb => (parentFiles hstd _).read j hb
  have hlast : ∀ {b cmd}, b + 1 = cmds.length → j < b →
      ∃ fd, (lastTable t b cmd).file fd = some (.pipeRead j) := by
    intro b cmd hb hj
    obtain ⟨fd, hfd⟩ : ∃ fd, (commandTable t cmds b cmd).file fd = some (.pipeRead j) := commandTable_leak hstd hj
    rw [commandTable, if_neg (by omega)] at hfd
    exact ⟨fd, hfd⟩
  cases h with
  | execute_pipeline =>
    obtain ⟨fd, -, hfd⟩ := hparent hj
    exact .inr ⟨fd, hfd⟩
  | fork =>
    obtain ⟨fd, -, hfd⟩ := hparent hj
    exact .inr ⟨fd, piped_keeps hfd⟩
  | @parentDup2 b hb =>
    refine .inr ?_
    rcases Nat.lt_or_eq_of_le (Nat.le_of_lt_succ hj) with hlt | rfl
    · obtain ⟨fd, -, hfd⟩ := hparent hlt
      exact ⟨fd, piped_keeps hfd⟩
    · exact ⟨_, piped_read _ _⟩
  | @parentClose b hb =>
    refine .inr ?_
    rcases Nat.lt_or_eq_of_le (Nat.le_of_lt_succ hj) with hlt | rfl
    · obtain ⟨fd, hge, hfd⟩ := hparent hlt
      refine ⟨fd, ?_⟩
      dsimp only
      rw [FdTable.dup2_file (piped_read _ _), if_neg (by omega), piped_keeps hfd]
    · exact ⟨0, by rw [FdTable.dup2_file (piped_read _ _), if_pos rfl]⟩
  | redirect hb hcmd hf =>
    obtain ⟨fd, -, hfd⟩ := hparent hj
    refine .inr ⟨fd, ?_⟩
    dsimp only
    rw [FdTable.alloc_file, if_neg, hfd]
    rintro rfl
    rw [FdTable.lowest_free] at hfd
    cases hfd
  | execLast hb | running hb => exact .inr (hlast hb hj)
  | exited => exact .inl rfl

/-- The process forked for command `i` has the read ends of the pipes before it and the write end of its own, until it
exits. -/
theorem Child.has_ends (h : Child t i cmd p) (hstd : Std t) : p.pc = .exited ∨
    (∀ j < i, ∃ fd, p.fds.file fd = some (.pipeRead j)) ∧ ∃ fd, p.fds.file fd = some (.pipeWrite i) := by
  have hp := parentFiles hstd i
  have htable : (∀ j < i, ∃ fd, (childTable t i).file fd = some (.pipeRead j)) ∧
      ∃ fd, (childTable t i).file fd = some (.pipeWrite i) := by
    have h1 := hp.std 1 (by omega)
    refine ⟨fun j hj => ?_, 1, by rw [childTable_file h1, if_pos (.inl rfl)]⟩
    obtain ⟨fd, hge, hfd⟩ := hp.read j hj
    have hw : fd ≠ writeFd (parentTable t i) i := by
      rintro rfl
      rw [writeFd_free] at hfd
      cases hfd
    exact ⟨fd, by rw [childTable_file h1, if_neg (by omega), hfd]⟩
  cases h with
  | childDup2 =>
    refine .inr ⟨fun j hj => ?_, _, piped_write _ _⟩
    obtain ⟨fd, -, hfd⟩ := hp.read j hj
    exact ⟨fd, piped_keeps hfd⟩
  | childClose =>
    refine .inr ⟨fun j hj => ?_, 1, by rw [FdTable.dup2_file (piped_write _ _), if_pos rfl]⟩
    obtain ⟨fd, hge, hfd⟩ := hp.read j hj
    refine ⟨fd, ?_⟩
    dsimp only
    rw [FdTable.dup2_file (piped_write _ _), if_neg (by omega), piped_keeps hfd]
  | childExec | running => exact .inr htable
  | exited => exact .inl rfl

end

/-! ## The model -/

/-- Some process has the file open. -/
def System.hasOpen [DecidableEq α] (st : System α) (f : File α) : Bool :=
  (List.range st.num).any fun pid => (List.range (st.procs pid).fds.bound).any fun fd =>
    (st.procs pid).fds.file fd = some f

structure Flow (α β : Type*) where
  sys : System α
  /-- What each process has read and written as a command. -/
  logs : Nat → List (Op β)
  /-- What is in the pipes. -/
  pipes : Nat → List β
  /-- What is left of the standard input of the shell. -/
  input : List β

/-- No command has been executed. -/
def Flow.start (t : FdTable α) (cmds : List CommandLine) (input : List β) : Flow α β :=
  ⟨.start t cmds, fun _ => [], fun _ => [], input⟩

namespace Flow

variable (s : Flow α β) (pid : Nat)

def log (o : Op β) : Flow α β := { s with logs := Function.update s.logs pid (s.logs pid ++ [o]) }

def setPipe (j : Nat) (bs : List β) : Flow α β := { s with pipes := Function.update s.pipes j bs }

/-- A system call that the shell makes in process `pid`, with the result `env`, or the end of a command. -/
def call (env : Env) : Option (Flow α β) := (Pipeline.step pid env s.sys).map fun r => { s with sys := r.1 }

/-- What process `pid` does next, where a call of the shell has the result `env`; `none`: it has to wait, or has
exited. -/
def step [DecidableEq α] (env : Env) (prog : CommandLine → Program β) (cap : Nat) : Option (Flow α β) :=
  if pid = 0 ∨ s.sys.num ≤ pid then none
  else
    match (s.sys.procs pid).pc with
    | .running cmd =>
      match prog cmd (s.logs pid) with
      | .read =>
        match (s.sys.procs pid).fds.file 0 with
        | some (.pipeRead j) =>
          match s.pipes j with
          | b :: rest => some ((s.log pid (.got (some b))).setPipe j rest)
          | [] => if s.sys.hasOpen (.pipeWrite j) then none else some (s.log pid (.got none))
        | _ =>
          match s.input with
          | b :: rest => some { s.log pid (.got (some b)) with input := rest }
          | [] => some (s.log pid (.got none))
      | .put b =>
        match (s.sys.procs pid).fds.file 1 with
        | some (.pipeWrite j) =>
          if s.sys.hasOpen (.pipeRead j) then
            if (s.pipes j).length < cap then some ((s.log pid (.put b)).setPipe j (s.pipes j ++ [b])) else none
          else s.call pid env
        | _ => some (s.log pid (.put b))
      | .exit => s.call pid env
    | _ => s.call pid env

end Flow

variable {prog : CommandLine → Program β} {cap : Nat} {s s' : Flow α β} {pid : Nat} {env : Env} {b : β}
  {st : System α}

theorem call_eq_some (h : s.call pid env = some s') : ∃ sys ev,
    Pipeline.step pid env s.sys = some (sys, ev) ∧ s' = { s with sys := sys } := by
  obtain ⟨⟨sys, ev⟩, hstep, rfl⟩ := Option.map_eq_some_iff.mp h
  exact ⟨sys, ev, hstep, rfl⟩

section

variable [DecidableEq α]

/-- A process of the pipeline takes a step. -/
def FlowStep (prog : CommandLine → Program β) (cap : Nat) (s : Flow α β) (calls : List (Nat × Env)) (s' : Flow α β) :
    Prop :=
  ∃ pid env, calls = [(pid, env)] ∧ s.step pid env prog cap = some s'

theorem hasOpen_iff {f : File α} : st.hasOpen f = true ↔ ∃ pid < st.num, ∃ fd, (st.procs pid).fds.file fd = some f := by
  unfold System.hasOpen
  simp only [List.any_eq_true, List.mem_range, decide_eq_true_eq]
  constructor
  · rintro ⟨pid, hpid, fd, -, hf⟩
    exact ⟨pid, hpid, fd, hf⟩
  · rintro ⟨pid, hpid, fd, hf⟩
    refine ⟨pid, hpid, fd, ?_, hf⟩
    by_contra hfd
    rw [(st.procs pid).fds.free fd (Nat.le_of_not_lt hfd)] at hf
    cases hf

/-- **What a step does**, one case for each call and result. -/
inductive Moves (prog : CommandLine → Program β) (s : Flow α β) (pid : Nat) (env : Env) : Flow α β → Prop
  /-- A call of `execute_pipeline`. -/
  | call {sys : System α} {ev : List (Event α)} : (∀ cmd, (s.sys.procs pid).pc ≠ .running cmd) →
      Pipeline.step pid env s.sys = some (sys, ev) → Moves prog s pid env { s with sys := sys }
  | exit {cmd : CommandLine} {sys : System α} {ev : List (Event α)} : (s.sys.procs pid).pc = .running cmd →
      prog cmd (s.logs pid) = .exit → Pipeline.step pid env s.sys = some (sys, ev) →
      Moves prog s pid env { s with sys := sys }
  /-- A `write` that nobody can read. -/
  | killed {cmd : CommandLine} {b : β} {j : Nat} {sys : System α} {ev : List (Event α)} :
      (s.sys.procs pid).pc = .running cmd → prog cmd (s.logs pid) = .put b →
      (s.sys.procs pid).fds.file 1 = some (.pipeWrite j) → s.sys.hasOpen (.pipeRead j) = false →
      Pipeline.step pid env s.sys = some (sys, ev) → Moves prog s pid env { s with sys := sys }
  | read {cmd : CommandLine} {b : β} {rest : List β} {j : Nat} : (s.sys.procs pid).pc = .running cmd →
      prog cmd (s.logs pid) = .read → (s.sys.procs pid).fds.file 0 = some (.pipeRead j) → s.pipes j = b :: rest →
      Moves prog s pid env ((s.log pid (.got (some b))).setPipe j rest)
  | readEnd {cmd : CommandLine} {j : Nat} : (s.sys.procs pid).pc = .running cmd → prog cmd (s.logs pid) = .read →
      (s.sys.procs pid).fds.file 0 = some (.pipeRead j) → s.pipes j = [] → s.sys.hasOpen (.pipeWrite j) = false →
      Moves prog s pid env (s.log pid (.got none))
  | input {cmd : CommandLine} {b : β} {rest : List β} : (s.sys.procs pid).pc = .running cmd →
      prog cmd (s.logs pid) = .read → (∀ j, (s.sys.procs pid).fds.file 0 ≠ some (.pipeRead j)) → s.input = b :: rest →
      Moves prog s pid env { s.log pid (.got (some b)) with input := rest }
  | inputEnd {cmd : CommandLine} : (s.sys.procs pid).pc = .running cmd → prog cmd (s.logs pid) = .read →
      (∀ j, (s.sys.procs pid).fds.file 0 ≠ some (.pipeRead j)) → s.input = [] →
      Moves prog s pid env (s.log pid (.got none))
  | write {cmd : CommandLine} {b : β} {j : Nat} : (s.sys.procs pid).pc = .running cmd →
      prog cmd (s.logs pid) = .put b → (s.sys.procs pid).fds.file 1 = some (.pipeWrite j) →
      Moves prog s pid env ((s.log pid (.put b)).setPipe j (s.pipes j ++ [b]))
  | output {cmd : CommandLine} {b : β} : (s.sys.procs pid).pc = .running cmd → prog cmd (s.logs pid) = .put b →
      (∀ j, (s.sys.procs pid).fds.file 1 ≠ some (.pipeWrite j)) → Moves prog s pid env (s.log pid (.put b))

theorem step_moves (h : s.step pid env prog cap = some s') :
    pid ≠ 0 ∧ pid < s.sys.num ∧ Moves prog s pid env s' := by
  unfold Flow.step at h
  split at h
  · cases h
  · rename_i h0
    rw [not_or, Nat.not_le] at h0
    refine ⟨h0.1, h0.2, ?_⟩
    split at h
    · rename_i cmd hpc
      split at h
      · rename_i hread
        split at h
        · rename_i j hfile
          split at h
          · rename_i b rest hpipe
            cases h
            exact .read hpc hread hfile hpipe
          · rename_i hpipe
            split at h
            · cases h
            · rename_i hopen
              cases h
              exact .readEnd hpc hread hfile hpipe (Bool.eq_false_iff.mpr hopen)
        · rename_i hfile
          split at h
          · rename_i b rest hinput
            cases h
            exact .input hpc hread hfile hinput
          · rename_i hinput
            cases h
            exact .inputEnd hpc hread hfile hinput
      · rename_i b hput
        split at h
        · rename_i j hfile
          split at h
          · split at h
            · cases h
              exact .write hpc hput hfile
            · cases h
          · rename_i hopen
            obtain ⟨sys, ev, hstep, rfl⟩ := call_eq_some h
            exact .killed hpc hput hfile (Bool.eq_false_iff.mpr hopen) hstep
        · rename_i hfile
          cases h
          exact .output hpc hput hfile
      · rename_i hexit
        obtain ⟨sys, ev, hstep, rfl⟩ := call_eq_some h
        exact .exit hpc hexit hstep
    · rename_i hpc
      obtain ⟨sys, ev, hstep, rfl⟩ := call_eq_some h
      exact .call hpc hstep

end

/-! ## The network -/

/-- The command before. -/
def before : Nat → Option Nat
  | 0 => none
  | i + 1 => some i

/-- The program of command `i`. -/
def progOf (cmds : List CommandLine) (prog : CommandLine → Program β) (i : Nat) : Program β :=
  match cmds[i]? with
  | some cmd => prog cmd
  | none => fun _ => .exit

/-- What command `i` has done. -/
def logsOf (cmds : List CommandLine) (s : Flow α β) (i : Nat) : List (Op β) :=
  if i < cmds.length then s.logs (commandPid cmds i) else []

/-- Command `i` has been executed and has ended. -/
def HasExited (cmds : List CommandLine) (st : System α) (i : Nat) : Prop :=
  commandPid cmds i < st.num ∧ (st.procs (commandPid cmds i)).pc = .exited

/-- **The invariant** of a pipeline that runs. -/
structure FlowInv (prog : CommandLine → Program β) (t : FdTable α) (cmds : List CommandLine) (stdin : List β)
    (s : Flow α β) : Prop where
  pipeline : ∃ tr, PipelineInv t cmds tr s.sys
  consistent : Consistent (progOf cmds prog) before (fun _ => stdin) (logsOf cmds s)
  /-- What is written to a pipe and not read is in the pipe. -/
  fifo : ∀ i, i + 1 < cmds.length → puts (logsOf cmds s i) = gots (logsOf cmds s (i + 1)) ++ s.pipes i
  input : stdin = gots (logsOf cmds s 0) ++ s.input
  /-- Whoever has not ended of itself was killed when the next command had exited. -/
  ended : ∀ i < cmds.length, HasExited cmds s.sys i →
    progOf cmds prog i (logsOf cmds s i) = .exit ∨ i + 1 < cmds.length ∧ HasExited cmds s.sys (i + 1)

variable {stdin : List β}

theorem flowInv_start (hwf : WellFormed cmds) : FlowInv prog t cmds stdin (.start t cmds stdin) := by
  have hlogs : logsOf cmds (.start t cmds stdin : Flow α β) = fun _ => [] := by
    funext i
    exact ite_self _
  refine ⟨⟨[], pipelineInv_start hwf⟩, ?_, fun i _ => ?_, ?_, fun i hi hexit => ?_⟩
  · rw [hlogs]
    exact consistent_nil
  · rw [hlogs]
    rfl
  · rw [hlogs]
    rfl
  · obtain ⟨hlt, hpc⟩ := hexit
    have hlt : commandPid cmds i < 2 := hlt
    have h1 : commandPid cmds i = 1 := by
      unfold commandPid at hlt ⊢
      split at hlt
      · omega
      · rw [if_neg (by assumption)]
    rw [h1] at hpc
    cases hpc

/-- A process that runs a command. -/
theorem PipelineInv.running {tr : List (Event α)} (h : PipelineInv t cmds tr st) (h0 : pid ≠ 0) (hpid : pid < st.num)
    (hpc : (st.procs pid).pc = .running cmd) : ∃ i, cmds[i]? = some cmd ∧ i < cmds.length ∧ pid = commandPid cmds i ∧
      (st.procs pid).fds = commandTable t cmds i cmd := by
  rcases h.done h0 hpid (by rw [hpc]; rfl) with ⟨i, cmd', hcmd, hp, hpc', hfds⟩ | ⟨hexit, -⟩
  · obtain rfl : cmd = cmd' := Pc.running.inj (hpc.symm.trans hpc')
    exact ⟨i, hcmd, (List.getElem?_eq_some_iff.mp hcmd).1, hp, hfds⟩
  · rw [hpc] at hexit
    cases hexit

theorem logsOf_log (hi : i < cmds.length) (s : Flow α β) (o : Op β) :
    logsOf cmds (s.log (commandPid cmds i) o) = Function.update (logsOf cmds s) i (logsOf cmds s i ++ [o]) := by
  funext k
  unfold logsOf Flow.log
  dsimp only
  by_cases hki : k = i
  · subst hki
    rw [Function.update_self, if_pos hi, Function.update_self, if_pos hi]
  · rw [Function.update_of_ne hki]
    split_ifs with hk
    · rw [Function.update_of_ne]
      intro hp
      exact hki (commandPid_injective hk hi hp)
    · rfl

theorem progOf_eq (hcmd : cmds[i]? = some cmd) : progOf cmds prog i = prog cmd := by
  unfold progOf
  rw [hcmd]

/-- The process of a command has been forked when the next one runs. -/
theorem PipelineInv.before_lt {tr : List (Event α)} (h : PipelineInv t cmds tr st) (hi : i + 1 < cmds.length)
    (hlt : commandPid cmds (i + 1) < st.num) (hpc : (st.procs (commandPid cmds (i + 1))).pc = .running cmd) :
    commandPid cmds i < st.num := by
  obtain ⟨w, hw, hwalker⟩ := h.walker
  have hp : commandPid cmds i = i + 2 := if_pos hi
  by_cases hlast : i + 1 + 1 < cmds.length
  · have hp' : commandPid cmds (i + 1) = i + 1 + 2 := if_pos hlast
    omega
  · -- the last command is executed when all the others have been forked
    have hp' : commandPid cmds (i + 1) = 1 := if_neg hlast
    rw [hp'] at hpc
    generalize st.procs 1 = p, st.pipes = k at hwalker hpc
    cases hwalker with
    | running hb => omega
    | execute_pipeline | fork | parentDup2 | parentClose | redirect | execLast | exited => cases hpc

/-- **Where nobody has the write end** of a pipe that is read, the command in front of it has exited. -/
theorem PipelineInv.writer_exited {tr : List (Event α)} (h : PipelineInv t cmds tr st) (hstd : Std t)
    (hi : i + 1 < cmds.length) (hlt : commandPid cmds i < st.num)
    (hopen : ∀ pid < st.num, ∀ fd, (st.procs pid).fds.file fd ≠ some (.pipeWrite i)) : HasExited cmds st i := by
  have hp : commandPid cmds i = i + 2 := if_pos hi
  refine ⟨hlt, ?_⟩
  rw [hp] at hlt ⊢
  have hcmd : cmds[i]? = some cmds[i] := List.getElem?_eq_getElem (by omega)
  rcases (h.child i _ hlt hcmd).has_ends hstd with hexit | ⟨-, fd, hfd⟩
  · exact hexit
  · exact absurd hfd (hopen _ hlt fd)

/-- **Where nobody has the read end**, the command behind it has exited. -/
theorem PipelineInv.reader_exited {tr : List (Event α)} (h : PipelineInv t cmds tr st) (hstd : Std t)
    (hi : i + 1 < cmds.length) (hlt : commandPid cmds i < st.num)
    (hopen : ∀ pid < st.num, ∀ fd, (st.procs pid).fds.file fd ≠ some (.pipeRead i)) : HasExited cmds st (i + 1) := by
  have hp : commandPid cmds i = i + 2 := if_pos hi
  obtain ⟨w, hw, hwalker⟩ := h.walker
  have hpc : (st.procs 1).pc = .exited := by
    rcases hwalker.has_read hstd (show i < w by omega) with hexit | ⟨fd, hfd⟩
    · exact hexit
    · exact absurd hfd (hopen 1 (by omega) fd)
  have hlast : w + 1 = cmds.length := by
    generalize st.procs 1 = p, st.pipes = k at hwalker hpc
    cases hwalker with
    | exited hb => exact hb
    | execute_pipeline | fork | parentDup2 | parentClose | redirect | execLast | running => cases hpc
  by_cases hnext : i + 1 + 1 < cmds.length
  · have hp' : commandPid cmds (i + 1) = i + 1 + 2 := if_pos hnext
    have hlt' : i + 1 + 2 < st.num := by omega
    have hcmd : cmds[i + 1]? = some cmds[i + 1] := List.getElem?_eq_getElem hi
    refine ⟨hp'.symm ▸ hlt', ?_⟩
    rw [hp']
    rcases (h.child (i + 1) _ hlt' hcmd).has_ends hstd with hexit | ⟨hread, -⟩
    · exact hexit
    · obtain ⟨fd, hfd⟩ := hread i (Nat.lt_succ_self i)
      exact absurd hfd (hopen _ hlt' fd)
  · have hp' : commandPid cmds (i + 1) = 1 := if_neg hnext
    refine ⟨?_, ?_⟩
    · rw [hp']
      omega
    · rw [hp']
      exact hpc

/-! ## Steps -/

/-- A process that is forked has not exited. -/
theorem Calls.child_done {k num : Nat} {p c : Proc α} {r : Result α} (h : Calls k num p r) (hc : r.child = some c) :
    c.pc.done = false := by
  cases h <;> cases hc <;> rfl

/-- Who has exited stays so, and only the process that makes the call can join it. -/
theorem HasExited.of_step {env : Env} {st' : System α} {ev : List (Event α)}
    (hs : Pipeline.step pid env st = some (st', ev)) (h : HasExited cmds st' i) :
    HasExited cmds st i ∨ commandPid cmds i = pid := by
  obtain ⟨hpid, r, hr, rfl, -⟩ := step_eq_some.mp hs
  obtain ⟨hlt, hpc⟩ := h
  by_cases hp : commandPid cmds i = pid
  · exact .inr hp
  · rw [after_procs hpid, if_neg hp] at hpc
    by_cases hnum : commandPid cmds i = st.num
    · rw [if_pos hnum] at hpc
      cases hc : r.child with
      | none =>
        rw [after_num, if_pos hc] at hlt
        omega
      | some c =>
        rw [hc, Option.getD_some] at hpc
        have hdone := (step_calls hr).child_done hc
        rw [hpc] at hdone
        cases hdone
    · rw [if_neg hnum] at hpc
      refine .inl ⟨?_, hpc⟩
      rw [after_num] at hlt
      split at hlt <;> omega

theorem HasExited.step {env : Env} {st' : System α} {ev : List (Event α)}
    (hs : Pipeline.step pid env st = some (st', ev)) (h : HasExited cmds st i) : HasExited cmds st' i := by
  obtain ⟨hpid, r, hr, rfl, -⟩ := step_eq_some.mp hs
  obtain ⟨hlt, hpc⟩ := h
  have hp : commandPid cmds i ≠ pid := by
    rintro hp
    rw [hp] at hpc
    unfold Proc.step at hr
    rw [hpc] at hr
    cases hr
  refine ⟨?_, ?_⟩
  · rw [after_num]
    split <;> omega
  · rw [after_procs hpid, if_neg hp, if_neg (by omega), hpc]

/-- A system call leaves the network as it is. -/
theorem FlowInv.call {st' : System α} {ev : List (Event α)} (h : FlowInv prog t cmds stdin s) (hwf : WellFormed cmds)
    (h0 : pid ≠ 0) (hok : env.ok = true) (hs : Pipeline.step pid env s.sys = some (st', ev))
    (hexit : ∀ i < cmds.length, commandPid cmds i = pid → (st'.procs pid).pc = .exited →
      progOf cmds prog i (logsOf cmds s i) = .exit ∨ i + 1 < cmds.length ∧ HasExited cmds s.sys (i + 1)) :
    FlowInv prog t cmds stdin { s with sys := st' } := by
  obtain ⟨tr, hpipe⟩ := h.pipeline
  refine ⟨⟨_, hpipe.step hwf ⟨pid, _, h0, hok, hs⟩⟩, h.consistent, h.fifo, h.input, fun i hi hex => ?_⟩
  have hended : progOf cmds prog i (logsOf cmds s i) = .exit ∨ i + 1 < cmds.length ∧ HasExited cmds s.sys (i + 1) := by
    rcases hex.of_step hs with hold | hp
    · exact h.ended i hi hold
    · exact hexit i hi hp (hp ▸ hex.2)
  exact hended.imp_right fun hnext => ⟨hnext.1, hnext.2.step hs⟩

section

variable {L : Nat → List (Op β)} {o : Op β} {k : Nat}

theorem puts_update : puts (Function.update L i (L i ++ [o]) k) = puts (L k) ++ if k = i then puts [o] else [] := by
  by_cases hki : k = i
  · subst hki
    rw [Function.update_self, if_pos rfl, puts_append]
  · rw [Function.update_of_ne hki, if_neg hki, List.append_nil]

theorem gots_update : gots (Function.update L i (L i ++ [o]) k) = gots (L k) ++ if k = i then gots [o] else [] := by
  by_cases hki : k = i
  · subst hki
    rw [Function.update_self, if_pos rfl, gots_append]
  · rw [Function.update_of_ne hki, if_neg hki, List.append_nil]

end

/-- A command reads or writes. -/
theorem FlowInv.op {o : Op β} {pipes : Nat → List β} {input : List β} (h : FlowInv prog t cmds stdin s)
    (hi : i < cmds.length) (hpc : (s.sys.procs (commandPid cmds i)).pc = .running cmd)
    (he : Enabled (progOf cmds prog) before (fun _ => stdin) (logsOf cmds s) i o)
    (hfifo : ∀ k, k + 1 < cmds.length → (puts (logsOf cmds s k) ++ if k = i then puts [o] else []) =
      (gots (logsOf cmds s (k + 1)) ++ if k + 1 = i then gots [o] else []) ++ pipes k)
    (hinput : stdin = (gots (logsOf cmds s 0) ++ if 0 = i then gots [o] else []) ++ input) :
    FlowInv prog t cmds stdin { s.log (commandPid cmds i) o with pipes := pipes, input := input } := by
  have hlogs : logsOf cmds { s.log (commandPid cmds i) o with pipes := pipes, input := input } =
      Function.update (logsOf cmds s) i (logsOf cmds s i ++ [o]) := logsOf_log hi s o
  refine ⟨h.pipeline, ?_, fun k hk => ?_, ?_, fun k hk hex => ?_⟩
  · rw [hlogs]
    exact h.consistent.step he
  · rw [hlogs, puts_update, gots_update]
    exact hfifo k hk
  · rw [hlogs, gots_update]
    exact hinput
  · have hki : k ≠ i := by
      rintro rfl
      have hexit := hex.2
      rw [show ({ s.log (commandPid cmds k) o with pipes := pipes, input := input } : Flow α β).sys = s.sys from rfl,
        hpc] at hexit
      cases hexit
    rw [hlogs, Function.update_of_ne hki]
    exact h.ended k hk hex

variable [DecidableEq α]

/-- **Every step keeps the invariant.** -/
theorem FlowInv.step (h : FlowInv prog t cmds stdin s) (hstd : Std t) (hwf : WellFormed cmds)
    (hok : env.ok = true) (hs : s.step pid env prog cap = some s') : FlowInv prog t cmds stdin s' := by
  obtain ⟨h0, hpid, hmoves⟩ := step_moves hs
  obtain ⟨tr, hpipe⟩ := h.pipeline
  -- the command of a process that runs one
  have hrunning : ∀ {cmd}, (s.sys.procs pid).pc = .running cmd → ∃ i, cmds[i]? = some cmd ∧ i < cmds.length ∧
      pid = commandPid cmds i ∧ Connected t cmds i cmd (s.sys.procs pid).fds ∧
      progOf cmds prog i (logsOf cmds s i) = prog cmd (s.logs pid) := by
    intro cmd hpc
    obtain ⟨i, hcmd, hi, rfl, hfds⟩ := hpipe.running h0 hpid hpc
    refine ⟨i, hcmd, hi, rfl, hfds ▸ commandTable_connected hstd, ?_⟩
    rw [progOf_eq hcmd, logsOf, if_pos hi]
  cases hmoves with
  | call hpc hcall =>
    refine h.call hwf h0 hok hcall fun i hi hp hexit => ?_
    obtain ⟨-, r, hr, rfl, -⟩ := step_eq_some.mp hcall
    rw [after_procs hpid, if_pos rfl] at hexit
    obtain ⟨i, -, -, hexec⟩ := hpipe.executes hwf h0 hpid hok hr
    cases hexec with
    | nothing _ hdone =>
      rw [hexit] at hdone
      cases hpc' : (s.sys.procs pid).pc with
      | running cmd => exact absurd hpc' (hpc cmd)
      | exited =>
        unfold Proc.step at hr
        rw [hpc'] at hr
        cases hr
      | _ =>
        rw [hpc'] at hdone
        cases hdone
    | command _ _ _ hafter =>
      rw [hexit] at hafter
      cases hafter
  | exit hpc hdoes hcall =>
    refine h.call hwf h0 hok hcall fun k hk hp _ => .inl ?_
    obtain ⟨i, -, hi, rfl, -, hprog⟩ := hrunning hpc
    obtain rfl := commandPid_injective hk hi hp
    rw [hprog, hdoes]
  | @killed cmd b j _ _ hpc hdoes hfile hopen hcall =>
    refine h.call hwf h0 hok hcall fun k hk hp _ => .inr ?_
    obtain ⟨i, -, hi, rfl, hconn, -⟩ := hrunning hpc
    obtain rfl := commandPid_injective hk hi hp
    rw [hconn.stdout, stdoutOf_pipeWrite] at hfile
    obtain ⟨rfl, hnext⟩ := hfile
    refine ⟨hnext, hpipe.reader_exited hstd hnext hpid fun q hq fd hfd => ?_⟩
    exact Bool.eq_false_iff.mp hopen (hasOpen_iff.mpr ⟨q, hq, fd, hfd⟩)
  | @read cmd b rest j hpc hdoes hfile hpipes =>
    obtain ⟨i, -, hi, rfl, hconn, hprog⟩ := hrunning hpc
    rw [hconn.stdin, stdinOf_pipeRead] at hfile
    subst hfile
    have hfifo := h.fifo j hi
    rw [hpipes] at hfifo
    refine h.op hi hpc ⟨hprog.trans hdoes, fun b' hb' => ?_, fun hnone => ?_⟩ (fun k hk => ?_) ?_
    · obtain rfl : b = b' := by simpa using hb'
      show (puts (logsOf cmds s j))[(gots (logsOf cmds s (j + 1))).length]? = some b
      rw [hfifo, List.getElem?_append_right (Nat.le_refl _), Nat.sub_self]
      rfl
    · cases hnone
    · rw [h.fifo k hk]
      by_cases hkj : k = j
      · subst hkj
        rw [if_neg (by omega), if_pos rfl, hpipes, Function.update_self]
        simp
      · have hpipe' : (Function.update s.pipes j rest) k = s.pipes k := Function.update_of_ne hkj _ _
        rw [show (Flow.log s (commandPid cmds (j + 1)) (Op.got (some b))).pipes = s.pipes from rfl, hpipe']
        by_cases hki : k = j + 1
        · rw [if_pos hki, if_neg (by omega)]
          simp
        · rw [if_neg hki, if_neg (by omega)]
          simp
    · rw [if_neg (by omega), List.append_nil]
      exact h.input
  | @readEnd cmd j hpc hdoes hfile hpipes hopen =>
    obtain ⟨i, -, hi, rfl, hconn, hprog⟩ := hrunning hpc
    rw [hconn.stdin, stdinOf_pipeRead] at hfile
    subst hfile
    have hexit : HasExited cmds s.sys j := by
      refine hpipe.writer_exited hstd hi (hpipe.before_lt hi hpid hpc) fun q hq fd hfd => ?_
      exact Bool.eq_false_iff.mp hopen (hasOpen_iff.mpr ⟨q, hq, fd, hfd⟩)
    -- it was not killed, because this command runs
    have hdone : progOf cmds prog j (logsOf cmds s j) = .exit := by
      refine (h.ended j (by omega) hexit).resolve_right fun hnext => ?_
      have hpc' := hnext.2.2
      rw [hpc] at hpc'
      cases hpc'
    refine h.op hi hpc ⟨hprog.trans hdoes, fun b hb => ?_, fun _ => ⟨fun k hk => ?_, ?_⟩⟩ (fun k hk => ?_) ?_
    · cases hb
    · obtain rfl : j = k := Option.some.inj hk
      exact hdone
    · show (puts (logsOf cmds s j)).length ≤ _
      rw [h.fifo j hi, hpipes, List.append_nil]
    · rw [h.fifo k hk]
      simp
    · rw [if_neg (by omega), List.append_nil]
      exact h.input
  | @input cmd b rest hpc hdoes hfile hinput =>
    obtain ⟨i, -, hi, rfl, hconn, hprog⟩ := hrunning hpc
    obtain rfl : i = 0 := by
      cases i with
      | zero => rfl
      | succ i => exact absurd (hconn.stdin.trans rfl) (hfile i)
    have hin := h.input
    rw [hinput] at hin
    refine h.op hi hpc ⟨hprog.trans hdoes, fun b' hb' => ?_, fun hnone => ?_⟩ (fun k hk => ?_) ?_
    · obtain rfl : b = b' := by simpa using hb'
      show stdin[(gots (logsOf cmds s 0)).length]? = some b
      rw [hin, List.getElem?_append_right (by simp)]
      simp
    · cases hnone
    · rw [h.fifo k hk]
      simp [Flow.log]
    · rw [if_pos rfl]
      simpa using hin
  | @inputEnd cmd hpc hdoes hfile hinput =>
    obtain ⟨i, -, hi, rfl, hconn, hprog⟩ := hrunning hpc
    obtain rfl : i = 0 := by
      cases i with
      | zero => rfl
      | succ i => exact absurd (hconn.stdin.trans rfl) (hfile i)
    have hin := h.input
    refine h.op hi hpc ⟨hprog.trans hdoes, fun b hb => ?_, fun _ => ⟨fun k hk => ?_, ?_⟩⟩ (fun k hk => ?_) ?_
    · cases hb
    · cases hk
    · show stdin.length ≤ _
      rw [hinput, List.append_nil] at hin
      rw [← hin]
    · rw [h.fifo k hk]
      simp
    · rw [if_pos rfl]
      simpa [Flow.log] using hin
  | @write cmd b j hpc hdoes hfile =>
    obtain ⟨i, -, hi, rfl, hconn, hprog⟩ := hrunning hpc
    rw [hconn.stdout, stdoutOf_pipeWrite] at hfile
    obtain ⟨rfl, hnext⟩ := hfile
    refine h.op hi hpc ⟨hprog.trans hdoes, fun b' hb' => ?_, fun hnone => ?_⟩ (fun k hk => ?_) ?_
    · cases hb'
    · cases hnone
    · rw [h.fifo k hk]
      by_cases hki : k = i
      · subst hki
        rw [if_pos rfl, if_neg (by omega), Function.update_self]
        simp
      · have hpipe' : (Function.update s.pipes i (s.pipes i ++ [b])) k = s.pipes k := Function.update_of_ne hki _ _
        rw [show (Flow.log s (commandPid cmds i) (Op.put b)).pipes = s.pipes from rfl, hpipe', if_neg hki]
        simp
    · have hin := h.input
      split
      · simpa [Flow.log] using hin
      · simpa [Flow.log] using hin
  | @output cmd b hpc hdoes hfile =>
    obtain ⟨i, -, hi, rfl, hconn, hprog⟩ := hrunning hpc
    have hlast : ∀ k, k + 1 < cmds.length → k ≠ i := by
      rintro k hk rfl
      exact hfile k (hconn.stdout.trans (stdoutOf_pipeWrite.mpr ⟨rfl, hk⟩))
    refine h.op hi hpc ⟨hprog.trans hdoes, fun b' hb' => ?_, fun hnone => ?_⟩ (fun k hk => ?_) ?_
    · cases hb'
    · cases hnone
    · rw [h.fifo k hk, if_neg (hlast k hk)]
      simp
    · have hin := h.input
      split
      · simpa [Flow.log] using hin
      · simpa [Flow.log] using hin

/-- Every system call of the run succeeds. -/
def Succeed (calls : List (Nat × Env)) : Prop := ∀ call ∈ calls, call.2.ok = true

theorem flowInv {calls : List (Nat × Env)} (hstd : Std t) (hwf : WellFormed cmds)
    (h : Run (FlowStep prog cap) (.start t cmds stdin) calls s) (hok : Succeed calls) :
    FlowInv prog t cmds stdin s := by
  refine h.invariant_of_prefix (I := fun _ s => FlowInv prog t cmds stdin s) (fun a b hab call hmem => ?_)
    (fun _ => flowInv_start hwf) ?_ hok
  · exact hab call (List.mem_append_left b hmem)
  · rintro tr s ev s' hinv ⟨pid, env, rfl, hs⟩ hsucceed
    exact hinv.step hstd hwf (hsucceed (pid, env) (by simp)) hs

theorem before_lt {i j : Nat} (h : before i = some j) : j < i := by
  cases i with
  | zero => cases h
  | succ i =>
    obtain rfl := Option.some.inj h
    exact Nat.lt_succ_self i

omit [DecidableEq α] in
/-- **Two states with the invariant**: the last command has written the same, if it has exited in both. -/
theorem FlowInv.output_eq {s s' : Flow α β} (h : FlowInv prog t cmds stdin s) (h' : FlowInv prog t cmds stdin s')
    (hwf : WellFormed cmds) (hexit : HasExited cmds s.sys (cmds.length - 1))
    (hexit' : HasExited cmds s'.sys (cmds.length - 1)) : s.logs 1 = s'.logs 1 := by
  have hn := hwf.1
  have hlast : cmds.length - 1 < cmds.length := by omega
  have hdone : ∀ {s : Flow α β}, FlowInv prog t cmds stdin s → HasExited cmds s.sys (cmds.length - 1) →
      progOf cmds prog (cmds.length - 1) (logsOf cmds s (cmds.length - 1)) = .exit :=
    fun hinv hexit => (hinv.ended _ hlast hexit).resolve_right fun hnext => by omega
  have heq := h.consistent.eq_of_ended h'.consistent id (fun _ _ => before_lt) (hdone h hexit) (hdone h' hexit')
  have hp : commandPid cmds (cmds.length - 1) = 1 := if_neg (by omega)
  unfold logsOf at heq
  rwa [if_pos hlast, if_pos hlast, hp] at heq

/-- The state behind the steps of some processes, where all of them go through. -/
def Flow.execute (prog : CommandLine → Program β) (cap : Nat) (calls : List (Nat × Env)) (s : Flow α β) :
    Option (Flow α β) :=
  (Run.execute (Run.labelled fun call s => s.step call.1 call.2 prog cap) calls s).map Prod.snd

theorem run_of_flow {calls : List (Nat × Env)} (h : s.execute prog cap calls = some s') :
    Run (FlowStep prog cap) s calls s' := by
  obtain ⟨⟨tr, t⟩, hrun, rfl⟩ := Option.map_eq_some_iff.mp h
  obtain rfl := Run.execute_labelled hrun
  refine Run.of_execute (fun call _ s s' ev hs => ?_) hrun
  obtain ⟨hstep, rfl⟩ := Run.labelled_eq_some.mp hs
  exact ⟨call.1, call.2, rfl, hstep⟩

/-- The processes take their steps in this order, and the calls succeed. -/
def inOrder (pids : List Nat) : List (Nat × Env) := pids.map fun pid => (pid, ⟨true, none⟩)

theorem succeed_inOrder (pids : List Nat) : Succeed (inOrder pids) := by
  intro call hmem
  obtain ⟨pid, -, rfl⟩ := List.mem_map.mp hmem
  rfl

end Cs326.Pipeline
