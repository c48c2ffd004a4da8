import Cs326.Lib.Descriptors
import Cs326.Lib.Run

/-!
# The processes of the shell

`execute_pipeline`, the fork in `exec` and the loop of `main` from `shell.c`, at the granularity of system calls: a step
is one system call of one process, in any interleaving, with the result that the environment gives it. Process `0` is
the shell that was started, the others are numbered in the order of the forks that made them. `execute_pipeline` is the
same function in `leetify.c`, but for the `fclose(stdin)` of its last command.

A process is where it stands in the program (`Pc`), its descriptors and whether its `stdin` has been `fclose`d. How a
line is split into tokens and commands is left to the reader of the line: `Line.run` carries the array `cmds` that
`exec` has built, of which the entries from the end of the list on are zero.
-/

namespace Cs326.Pipeline

/-- What a descriptor refers to. The pipes are numbered as they are made. -/
inductive File (α : Type*)
  /-- Open before the shell was started. -/
  | inherited (a : α)
  | opened (name : String)
  | pipeRead (i : Nat)
  | pipeWrite (i : Nat)
  deriving DecidableEq

/-- `struct command_line`. -/
structure CommandLine where
  tokens : List String
  stdout_pipe : Bool
  stdout_file : Option String
  deriving DecidableEq

/-- What `main` does with a line. -/
inductive Line
  /-- A blank line, a comment or a builtin: nothing is forked. -/
  | skip
  | exit
  | run (cmds : List CommandLine) (isBackground : Bool)
  deriving DecidableEq

/-- The system call that a process makes next. -/
inductive Pc
  /-- `main`, at `getline`. -/
  | main
  /-- `exec`, at `fork`. -/
  | exec (cmds : List CommandLine) (isBackground : Bool)
  /-- `exec`, at `waitpid`. -/
  | waitpid (pid : Nat)
  /-- `execute_pipeline(cmds)`, at its first system call. -/
  | execute_pipeline (cmds : List CommandLine)
  /-- Behind `open(stdout_file)`, at `dup2(fd, STDOUT_FILENO)`. -/
  | redirect (fd : Nat) (cmd : CommandLine)
  /-- At the `execvp` of the last command. -/
  | execLast (cmd : CommandLine)
  /-- Behind `pipe(p)`, at `fork`; `cmds` are the commands behind `cmd`. -/
  | fork (p₀ p₁ : Nat) (cmd : CommandLine) (cmds : List CommandLine)
  /-- The child, at `dup2(p[1], STDOUT_FILENO)`. -/
  | childDup2 (p₀ p₁ : Nat) (cmd : CommandLine)
  /-- The child, at `close(p[0])`. -/
  | childClose (p₀ : Nat) (cmd : CommandLine)
  /-- The child, at `execvp`. -/
  | childExec (cmd : CommandLine)
  /-- The parent, at `dup2(p[0], STDIN_FILENO)`. -/
  | parentDup2 (p₀ p₁ : Nat) (cmds : List CommandLine)
  /-- The parent, at `close(p[1])`. -/
  | parentClose (p₁ : Nat) (cmds : List CommandLine)
  /-- Another program executes. -/
  | running (cmd : CommandLine)
  | exited
  deriving DecidableEq

structure Proc (α : Type*) where
  fds : FdTable (File α)
  /-- `stdin` has not been `fclose`d. -/
  stdin : Bool
  pc : Pc

/-- The processes below `num` have been made. -/
structure System (α : Type*) where
  num : Nat
  procs : Nat → Proc α
  /-- How many pipes have been made. -/
  pipes : Nat

/-- What a system call returns: whether it succeeds, and for `getline` the line, `none` at the end of the file. -/
structure Env where
  ok : Bool
  line : Option Line

/-- The system calls as a trace shows them, `true` when they succeed. -/
inductive Act (α : Type*)
  | getline (line : Option Line)
  | forkJob (ok : Bool)
  | waitpid
  | openFile (ok : Bool)
  | dup2File (ok : Bool)
  | execLast (cmd : CommandLine) (fds : FdTable (File α)) (ok : Bool)
  | pipe (ok : Bool)
  | fork (ok : Bool)
  | childDup2 (ok : Bool)
  | childClose
  | childExec (cmd : CommandLine) (fds : FdTable (File α)) (ok : Bool)
  | parentDup2 (ok : Bool)
  | parentClose
  /-- The process ends: it returns from `main`, is killed, or the program it became ends. -/
  | exit

structure Event (α : Type*) where
  pid : Nat
  act : Act α

variable {α : Type*}

/-! ## The steps -/

/-- How a system call leaves the process, and what it forks. -/
structure Result (α : Type*) where
  proc : Proc α
  child : Option (Proc α)
  act : Act α

def Proc.exit (_ : Proc α) : Proc α := ⟨.empty, false, .exited⟩

/-- `dup2`, whose failure leaves the table as it is. -/
def dup2 (fds : FdTable (File α)) (old new : Nat) (ok : Bool) : FdTable (File α) :=
  if ok then fds.dup2 old new else fds

/-- One system call of a process. `pipe` is the number of the next pipe, `num` that of the next process. Where a failed
call makes `execute_pipeline` return, every level of its recursion and `exec` return with it, and `main` goes on. -/
def Proc.step (env : Env) (pipe num : Nat) (exited : Nat → Bool) (p : Proc α) : Option (Result α) :=
  match p.pc with
  | .main =>
    -- `getline` on a closed `stdin` fails
    let line := if p.stdin then env.line else none
    match line with
    | none => some ⟨p.exit, none, .getline line⟩
    | some .exit => some ⟨p.exit, none, .getline line⟩
    | some .skip => some ⟨p, none, .getline line⟩
    | some (.run cmds isBackground) => some ⟨{ p with pc := .exec cmds isBackground }, none, .getline line⟩
  | .exec cmds isBackground =>
    if env.ok then
      some ⟨{ p with pc := if isBackground then .main else .waitpid num },
        some { p with pc := .execute_pipeline cmds }, .forkJob true⟩
    else some ⟨{ p with pc := .main }, none, .forkJob false⟩
  | .waitpid pid => if exited pid then some ⟨{ p with pc := .main }, none, .waitpid⟩ else none
  -- `cmds->tokens[0]` of a zero entry
  | .execute_pipeline [] => some ⟨p.exit, none, .exit⟩
  | .execute_pipeline (cmd :: cmds) =>
    if cmd.stdout_pipe then
      if env.ok then
        let fds := p.fds.alloc (.pipeRead pipe)
        some ⟨{ p with fds := fds.alloc (.pipeWrite pipe), pc := .fork p.fds.lowest fds.lowest cmd cmds }, none,
          .pipe true⟩
      else some ⟨{ p with pc := .main }, none, .pipe false⟩
    else
      match cmd.stdout_file with
      | some file =>
        if env.ok then
          some ⟨{ p with fds := p.fds.alloc (.opened file), pc := .redirect p.fds.lowest cmd }, none, .openFile true⟩
        else some ⟨{ p with pc := .main }, none, .openFile false⟩
      | none => execLast cmd
  | .redirect fd cmd =>
    if env.ok then some ⟨{ p with fds := p.fds.dup2 fd 1, pc := .execLast cmd }, none, .dup2File true⟩
    else some ⟨{ p with fds := p.fds.close fd, pc := .main }, none, .dup2File false⟩
  | .execLast cmd => execLast cmd
  | .fork p₀ p₁ cmd cmds =>
    if env.ok then
      some ⟨{ p with pc := .parentDup2 p₀ p₁ cmds }, some { p with pc := .childDup2 p₀ p₁ cmd }, .fork true⟩
    else some ⟨{ p with pc := .main }, none, .fork false⟩
  | .childDup2 p₀ p₁ cmd =>
    some ⟨{ p with fds := dup2 p.fds p₁ 1 env.ok, pc := .childClose p₀ cmd }, none, .childDup2 env.ok⟩
  | .childClose p₀ cmd => some ⟨{ p with fds := p.fds.close p₀, pc := .childExec cmd }, none, .childClose⟩
  | .childExec cmd =>
    if env.ok then some ⟨{ p with pc := .running cmd }, none, .childExec cmd p.fds true⟩
    else some ⟨{ p with pc := .main }, none, .childExec cmd p.fds false⟩
  | .parentDup2 p₀ p₁ cmds =>
    some ⟨{ p with fds := dup2 p.fds p₀ 0 env.ok, pc := .parentClose p₁ cmds }, none, .parentDup2 env.ok⟩
  | .parentClose p₁ cmds =>
    some ⟨{ p with fds := p.fds.close p₁, pc := .execute_pipeline cmds }, none, .parentClose⟩
  | .running _ => some ⟨p.exit, none, .exit⟩
  | .exited => none
where
  execLast (cmd : CommandLine) : Option (Result α) :=
    if env.ok then some ⟨{ p with pc := .running cmd }, none, .execLast cmd p.fds true⟩
    else
      -- `fclose(stdin)`
      some ⟨{ p with fds := p.fds.close 0, stdin := false, pc := .main }, none, .execLast cmd p.fds false⟩

/-- **What a system call does**, one case for each call and result. -/
inductive Calls (pipe num : Nat) : Proc α → Result α → Prop
  | eof {fds stdin} : Calls pipe num ⟨fds, stdin, .main⟩ ⟨⟨.empty, false, .exited⟩, none, .getline none⟩
  | quit {fds} : Calls pipe num ⟨fds, true, .main⟩ ⟨⟨.empty, false, .exited⟩, none, .getline (some .exit)⟩
  | skip {fds} : Calls pipe num ⟨fds, true, .main⟩ ⟨⟨fds, true, .main⟩, none, .getline (some .skip)⟩
  | run {fds cmds bg} : Calls pipe num ⟨fds, true, .main⟩
      ⟨⟨fds, true, .exec cmds bg⟩, none, .getline (some (.run cmds bg))⟩
  | forkJob {fds stdin cmds bg} : Calls pipe num ⟨fds, stdin, .exec cmds bg⟩
      ⟨⟨fds, stdin, if bg then .main else .waitpid num⟩, some ⟨fds, stdin, .execute_pipeline cmds⟩, .forkJob true⟩
  | forkJob_fails {fds stdin cmds bg} : Calls pipe num ⟨fds, stdin, .exec cmds bg⟩
      ⟨⟨fds, stdin, .main⟩, none, .forkJob false⟩
  | waitpid {fds stdin pid} : Calls pipe num ⟨fds, stdin, .waitpid pid⟩ ⟨⟨fds, stdin, .main⟩, none, .waitpid⟩
  | fault {fds stdin} : Calls pipe num ⟨fds, stdin, .execute_pipeline []⟩ ⟨⟨.empty, false, .exited⟩, none, .exit⟩
  | pipe {fds stdin cmd cmds} : cmd.stdout_pipe = true → Calls pipe num ⟨fds, stdin, .execute_pipeline (cmd :: cmds)⟩
      ⟨⟨(fds.alloc (.pipeRead pipe)).alloc (.pipeWrite pipe), stdin,
        .fork fds.lowest (fds.alloc (.pipeRead pipe)).lowest cmd cmds⟩, none, .pipe true⟩
  | pipe_fails {fds stdin cmd cmds} : cmd.stdout_pipe = true →
      Calls pipe num ⟨fds, stdin, .execute_pipeline (cmd :: cmds)⟩ ⟨⟨fds, stdin, .main⟩, none, .pipe false⟩
  | openFile {fds stdin cmd cmds file} : cmd.stdout_pipe = false → cmd.stdout_file = some file →
      Calls pipe num ⟨fds, stdin, .execute_pipeline (cmd :: cmds)⟩
        ⟨⟨fds.alloc (.opened file), stdin, .redirect fds.lowest cmd⟩, none, .openFile true⟩
  | openFile_fails {fds stdin cmd cmds} : cmd.stdout_pipe = false →
      Calls pipe num ⟨fds, stdin, .execute_pipeline (cmd :: cmds)⟩ ⟨⟨fds, stdin, .main⟩, none, .openFile false⟩
  | dup2File {fds stdin fd cmd} : Calls pipe num ⟨fds, stdin, .redirect fd cmd⟩
      ⟨⟨fds.dup2 fd 1, stdin, .execLast cmd⟩, none, .dup2File true⟩
  | dup2File_fails {fds stdin fd cmd} : Calls pipe num ⟨fds, stdin, .redirect fd cmd⟩
      ⟨⟨fds.close fd, stdin, .main⟩, none, .dup2File false⟩
  | execLast {fds stdin pc cmd} : pc = .execLast cmd ∨ (∃ cmds, pc = .execute_pipeline (cmd :: cmds)) →
      Calls pipe num ⟨fds, stdin, pc⟩ ⟨⟨fds, stdin, .running cmd⟩, none, .execLast cmd fds true⟩
  | execLast_fails {fds stdin pc cmd} : pc = .execLast cmd ∨ (∃ cmds, pc = .execute_pipeline (cmd :: cmds)) →
      Calls pipe num ⟨fds, stdin, pc⟩ ⟨⟨fds.close 0, false, .main⟩, none, .execLast cmd fds false⟩
  | fork {fds stdin p₀ p₁ cmd cmds} : Calls pipe num ⟨fds, stdin, .fork p₀ p₁ cmd cmds⟩
      ⟨⟨fds, stdin, .parentDup2 p₀ p₁ cmds⟩, some ⟨fds, stdin, .childDup2 p₀ p₁ cmd⟩, .fork true⟩
  | fork_fails {fds stdin p₀ p₁ cmd cmds} : Calls pipe num ⟨fds, stdin, .fork p₀ p₁ cmd cmds⟩
      ⟨⟨fds, stdin, .main⟩, none, .fork false⟩
  | childDup2 {fds stdin p₀ p₁ cmd ok} : Calls pipe num ⟨fds, stdin, .childDup2 p₀ p₁ cmd⟩
      ⟨⟨dup2 fds p₁ 1 ok, stdin, .childClose p₀ cmd⟩, none, .childDup2 ok⟩
  | childClose {fds stdin p₀ cmd} : Calls pipe num ⟨fds, stdin, .childClose p₀ cmd⟩
      ⟨⟨fds.close p₀, stdin, .childExec cmd⟩, none, .childClose⟩
  | childExec {fds stdin cmd} : Calls pipe num ⟨fds, stdin, .childExec cmd⟩
      ⟨⟨fds, stdin, .running cmd⟩, none, .childExec cmd fds true⟩
  | childExec_fails {fds stdin cmd} : Calls pipe num ⟨fds, stdin, .childExec cmd⟩
      ⟨⟨fds, stdin, .main⟩, none, .childExec cmd fds false⟩
  | parentDup2 {fds stdin p₀ p₁ cmds ok} : Calls pipe num ⟨fds, stdin, .parentDup2 p₀ p₁ cmds⟩
      ⟨⟨dup2 fds p₀ 0 ok, stdin, .parentClose p₁ cmds⟩, none, .parentDup2 ok⟩
  | parentClose {fds stdin p₁ cmds} : Calls pipe num ⟨fds, stdin, .parentClose p₁ cmds⟩
      ⟨⟨fds.close p₁, stdin, .execute_pipeline cmds⟩, none, .parentClose⟩
  | exit {fds stdin cmd} : Calls pipe num ⟨fds, stdin, .running cmd⟩ ⟨⟨.empty, false, .exited⟩, none, .exit⟩

theorem step_calls {p : Proc α} {env : Env} {pipe num : Nat} {exited : Nat → Bool} {r : Result α}
    (h : p.step env pipe num exited = some r) : Calls pipe num p r := by
  obtain ⟨fds, stdin, pc⟩ := p
  have hlast : ∀ {cmd : CommandLine}, pc = .execLast cmd ∨ (∃ cmds, pc = .execute_pipeline (cmd :: cmds)) →
      Proc.step.execLast env ⟨fds, stdin, pc⟩ cmd = some r → Calls pipe num ⟨fds, stdin, pc⟩ r := by
    intro cmd hpc h
    unfold Proc.step.execLast at h
    split at h <;> obtain rfl := Option.some.inj h
    · exact .execLast hpc
    · exact .execLast_fails hpc
  cases pc with
  | main =>
    simp only [Proc.step] at h
    cases stdin with
    | false =>
      obtain rfl := Option.some.inj h
      exact .eof
    | true =>
      simp only [if_true] at h
      split at h <;> obtain rfl := Option.some.inj h
      · rename_i he
        rw [he]
        exact .eof
      · rename_i he
        rw [he]
        exact .quit
      · rename_i he
        rw [he]
        exact .skip
      · rename_i he
        rw [he]
        exact .run
  | exec cmds bg =>
    simp only [Proc.step] at h
    split at h <;> obtain rfl := Option.some.inj h
    · exact .forkJob
    · exact .forkJob_fails
  | waitpid pid =>
    simp only [Proc.step] at h
    split at h
    · obtain rfl := Option.some.inj h
      exact .waitpid
    · cases h
  | execute_pipeline cmds =>
    cases cmds with
    | nil =>
      obtain rfl := Option.some.inj h
      exact .fault
    | cons cmd cmds =>
      simp only [Proc.step] at h
      split at h
      · rename_i hp
        split at h <;> obtain rfl := Option.some.inj h
        · exact .pipe hp
        · exact .pipe_fails hp
      · rename_i hp
        have hp : cmd.stdout_pipe = false := by simpa using hp
        split at h
        · rename_i file hf
          split at h <;> obtain rfl := Option.some.inj h
          · exact .openFile hp hf
          · exact .openFile_fails hp
        · exact hlast (.inr ⟨cmds, rfl⟩) h
  | redirect fd cmd =>
    simp only [Proc.step] at h
    split at h <;> obtain rfl := Option.some.inj h
    · exact .dup2File
    · exact .dup2File_fails
  | execLast cmd => exact hlast (.inl rfl) h
  | fork p₀ p₁ cmd cmds =>
    simp only [Proc.step] at h
    split at h <;> obtain rfl := Option.some.inj h
    · exact .fork
    · exact .fork_fails
  | childExec cmd =>
    simp only [Proc.step] at h
    split at h <;> obtain rfl := Option.some.inj h
    · exact .childExec
    · exact .childExec_fails
  | childDup2 =>
    obtain rfl := Option.some.inj h
    exact .childDup2
  | childClose =>
    obtain rfl := Option.some.inj h
    exact .childClose
  | parentDup2 =>
    obtain rfl := Option.some.inj h
    exact .parentDup2
  | parentClose =>
    obtain rfl := Option.some.inj h
    exact .parentClose
  | running =>
    obtain rfl := Option.some.inj h
    exact .exit
  | exited => cases h

def Act.pipes : Act α → Nat
  | .pipe true => 1
  | _ => 0

/-- The system after a system call of `pid`. -/
def System.after (st : System α) (pid : Nat) (r : Result α) : System α :=
  let procs := Function.update st.procs pid r.proc
  match r.child with
  | none => { st with procs := procs, pipes := st.pipes + r.act.pipes }
  | some child => ⟨st.num + 1, Function.update procs st.num child, st.pipes + r.act.pipes⟩

def System.exited (st : System α) (pid : Nat) : Bool := (st.procs pid).pc = .exited

/-- Process `pid` makes its next system call. -/
def step (pid : Nat) (env : Env) (st : System α) : Option (System α × List (Event α)) :=
  if pid < st.num then
    ((st.procs pid).step env st.pipes st.num st.exited).map fun r => (st.after pid r, [⟨pid, r.act⟩])
  else none

/-- A slot that no process has been made in. -/
def Proc.absent : Proc α := ⟨.empty, false, .exited⟩

/-- The descriptors 0 to 2 are open, and no other. -/
def stdTable : FdTable Nat := ((FdTable.empty.alloc 0).alloc 1).alloc 2

/-- The shell is started with the files `t` open. -/
def System.init (t : FdTable α) : System α where
  num := 1
  procs pid := if pid = 0 then ⟨t.map .inherited, true, .main⟩ else .absent
  pipes := 0

/-- One system call of some process. -/
def Step (st : System α) (ev : List (Event α)) (st' : System α) : Prop := ∃ pid env, step pid env st = some (st', ev)

/-- The run in which the given processes make the next calls. -/
def execute (calls : List (Nat × Env)) (st : System α) : Option (List (Event α) × System α) :=
  Run.execute (fun call => step call.1 call.2) calls st

/-! ## Steps and runs -/

variable {st st' : System α} {ev tr : List (Event α)} {pid : Nat} {env : Env} {r : Result α}

theorem step_eq_some : step pid env st = some (st', ev) ↔ pid < st.num ∧ ∃ r,
    (st.procs pid).step env st.pipes st.num st.exited = some r ∧ st' = st.after pid r ∧ ev = [⟨pid, r.act⟩] := by
  unfold step
  constructor
  · intro h
    split at h
    · rename_i hpid
      obtain ⟨r, hr, he⟩ := Option.map_eq_some_iff.mp h
      obtain ⟨rfl, rfl⟩ := Prod.mk.inj he
      exact ⟨hpid, r, hr, rfl, rfl⟩
    · cases h
  · rintro ⟨hpid, r, hr, rfl, rfl⟩
    rw [if_pos hpid, hr]
    rfl

theorem after_num : (st.after pid r).num = if r.child = none then st.num else st.num + 1 := by
  unfold System.after
  cases r.child <;> rfl

theorem after_pipes : (st.after pid r).pipes = st.pipes + r.act.pipes := by
  unfold System.after
  cases r.child <;> rfl

/-- A system call changes the process that makes it and the one it forks. -/
theorem after_procs {q : Nat} (hpid : pid < st.num) : (st.after pid r).procs q =
    if q = pid then r.proc else if q = st.num then r.child.getD (st.procs q) else st.procs q := by
  unfold System.after
  cases hc : r.child with
  | none =>
    simp only [Function.update_apply, Option.getD_none, ite_self]
  | some child =>
    simp only [Function.update_apply, Option.getD_some]
    split
    · rename_i hq
      rw [if_neg (by omega)]
    · rfl

end Cs326.Pipeline
