import Cs326.Shell.Pipeline

/-!
# What `execute_pipeline` connects

One call of `execute_pipeline(cmds)` in a process that the caller has forked, all its system calls succeeding, in any
interleaving of the processes it makes. The process that walks down the array has at command `b` the table
`parentTable b`: its standard input is pipe `b - 1`, and it still has the read ends of all pipes before, because the
parent closes `p[1]` only. The child forked for command `i` has `childTable i`. From these two tables comes what the
pipeline connects and what it leaks.
-/

namespace Cs326.Pipeline

variable {α : Type*} {t : FdTable α} {cmds : List CommandLine} {st st' : System α} {tr ev : List (Event α)}
  {p : Proc α} {i j b fd pid : Nat} {file : File α}

/-! ## The tables -/

/-- The table behind `pipe(p)`, the `i`th one. -/
def piped (fds : FdTable (File α)) (i : Nat) : FdTable (File α) := (fds.alloc (.pipeRead i)).alloc (.pipeWrite i)

/-- `p[1]`; `p[0]` is `fds.lowest`. -/
def writeFd (fds : FdTable (File α)) (i : Nat) : Nat := (fds.alloc (.pipeRead i)).lowest

/-- The table in front of command `b`, with the first `b` pipes made. -/
def parentTable (t : FdTable α) : Nat → FdTable (File α)
  | 0 => t.map .inherited
  | i + 1 =>
    let fds := parentTable t i
    ((piped fds i).dup2 fds.lowest 0).close (writeFd fds i)

/-- The table that command `i` is executed with, when it is not the last one. -/
def childTable (t : FdTable α) (i : Nat) : FdTable (File α) :=
  let fds := parentTable t i
  ((piped fds i).dup2 (writeFd fds i) 1).close fds.lowest

/-- The table of the last command, the `i`th one. -/
def lastTable (t : FdTable α) (i : Nat) (cmd : CommandLine) : FdTable (File α) :=
  let fds := parentTable t i
  match cmd.stdout_file with
  | some file => (fds.alloc (.opened file)).dup2 fds.lowest 1
  | none => fds

theorem writeFd_ne_lowest (fds : FdTable (File α)) (i : Nat) : writeFd fds i ≠ fds.lowest :=
  FdTable.lowest_ne (by rw [FdTable.alloc_file, if_pos rfl]; simp)

theorem writeFd_free (fds : FdTable (File α)) (i : Nat) : fds.file (writeFd fds i) = none := by
  have h := FdTable.lowest_free (fds.alloc (.pipeRead i))
  rw [FdTable.alloc_file] at h
  split at h
  · cases h
  · exact h

theorem piped_file (fds : FdTable (File α)) (i fd : Nat) : (piped fds i).file fd =
    if fd = writeFd fds i then some (.pipeWrite i)
    else if fd = fds.lowest then some (.pipeRead i) else fds.file fd := by
  rw [piped, FdTable.alloc_file, FdTable.alloc_file]
  rfl

theorem parentTable_succ_file (h0 : (parentTable t i).file 0 ≠ none) :
    (parentTable t (i + 1)).file fd = if fd = 0 ∨ fd = (parentTable t i).lowest then some (.pipeRead i)
      else (parentTable t i).file fd := by
  have hread : (piped (parentTable t i) i).file (parentTable t i).lowest = some (.pipeRead i) := by
    rw [piped_file, if_neg (writeFd_ne_lowest _ i).symm, if_pos rfl]
  have hw0 : writeFd (parentTable t i) i ≠ 0 := fun he => h0 (he ▸ writeFd_free _ i)
  rw [parentTable, FdTable.close_file, FdTable.dup2_file hread, piped_file]
  by_cases hw : fd = writeFd (parentTable t i) i
  · subst hw
    rw [if_pos rfl, if_neg, writeFd_free]
    rintro (he | he)
    · exact hw0 he
    · exact writeFd_ne_lowest _ i he
  · rw [if_neg hw, if_neg hw]
    by_cases hfd : fd = 0
    · rw [if_pos hfd, if_pos (.inl hfd)]
    · simp only [hfd, false_or, if_false]

theorem childTable_file (h1 : (parentTable t i).file 1 ≠ none) : (childTable t i).file fd =
    if fd = 1 ∨ fd = writeFd (parentTable t i) i then some (.pipeWrite i) else (parentTable t i).file fd := by
  have hwrite : (piped (parentTable t i) i).file (writeFd (parentTable t i) i) = some (.pipeWrite i) := by
    rw [piped_file, if_pos rfl]
  have hl1 : (parentTable t i).lowest ≠ 1 := FdTable.lowest_ne h1
  rw [childTable, FdTable.close_file, FdTable.dup2_file hwrite, piped_file]
  by_cases hl : fd = (parentTable t i).lowest
  · subst hl
    rw [if_pos rfl, if_neg, FdTable.lowest_free]
    rintro (he | he)
    · exact hl1 he
    · exact writeFd_ne_lowest _ i he.symm
  · rw [if_neg hl, if_neg hl]
    by_cases hfd : fd = 1
    · rw [if_pos hfd, if_pos (.inl hfd)]
    · simp only [hfd, false_or, if_false]

theorem lastTable_file {cmd : CommandLine} : (lastTable t i cmd).file fd =
    match cmd.stdout_file with
    | some file => if fd = 1 ∨ fd = (parentTable t i).lowest then some (.opened file) else (parentTable t i).file fd
    | none => (parentTable t i).file fd := by
  unfold lastTable
  cases cmd.stdout_file with
  | none => rfl
  | some file =>
    have hopen : ((parentTable t i).alloc (.opened file)).file (parentTable t i).lowest = some (.opened file) := by
      rw [FdTable.alloc_file, if_pos rfl]
    dsimp only
    rw [FdTable.dup2_file hopen, FdTable.alloc_file]
    by_cases hfd : fd = 1
    · rw [if_pos hfd, if_pos (.inl hfd)]
    · simp only [hfd, false_or, if_false]

/-- The descriptors 0 to 2 are open. -/
def Std (t : FdTable α) : Prop := ∀ fd < 3, t.file fd ≠ none

/-- The standard input of command `b`. -/
def stdinOf (t : FdTable α) : Nat → Option (File α)
  | 0 => (t.file 0).map .inherited
  | i + 1 => some (.pipeRead i)

/-- What is open in front of command `b`. -/
structure ParentFiles (t : FdTable α) (b : Nat) : Prop where
  std : Std (parentTable t b)
  stdin : (parentTable t b).file 0 = stdinOf t b
  stdout : (parentTable t b).file 1 = (t.file 1).map .inherited
  no_write : ∀ fd i, (parentTable t b).file fd ≠ some (.pipeWrite i)
  read_lt : ∀ fd i, (parentTable t b).file fd = some (.pipeRead i) → i < b
  /-- The descriptor that `pipe` returned stays open. -/
  read : ∀ i < b, ∃ fd, 3 ≤ fd ∧ (parentTable t b).file fd = some (.pipeRead i)

theorem parentFiles_zero (h : Std t) : ParentFiles t 0 := by
  have hfile : ∀ fd, (parentTable t 0).file fd = (t.file fd).map .inherited := fun fd => FdTable.map_file ..
  have hno : ∀ fd (f : File α), (∀ a, f ≠ .inherited a) → (parentTable t 0).file fd ≠ some f := by
    intro fd f hf he
    rw [hfile, Option.map_eq_some_iff] at he
    obtain ⟨a, _, he⟩ := he
    exact hf a he.symm
  refine ⟨fun fd hfd he => h fd hfd ?_, hfile 0, hfile 1, fun fd i => hno fd _ (by simp), fun fd i he => ?_,
    fun i hi => absurd hi (Nat.not_lt_zero _)⟩
  · simpa [hfile] using he
  · exact absurd he (hno fd _ (by simp))

theorem ParentFiles.succ (h : ParentFiles t b) : ParentFiles t (b + 1) := by
  have hfile : ∀ fd, (parentTable t (b + 1)).file fd = if fd = 0 ∨ fd = (parentTable t b).lowest then
      some (.pipeRead b) else (parentTable t b).file fd := fun fd => parentTable_succ_file (h.std 0 (by omega))
  have hlow : 3 ≤ (parentTable t b).lowest := FdTable.le_lowest h.std
  refine ⟨fun fd hfd => ?_, ?_, ?_, fun fd i => ?_, fun fd i he => ?_, fun i hi => ?_⟩
  · rw [hfile]
    split
    · simp
    · exact h.std fd hfd
  · rw [hfile, if_pos (.inl rfl), stdinOf]
  · rw [hfile, if_neg (by omega), h.stdout]
  · rw [hfile]
    split
    · simp
    · exact h.no_write fd i
  · rw [hfile] at he
    split at he
    · simp only [Option.some.injEq, File.pipeRead.injEq] at he
      omega
    · have := h.read_lt fd i he
      omega
  · by_cases hib : i = b
    · exact ⟨_, hlow, by rw [hfile, if_pos (.inr rfl), hib]⟩
    · obtain ⟨fd, hfd, he⟩ := h.read i (by omega)
      have hne : (parentTable t b).lowest ≠ fd := FdTable.lowest_ne (by rw [he]; simp)
      exact ⟨fd, hfd, by rw [hfile, if_neg (by omega), he]⟩

/-- **The table in front of every command.** -/
theorem parentFiles (h : Std t) (b : Nat) : ParentFiles t b := by
  induction b with
  | zero => exact parentFiles_zero h
  | succ b ih => exact ih.succ

/-! ## The processes -/

/-- The command at `i`, executed with the table it has. -/
def commandTable (t : FdTable α) (cmds : List CommandLine) (i : Nat) (cmd : CommandLine) : FdTable (File α) :=
  if i + 1 < cmds.length then childTable t i else lastTable t i cmd

/-- The process that becomes command `i`: the last one is the process that called `execute_pipeline`. -/
def commandPid (cmds : List CommandLine) (i : Nat) : Nat := if i + 1 < cmds.length then i + 2 else 1

/-- The process that walks down `cmds`, behind `b` forks and `k` calls of `pipe`. -/
inductive Walker (t : FdTable α) (cmds : List CommandLine) : Nat → Nat → Proc α → Prop
  | execute_pipeline {b : Nat} : b < cmds.length →
      Walker t cmds b b ⟨parentTable t b, true, .execute_pipeline (cmds.drop b)⟩
  | fork {b : Nat} (h : b + 1 < cmds.length) : Walker t cmds b (b + 1)
      ⟨piped (parentTable t b) b, true,
        .fork (parentTable t b).lowest (writeFd (parentTable t b) b) cmds[b] (cmds.drop (b + 1))⟩
  | parentDup2 {b : Nat} : b + 1 < cmds.length → Walker t cmds (b + 1) (b + 1)
      ⟨piped (parentTable t b) b, true,
        .parentDup2 (parentTable t b).lowest (writeFd (parentTable t b) b) (cmds.drop (b + 1))⟩
  | parentClose {b : Nat} : b + 1 < cmds.length → Walker t cmds (b + 1) (b + 1)
      ⟨(piped (parentTable t b) b).dup2 (parentTable t b).lowest 0, true,
        .parentClose (writeFd (parentTable t b) b) (cmds.drop (b + 1))⟩
  | redirect {b : Nat} {cmd : CommandLine} {file : String} : b + 1 = cmds.length → cmds[b]? = some cmd →
      cmd.stdout_file = some file → Walker t cmds b b
        ⟨(parentTable t b).alloc (.opened file), true, .redirect (parentTable t b).lowest cmd⟩
  | execLast {b : Nat} {cmd : CommandLine} : b + 1 = cmds.length → cmds[b]? = some cmd →
      Walker t cmds b b ⟨lastTable t b cmd, true, .execLast cmd⟩
  | running {b : Nat} {cmd : CommandLine} : b + 1 = cmds.length → cmds[b]? = some cmd →
      Walker t cmds b b ⟨lastTable t b cmd, true, .running cmd⟩
  | exited {b : Nat} : b + 1 = cmds.length → Walker t cmds b b ⟨.empty, false, .exited⟩

/-- The process forked for command `i`. -/
inductive Child (t : FdTable α) (i : Nat) (cmd : CommandLine) : Proc α → Prop
  | childDup2 : Child t i cmd
      ⟨piped (parentTable t i) i, true, .childDup2 (parentTable t i).lowest (writeFd (parentTable t i) i) cmd⟩
  | childClose : Child t i cmd
      ⟨(piped (parentTable t i) i).dup2 (writeFd (parentTable t i) i) 1, true,
        .childClose (parentTable t i).lowest cmd⟩
  | childExec : Child t i cmd ⟨childTable t i, true, .childExec cmd⟩
  | running : Child t i cmd ⟨childTable t i, true, .running cmd⟩
  | exited : Child t i cmd ⟨.empty, false, .exited⟩

/-- The last command takes its output where it was, the others into a pipe. -/
def WellFormed (cmds : List CommandLine) : Prop :=
  0 < cmds.length ∧ ∀ i (h : i < cmds.length), cmds[i].stdout_pipe = decide (i + 1 < cmds.length)

/-- The process has executed its command. -/
def Pc.done : Pc → Bool
  | .running _ => true
  | .exited => true
  | _ => false

/-- A successful `execvp`. -/
def Act.executed : Act α → Option (CommandLine × FdTable (File α))
  | .childExec cmd fds true => some (cmd, fds)
  | .execLast cmd fds true => some (cmd, fds)
  | _ => none

/-- What a system call of the process that becomes command `i` executes. -/
inductive Executes (t : FdTable α) (cmds : List CommandLine) (i : Nat) (p : Proc α) (r : Result α) : Prop
  | nothing : r.act.executed = none → r.proc.pc.done = p.pc.done → Executes t cmds i p r
  | command {cmd : CommandLine} : cmds[i]? = some cmd → r.act.executed = some (cmd, commandTable t cmds i cmd) →
      p.pc.done = false → r.proc.pc = .running cmd → Executes t cmds i p r

variable {env : Env} {k num : Nat} {exited : Nat → Bool} {r : Result α} {cmd : CommandLine}

theorem Walker.lt (h : Walker t cmds b k p) : b < cmds.length := by
  cases h <;> omega

/-- **One system call of the walker**: it stays in its place, or forks the process of command `b`. -/
theorem Walker.step (h : Walker t cmds b k p) (hwf : WellFormed cmds) (hok : env.ok = true)
    (hs : p.step env k num exited = some r) : Executes t cmds (cmds.length - 1) p r ∧
      (r.child = none ∧ Walker t cmds b (k + r.act.pipes) r.proc ∨
        ∃ cmd child, cmds[b]? = some cmd ∧ r.child = some child ∧ Child t b cmd child ∧ child.pc.done = false ∧
          Walker t cmds (b + 1) (k + r.act.pipes) r.proc) := by
  have hlast : ∀ {b cmd}, b + 1 = cmds.length → cmds[b]? = some cmd →
      ⟨⟨lastTable t b cmd, true, .running cmd⟩, none, .execLast cmd (lastTable t b cmd) true⟩ = r →
      p.pc.done = false → Executes t cmds (cmds.length - 1) p r ∧ r.child = none ∧
        Walker t cmds b (b + r.act.pipes) r.proc := by
    rintro b cmd hb hcmd rfl hp
    obtain rfl : b = cmds.length - 1 := by omega
    refine ⟨.command hcmd ?_ hp rfl, rfl, .running hb hcmd⟩
    rw [commandTable, if_neg (by omega)]
    rfl
  cases h with
  | @execute_pipeline b hb =>
    have hpipe := hwf.2 b hb
    rw [List.drop_eq_getElem_cons hb] at hs
    simp only [Proc.step, hok, if_true] at hs
    by_cases hn : b + 1 < cmds.length
    · rw [hpipe, if_pos (by simpa using hn)] at hs
      obtain rfl := Option.some.inj hs
      exact ⟨.nothing rfl rfl, .inl ⟨rfl, .fork hn⟩⟩
    · have hb1 : b + 1 = cmds.length := by omega
      have hcmd : cmds[b]? = some cmds[b] := List.getElem?_eq_getElem hb
      rw [hpipe, if_neg (by simpa using hn)] at hs
      cases hf : cmds[b].stdout_file with
      | some file =>
        rw [hf] at hs
        obtain rfl := Option.some.inj hs
        exact ⟨.nothing rfl rfl, .inl ⟨rfl, .redirect hb1 hcmd hf⟩⟩
      | none =>
        have htable : parentTable t b = lastTable t b cmds[b] := by rw [lastTable, hf]
        rw [hf, Proc.step.execLast, if_pos hok, htable] at hs
        obtain ⟨he, hw⟩ := hlast hb1 hcmd (Option.some.inj hs) rfl
        exact ⟨he, .inl hw⟩
  | @fork b hb =>
    simp only [Proc.step, hok, if_true] at hs
    obtain rfl := Option.some.inj hs
    exact ⟨.nothing rfl rfl, .inr ⟨_, _, List.getElem?_eq_getElem _, rfl, .childDup2, rfl, .parentDup2 hb⟩⟩
  | @parentDup2 b hb =>
    simp only [Proc.step, hok] at hs
    obtain rfl := Option.some.inj hs
    exact ⟨.nothing rfl rfl, .inl ⟨rfl, .parentClose hb⟩⟩
  | @parentClose b hb =>
    obtain rfl := Option.some.inj hs
    exact ⟨.nothing rfl rfl, .inl ⟨rfl, .execute_pipeline hb⟩⟩
  | @redirect b cmd file hb hcmd hf =>
    simp only [Proc.step, hok, if_true] at hs
    obtain rfl := Option.some.inj hs
    have htable : ((parentTable t b).alloc (.opened file)).dup2 (parentTable t b).lowest 1 = lastTable t b cmd := by
      rw [lastTable, hf]
    refine ⟨.nothing rfl rfl, .inl ⟨rfl, ?_⟩⟩
    rw [htable]
    exact .execLast hb hcmd
  | @execLast b cmd hb hcmd =>
    simp only [Proc.step, Proc.step.execLast, hok, if_true] at hs
    obtain ⟨he, hw⟩ := hlast hb hcmd (Option.some.inj hs) rfl
    exact ⟨he, .inl hw⟩
  | running hb =>
    obtain rfl := Option.some.inj hs
    exact ⟨.nothing rfl rfl, .inl ⟨rfl, .exited hb⟩⟩
  | exited => cases hs

/-- **One system call of a child.** -/
theorem Child.step (h : Child t i cmd p) (hcmd : cmds[i]? = some cmd) (hi : i + 1 < cmds.length) (hok : env.ok = true)
    (hs : p.step env k num exited = some r) :
    Executes t cmds i p r ∧ r.child = none ∧ r.act.pipes = 0 ∧ Child t i cmd r.proc := by
  cases h with
  | childDup2 =>
    simp only [Proc.step, hok] at hs
    obtain rfl := Option.some.inj hs
    exact ⟨.nothing rfl rfl, rfl, rfl, .childClose⟩
  | childClose =>
    obtain rfl := Option.some.inj hs
    exact ⟨.nothing rfl rfl, rfl, rfl, .childExec⟩
  | childExec =>
    simp only [Proc.step, hok, if_true] at hs
    obtain rfl := Option.some.inj hs
    refine ⟨.command hcmd ?_ rfl rfl, rfl, rfl, .running⟩
    rw [commandTable, if_pos hi]
    rfl
  | running =>
    obtain rfl := Option.some.inj hs
    exact ⟨.nothing rfl rfl, rfl, rfl, .exited⟩
  | exited => cases hs

/-! ## The pipeline -/

/-- A process has been forked to call `execute_pipeline(cmds)`, and its parent waits for it. -/
def System.start (t : FdTable α) (cmds : List CommandLine) : System α where
  num := 2
  procs pid :=
    if pid = 0 then ⟨t.map .inherited, true, .waitpid 1⟩
    else if pid = 1 then ⟨t.map .inherited, true, .execute_pipeline cmds⟩ else .absent
  pipes := 0

/-- Such a process is what `main` and `exec` make of a line in the foreground. -/
theorem start_of_line (t : FdTable α) (cmds : List CommandLine) : Run Step (.init t)
    [⟨0, .getline (some (.run cmds false))⟩, ⟨0, .forkJob true⟩] (.start t cmds) := by
  have h : execute [(0, ⟨true, some (.run cmds false)⟩), (0, ⟨true, none⟩)] (System.init t) =
      some ([⟨0, .getline (some (.run cmds false))⟩, ⟨0, .forkJob true⟩], System.start t cmds) := by
    have hprocs : Function.update (Function.update (Function.update (System.init t).procs 0
        ⟨t.map .inherited, true, .exec cmds false⟩) 0 ⟨t.map .inherited, true, .waitpid 1⟩) 1
        ⟨t.map .inherited, true, .execute_pipeline cmds⟩ = (System.start t cmds).procs := by
      funext pid
      simp only [Function.update_apply, System.init, System.start]
      by_cases h0 : pid = 0
      · simp [h0]
      · simp [h0]
    simp only [execute]
    exact congrArg (fun procs => some (_, (⟨2, procs, 0⟩ : System α))) hprocs
  exact Run.of_execute (fun k _ st st' ev hs => ⟨k.1, k.2, hs⟩) h

/-- A successful system call of a process of the pipeline. -/
def PipelineStep (st : System α) (ev : List (Event α)) (st' : System α) : Prop :=
  ∃ pid env, pid ≠ 0 ∧ env.ok = true ∧ step pid env st = some (st', ev)

/-- A process that has become a command, with the table it had then. -/
structure Executed (α : Type*) where
  pid : Nat
  cmd : CommandLine
  fds : FdTable (File α)

def Event.executed (e : Event α) : Option (Executed α) := e.act.executed.map fun x => ⟨e.pid, x.1, x.2⟩

/-- The commands that a run executes. -/
def execs (tr : List (Event α)) : List (Executed α) := tr.filterMap Event.executed

@[simp] theorem execs_append (a b : List (Event α)) : execs (a ++ b) = execs a ++ execs b := List.filterMap_append

/-- `e` is command `i`. -/
def IsCommand (t : FdTable α) (cmds : List CommandLine) (i : Nat) (e : Executed α) : Prop :=
  ∃ cmd, cmds[i]? = some cmd ∧ e = ⟨commandPid cmds i, cmd, commandTable t cmds i cmd⟩

/-- **The invariant** of a pipeline. -/
structure PipelineInv (t : FdTable α) (cmds : List CommandLine) (tr : List (Event α)) (st : System α) : Prop where
  caller : st.procs 0 = ⟨t.map .inherited, true, .waitpid 1⟩
  walker : ∃ b, st.num = b + 2 ∧ Walker t cmds b st.pipes (st.procs 1)
  child : ∀ i cmd, i + 2 < st.num → cmds[i]? = some cmd → Child t i cmd (st.procs (i + 2))
  commands : ∀ e ∈ execs tr, ∃ i, IsCommand t cmds i e
  /-- Who has executed a command has executed one. -/
  once : ∀ pid, ((execs tr).map Executed.pid).count pid =
    if pid ≠ 0 ∧ pid < st.num ∧ (st.procs pid).pc.done = true then 1 else 0

theorem pipelineInv_start (hwf : WellFormed cmds) : PipelineInv t cmds [] (.start t cmds) := by
  refine ⟨rfl, ⟨0, rfl, .execute_pipeline hwf.1⟩, fun i cmd hi _ => ?_, fun e he => (by cases he), fun pid => ?_⟩
  · have : i + 2 < 2 := hi
    omega
  · refine (if_neg ?_).symm
    rintro ⟨hpid, hlt, hdone⟩
    obtain rfl : pid = 1 := by
      have : pid < 2 := hlt
      omega
    cases hdone

/-- The processes of a pipeline. -/
theorem PipelineInv.proc (h : PipelineInv t cmds tr st) (h0 : pid ≠ 0) (hpid : pid < st.num) :
    pid = 1 ∨ ∃ i cmd, pid = i + 2 ∧ i + 1 < cmds.length ∧ cmds[i]? = some cmd ∧ Child t i cmd (st.procs pid) := by
  obtain ⟨b, hb, hw⟩ := h.walker
  have hlt := hw.lt
  rcases Nat.lt_or_ge pid 2 with hp | hp
  · exact .inl (by omega)
  · obtain ⟨i, rfl⟩ := Nat.exists_eq_add_of_le' hp
    have hcmd : cmds[i]? = some cmds[i] := List.getElem?_eq_getElem (by omega)
    exact .inr ⟨i, _, rfl, by omega, hcmd, h.child i _ hpid hcmd⟩

/-- What the events of a step add to the commands executed. -/
theorem PipelineInv.execute {st' : System α} {i : Nat} (h : PipelineInv t cmds tr st)
    (h0 : pid ≠ 0) (hpid : pid < st.num) (hp : commandPid cmds i = pid) (he : Executes t cmds i (st.procs pid) r)
    (hnum : st.num ≤ st'.num) (hself : st'.procs pid = r.proc)
    (hother : ∀ q, q < st.num → q ≠ pid → st'.procs q = st.procs q)
    (hnew : ∀ q, st.num ≤ q → q < st'.num → (st'.procs q).pc.done = false) :
    (∀ e ∈ execs (tr ++ [⟨pid, r.act⟩]), ∃ i, IsCommand t cmds i e) ∧
      ∀ q, ((execs (tr ++ [⟨pid, r.act⟩])).map Executed.pid).count q =
        if q ≠ 0 ∧ q < st'.num ∧ (st'.procs q).pc.done = true then 1 else 0 := by
  have hdone : ∀ q, q ≠ pid → ((q ≠ 0 ∧ q < st'.num ∧ (st'.procs q).pc.done = true) ↔
      (q ≠ 0 ∧ q < st.num ∧ (st.procs q).pc.done = true)) := by
    intro q hq
    refine and_congr_right fun _ => ?_
    rcases Nat.lt_or_ge q st.num with hlt | hge
    · rw [hother q hlt hq]
      simp [hlt, Nat.lt_of_lt_of_le hlt hnum]
    · constructor
      · rintro ⟨hlt, hd⟩
        rw [hnew q hge hlt] at hd
        cases hd
      · rintro ⟨hlt, _⟩
        omega
  have hlt' : pid < st'.num := Nat.lt_of_lt_of_le hpid hnum
  cases he with
  | nothing hact hsame =>
    have hnil : execs [(⟨pid, r.act⟩ : Event α)] = [] := by simp [execs, Event.executed, hact]
    rw [execs_append, hnil, List.append_nil]
    refine ⟨h.commands, fun q => ?_⟩
    rw [h.once q]
    by_cases hq : q = pid
    · subst hq
      rw [hself, hsame]
      simp [hpid, hlt']
    · simp only [hdone q hq]
  | @command cmd hcmd hact hbefore hafter =>
    have hone : execs [(⟨pid, r.act⟩ : Event α)] = [⟨pid, cmd, commandTable t cmds i cmd⟩] := by
      simp [execs, Event.executed, hact]
    rw [execs_append, hone]
    constructor
    · intro e he
      rcases List.mem_append.mp he with he | he
      · exact h.commands e he
      · obtain rfl := List.mem_singleton.mp he
        exact ⟨i, cmd, hcmd, by rw [hp]⟩
    · intro q
      rw [List.map_append, List.count_append, h.once q]
      by_cases hq : q = pid
      · subst hq
        have hafter' : r.proc.pc.done = true := by
          rw [hafter]
          rfl
        rw [hself, hbefore, hafter']
        simp [h0, hlt']
      · simp only [hdone q hq, List.map_cons, List.map_nil, List.count_cons, List.count_nil]
        simp [Ne.symm hq]

/-- What a system call of a process of the pipeline executes. -/
theorem PipelineInv.executes (h : PipelineInv t cmds tr st) (hwf : WellFormed cmds) (h0 : pid ≠ 0)
    (hpid : pid < st.num) (hok : env.ok = true) (hr : (st.procs pid).step env st.pipes st.num st.exited = some r) :
    ∃ i < cmds.length, commandPid cmds i = pid ∧ Executes t cmds i (st.procs pid) r := by
  have hn := hwf.1
  rcases h.proc h0 hpid with rfl | ⟨i, cmd, rfl, hi, hcmd, hc⟩
  · obtain ⟨b, _, hw⟩ := h.walker
    exact ⟨cmds.length - 1, by omega, if_neg (by omega), (hw.step hwf hok hr).1⟩
  · exact ⟨i, by omega, if_pos hi, (hc.step hcmd hi hok hr).1⟩

/-- **Every step keeps the invariant.** -/
theorem PipelineInv.step (h : PipelineInv t cmds tr st) (hwf : WellFormed cmds) (hs : PipelineStep st ev st') :
    PipelineInv t cmds (tr ++ ev) st' := by
  obtain ⟨pid, env, h0, hok, hs⟩ := hs
  obtain ⟨hpid, r, hr, rfl, rfl⟩ := step_eq_some.mp hs
  have hlt0 : 0 < st.num := by omega
  have hcaller : (st.after pid r).procs 0 = ⟨t.map .inherited, true, .waitpid 1⟩ := by
    rw [after_procs hpid, if_neg (Ne.symm h0), if_neg (by omega), h.caller]
  have hself : (st.after pid r).procs pid = r.proc := by rw [after_procs hpid, if_pos rfl]
  have hother : ∀ q, q < st.num → q ≠ pid → (st.after pid r).procs q = st.procs q := by
    intro q hq hne
    rw [after_procs hpid, if_neg hne, if_neg (by omega)]
  obtain ⟨b, hb, hw⟩ := h.walker
  have hlt := hw.lt
  rcases h.proc h0 hpid with rfl | ⟨i, cmd, rfl, hi, hcmd, hc⟩
  · obtain ⟨he, hcases⟩ := hw.step hwf hok hr
    have hlast : commandPid cmds (cmds.length - 1) = 1 := if_neg (by omega)
    rcases hcases with ⟨hnone, hw'⟩ | ⟨cmd, child, hcmd, hsome, hchild, hfresh, hw'⟩
    · have hnum : (st.after 1 r).num = st.num := by rw [after_num, if_pos hnone]
      obtain ⟨hcommands, honce⟩ :=
        h.execute h0 hpid hlast he (Nat.le_of_eq hnum.symm) hself hother fun q hge hlt => by omega
      refine ⟨hcaller, ⟨b, hnum.trans hb, by rw [after_pipes, hself]; exact hw'⟩, fun i cmd hi hcmd => ?_, hcommands,
        honce⟩
      rw [hnum] at hi
      rw [hother _ hi (by omega)]
      exact h.child i cmd hi hcmd
    · have hnum : (st.after 1 r).num = st.num + 1 := by rw [after_num, if_neg (by simp [hsome])]
      have hchild' : (st.after 1 r).procs st.num = child := by
        rw [after_procs hpid, if_neg (by omega), if_pos rfl, hsome]
        rfl
      obtain ⟨hcommands, honce⟩ := h.execute h0 hpid hlast he (by omega) hself hother fun q hge hlt => by
        obtain rfl : q = st.num := by omega
        rw [hchild', hfresh]
      refine ⟨hcaller, ⟨b + 1, by omega, by rw [after_pipes, hself]; exact hw'⟩, fun i cmd' hi hcmd' => ?_, hcommands,
        honce⟩
      rcases Nat.lt_or_ge (i + 2) st.num with hlt | hge
      · rw [hother _ hlt (by omega)]
        exact h.child i cmd' hlt hcmd'
      · obtain rfl : i = b := by omega
        obtain rfl : cmd = cmd' := Option.some.inj (hcmd.symm.trans hcmd')
        rw [← hb, hchild']
        exact hchild
  · obtain ⟨he, hnone, hpipes, hc'⟩ := hc.step hcmd hi hok hr
    have hnum : (st.after (i + 2) r).num = st.num := by rw [after_num, if_pos hnone]
    obtain ⟨hcommands, honce⟩ := h.execute h0 hpid (if_pos hi) he (Nat.le_of_eq hnum.symm) hself hother
      fun q hge hlt => by omega
    refine ⟨hcaller, ⟨b, hnum.trans hb, ?_⟩, fun j cmd' hj hcmd' => ?_, hcommands, honce⟩
    · rw [after_pipes, hpipes, hother 1 (by omega) (by omega)]
      exact hw
    · rw [hnum] at hj
      by_cases hji : j = i
      · subst hji
        obtain rfl : cmd = cmd' := Option.some.inj (hcmd.symm.trans hcmd')
        rw [hself]
        exact hc'
      · rw [hother _ hj (by omega)]
        exact h.child j cmd' hj hcmd'

/-- **Every run keeps the invariant.** -/
theorem pipelineInv (hwf : WellFormed cmds) (h : Run PipelineStep (.start t cmds) tr st) : PipelineInv t cmds tr st :=
  h.invariant (pipelineInv_start hwf) fun hI hs => hI.step hwf hs

end Cs326.Pipeline
