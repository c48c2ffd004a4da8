import Cs326.Lib.CString
import Cs326.Lib.Run
import Mathlib.Logic.Function.Basic

/-!
# The background jobs of the shell

`num_jobs`, `bg_cmds` and `count` of `shell.c`, with the code that changes them: the end of `exec`, which records a
background job, and `sigchld_handler`. An access outside the arrays is undefined, but for the read one past the end that
the handler makes when the table is full: what it reads there is an input of the handler.

Around the table stands what it is about: the children of the shell, `main` at its prompt, between `fork` and the
recording of the job, or in `waitpid`, and the jobs that have been recorded and not reaped.
-/

namespace Cs326.Shell

/-! ## The table -/

/-- `char bg_cmds[10][5000]` has rows of this length. -/
abbrev Row := Buffer 5000

def Row.empty : Row := ⟨.empty, by decide⟩

/-- The globals; only the slots below `10` exist. -/
structure JobTable where
  count : Int
  num_jobs : Nat → Int
  bg_cmds : Nat → Row

/-- As the globals are initialised. -/
def JobTable.init : JobTable where
  count := 0
  num_jobs _ := 0
  bg_cmds _ := Row.empty

namespace JobTable

variable (t : JobTable)

/-- `num_jobs[i] = pid; strcpy(bg_cmds[i], cmd)`. -/
def put (i : Nat) (pid : Int) (cmd : Row) : JobTable :=
  { t with num_jobs := Function.update t.num_jobs i pid, bg_cmds := Function.update t.bg_cmds i cmd }

/-- `num_jobs[count] = pid; strcpy(bg_cmds[count], command_char); count++`. -/
def record (pid : Int) (command_char : CString) : Option JobTable :=
  if 0 ≤ t.count ∧ t.count < 10 then
    (strcpy command_char).map fun cmd => { t.put t.count.toNat pid cmd with count := t.count + 1 }
  else none

/-- `num_jobs[i] = num_jobs[i + 1]; strcpy(bg_cmds[i], bg_cmds[i + 1])`, where `past` is read past the end. -/
def move (past : Int × CString) (i : Nat) : Option JobTable :=
  if i + 1 < 10 then some (t.put i (t.num_jobs (i + 1)) (t.bg_cmds (i + 1)))
  else if i < 10 then (strcpy past.2).map (t.put i past.1)
  else none

/-- `while (i < count) { ...; i++; }`. -/
def shift (past : Int × CString) (i : Nat) : Option JobTable :=
  (List.range' i (t.count - i).toNat).foldlM (fun t i => t.move past i) t

/-- `sigchld_handler`, with the result `pid` of its `waitpid`. -/
def sigchld_handler (pid : Int) (past : Int × CString) : Option JobTable :=
  if pid = t.num_jobs 9 then some { t.put 9 0 Row.empty with count := t.count - 1 }
  else
    match (List.range 9).find? fun i => t.num_jobs i = pid with
    | none => some t
    | some i => (t.shift past i).map fun t' => { t' with count := t'.count - 1 }

/-- `num_jobs[0..count)` and `bg_cmds[0..count)`. -/
def entries : List (Int × CString) := (List.range t.count.toNat).map fun k => (t.num_jobs k, (t.bg_cmds k).str)

end JobTable

/-! ## The shell and its children -/

inductive Control
  /-- `main` before the `fork` of `exec`. -/
  | prompt
  /-- `exec` behind the `fork` of a background job that it has not recorded. -/
  | forked (pid : Int) (command_char : CString)
  /-- `exec` in `waitpid(pid, &status, 0)`. -/
  | waiting (pid : Int)
  /-- An array was written outside its bounds. -/
  | undefined
  deriving DecidableEq

structure World where
  table : JobTable
  control : Control
  /-- The children that have not exited. -/
  running : List Int
  /-- The children that have exited and were not reaped. -/
  exited : List Int
  /-- The background jobs recorded and not yet reaped, in start order. -/
  jobs : List (Int × CString)

def World.init : World := ⟨.init, .prompt, [], [], []⟩

inductive Action
  | fork_background (pid : Int) (command_char : CString)
  | record
  | fork_foreground (pid : Int)
  /-- The `waitpid` of `exec` returns. -/
  | wait
  | exit (pid : Int)
  /-- `sigchld_handler`, where `waitpid` returns `pid`. -/
  | handler (pid : Int) (past : Int × CString)

namespace World

variable (w : World)

def isChild (pid : Int) : Prop := pid ∈ w.running ∨ pid ∈ w.exited

instance (pid : Int) : Decidable (w.isChild pid) := inferInstanceAs (Decidable (_ ∨ _))

/-- A `pid` that `fork` can return. -/
def fresh (pid : Int) : Prop := 0 < pid ∧ ¬w.isChild pid

instance (pid : Int) : Decidable (w.fresh pid) := inferInstanceAs (Decidable (_ ∧ _))

/-- What `waitpid(-1, NULL, WNOHANG)` can return. -/
def waitpid (pid : Int) : Prop :=
  if w.exited ≠ [] then pid ∈ w.exited else if w.running ≠ [] then pid = 0 else pid = -1

instance (pid : Int) : Decidable (w.waitpid pid) := by unfold waitpid; infer_instance

/-- The child `pid`, if it is one, has been waited for. -/
def reap (pid : Int) : World :=
  { w with exited := w.exited.erase pid, jobs := w.jobs.filter fun j => j.1 ≠ pid }

def step : Action → Option World
  | .fork_background pid command_char =>
    if w.control = .prompt ∧ w.fresh pid then
      some { w with running := pid :: w.running, control := .forked pid command_char }
    else none
  | .record =>
    match w.control with
    | .forked pid command_char =>
      match w.table.record pid command_char with
      | some t => some { w with
          table := t
          control := .prompt
          jobs := if w.isChild pid then w.jobs ++ [(pid, command_char)] else w.jobs }
      | none => some { w with control := .undefined }
    | _ => none
  | .fork_foreground pid =>
    if w.control = .prompt ∧ w.fresh pid then
      some { w with running := pid :: w.running, control := .waiting pid }
    else none
  | .wait =>
    match w.control with
    | .waiting pid => if pid ∈ w.running then none else some { w.reap pid with control := .prompt }
    | _ => none
  | .exit pid =>
    if w.control ≠ .undefined ∧ pid ∈ w.running then
      some { w with running := w.running.erase pid, exited := pid :: w.exited }
    else none
  | .handler pid past =>
    if w.control ≠ .undefined ∧ w.waitpid pid then
      match w.table.sigchld_handler pid past with
      | some t => some { w.reap pid with table := t }
      | none => some { w with control := .undefined }
    else none

end World

/-- One step, which shows the world before it and the action. -/
def Step (w : World) (ev : List (World × Action)) (w' : World) : Prop := ∃ a, w.step a = some w' ∧ ev = [(w, a)]

/-- The runs of the shell. -/
def Reaches (tr : List (World × Action)) (w : World) : Prop := Run Step World.init tr w

end Cs326.Shell
