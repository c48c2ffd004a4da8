import Cs326.Lib.Run
import Cs326.Scheduler.Table

/-!
# The scheduler as a machine

The rest of `scheduler.c`: `main`'s loop, `process()`, `interrupt_handler()` and `context_switch()`. Control moves
between `main` and the processes by `swapcontext`, so the machine's `Control` names the place in the program that
executes next and a `Context` the place where a saved one resumes. `context_switch` stores the caller's context where
the source stores it, whatever that context is, and resumes whatever the target's slot holds: that a process's slot
holds a context of that process is proved, not assumed.

The steps emit what the claims about runs speak of (`Event`). One step is a piece of the program without a check point:
`interrupt_handler()` down to the `swapcontext` is one step.
-/

namespace Cs326.Scheduler

/-- The place in the program that executes next. -/
inductive Control
  /-- `main`, about to call `interrupt_handler()`. -/
  | mainLoop
  /-- `main`, about to look whether every process has terminated. -/
  | mainCheck
  /-- `process()` of `pid`, about to compare `executed_work` with `workload`. -/
  | loopTest (pid : Nat)
  /-- `process()` of `pid`, about to test `g_interrupt` for the `i`th time in this work unit. -/
  | checkPoint (pid i : Nat)
  /-- `process()` of `pid`, behind that test. -/
  | afterCheck (pid i : Nat)
  /-- `main`, behind its loop. -/
  | finished
  /-- An assertion failed, or a context was resumed that was never built. -/
  | undefined
  deriving DecidableEq, Repr

structure Machine where
  sstate : SchedulerState
  main_ctx : Context
  control : Control

inductive Event
  /-- `handle_arrivals` moved the process to `WAITING`. -/
  | arrival (pid : Nat)
  /-- `g_scheduling_algo` is entered. -/
  | call (inp : Input) (s : SchedulerState)
  /-- `context_switch(pid)` passed its assertions. -/
  | dispatch (pid : Nat) (s : SchedulerState)
  /-- An assertion of `context_switch` failed. -/
  | abort
  /-- `process()` of `pid` returned. -/
  | termination (pid : Nat)

/-! ## Updates of the table -/

section Updates

variable (s : SchedulerState)

def SchedulerState.setPcb (i : Nat) (p : ProcessCtlBlock) : SchedulerState :=
  { s with pcbs := Function.update s.pcbs i p }

/-- `pcbs[i].state = st`. -/
def SchedulerState.setState (i : Nat) (st : ProcessState) : SchedulerState :=
  s.setPcb i { s.pcbs i with state := st }

/-- `pcbs[i].context = ctx`. -/
def SchedulerState.setContext (i : Nat) (ctx : Context) : SchedulerState :=
  s.setPcb i { s.pcbs i with context := ctx }

/-- `pcbs[i].executed_work++`. -/
def SchedulerState.incWork (i : Nat) : SchedulerState :=
  s.setPcb i { s.pcbs i with executed_work := (s.pcbs i).executed_work + 1 }

/-- `current_quantum++` on `unsigned int`. -/
def SchedulerState.tick : SchedulerState := { s with current_quantum := (s.current_quantum + 1) % 2 ^ 32 }

end Updates

/-! ## Interrupts and arrivals -/

/-- The processes whose creation quantum is now. -/
def arrivals (s : SchedulerState) : List Nat :=
  (List.range s.num_processes).filter fun i => (s.pcbs i).creation_quantum = s.current_quantum

/-- Every arriving process becomes `WAITING` and gets a fresh context. -/
def handle_arrivals (s : SchedulerState) : SchedulerState :=
  { s with pcbs := fun i =>
      if i < s.num_processes ∧ (s.pcbs i).creation_quantum = s.current_quantum then
        { s.pcbs i with state := .WAITING, context := .entry }
      else s.pcbs i }

/-- `if (current_pcb()->state == RUNNING) current_pcb()->state = WAITING`. -/
def preempt (s : SchedulerState) : SchedulerState :=
  if s.current_pcb.state = .RUNNING then s.setState s.current_process .WAITING else s

/-- What executes when the context `ctx` is resumed; `process()` starts by looking up the current process. -/
def Context.resume (ctx : Context) (current_process : Nat) : Control :=
  match ctx with
  | .zeroed => .undefined
  | .entry => .loopTest current_process
  | .checkPoint pid i => .afterCheck pid i
  | .mainStart => .mainLoop
  | .mainLoop => .mainCheck

/-- `context_switch(pid)`, called where the context `caller` returns to. -/
def context_switch (pid : Int) (caller : Context) (m : Machine) : Machine × List Event :=
  let s := m.sstate
  if 0 ≤ pid ∧ pid < s.num_processes then
    let new := pid.toNat
    let old := s.current_process
    if new = old ∧ 0 < s.current_quantum then
      ({ m with sstate := (s.setState new .RUNNING).tick, control := caller.resume old }, [.dispatch new s])
    else
      let s' := { s.setState new .RUNNING with current_process := new }.tick
      if s.current_quantum = 0 ∨ (s.pcbs old).state = .TERMINATED then
        ({ sstate := s', main_ctx := caller, control := (s'.pcbs new).context.resume new }, [.dispatch new s])
      else
        let s' := s'.setContext old caller
        ({ m with sstate := s', control := (s'.pcbs new).context.resume new }, [.dispatch new s])
  else ({ m with control := .undefined }, [.abort])

/-- `interrupt_handler()`, called where the context `caller` returns to; `none`: `insanity` is still drawing. -/
def interrupt_handler (algo : Algorithm) (inp : Input) (caller : Context) (m : Machine) :
    Option (Machine × List Event) :=
  let s := preempt m.sstate
  let s' := handle_arrivals s
  let events := (arrivals s).map .arrival ++ [.call inp s']
  match algo.run s' inp with
  | none => none
  | some .ret => some ({ m with sstate := s', control := caller.resume s'.current_process }, events)
  | some (.context_switch pid) =>
    let (m', events') := context_switch pid caller { m with sstate := s' }
    some (m', events ++ events')

/-! ## The machine -/

/-- `for (i = 0; i < num_processes; ++i) if (pcbs[i].state != TERMINATED) finished = false`. -/
def allTerminated (s : SchedulerState) : Bool :=
  (List.range s.num_processes).all fun i => (s.pcbs i).state = .TERMINATED

def step (algo : Algorithm) (inp : Input) (m : Machine) : Option (Machine × List Event) :=
  let s := m.sstate
  match m.control with
  | .mainLoop => interrupt_handler algo inp .mainLoop m
  | .mainCheck =>
    some ({ m with control := if 0 < s.num_processes ∧ allTerminated s then .finished else .mainLoop }, [])
  | .loopTest pid =>
    if (s.pcbs pid).executed_work < (s.pcbs pid).workload then some ({ m with control := .checkPoint pid 0 }, [])
    else
      -- `process()` returns to its `uc_link`
      some ({ m with sstate := s.setState pid .TERMINATED, control := m.main_ctx.resume s.current_process },
        [.termination pid])
  | .checkPoint pid i =>
    if inp.interrupt then interrupt_handler algo inp (.checkPoint pid i) m
    else some ({ m with control := .afterCheck pid i }, [])
  | .afterCheck pid i =>
    if i + 1 < 20 then some ({ m with control := .checkPoint pid (i + 1) }, [])
    else some ({ m with sstate := s.incWork pid, control := .loopTest pid }, [])
  | .finished => none
  | .undefined => none

/-- `main` before its loop. -/
def Machine.init (specs : List ProcessSpec) : Machine where
  sstate := load specs
  main_ctx := .mainStart
  control := .mainLoop

/-- One step for some input. -/
def Step (algo : Algorithm) (m : Machine) (ev : List Event) (m' : Machine) : Prop :=
  ∃ inp, step algo inp m = some (m', ev)

/-- `Reaches algo specs tr m`: the program started on the table `specs` under `algo` emits `tr` and is then in `m`. -/
def Reaches (algo : Algorithm) (specs : List ProcessSpec) (tr : List Event) (m : Machine) : Prop :=
  Run (Step algo) (Machine.init specs) tr m

/-- The run on the given inputs. -/
def exec (algo : Algorithm) (inps : List Input) (m : Machine) : Option (List Event × Machine) :=
  Run.execute (step algo) inps m

theorem exec_cons {algo : Algorithm} {inp : Input} {inps : List Input} {m m' : Machine} {tr : List Event} :
    exec algo (inp :: inps) m = some (tr, m') ↔
      ∃ m₁ ev tr', step algo inp m = some (m₁, ev) ∧ exec algo inps m₁ = some (tr', m') ∧ tr = ev ++ tr' :=
  Run.execute_cons

theorem run_of_exec {algo : Algorithm} {inps : List Input} {m m' : Machine} {tr : List Event}
    (h : exec algo inps m = some (tr, m')) : Run (Step algo) m tr m' :=
  Run.of_execute (fun inp _ _ _ _ hs => ⟨inp, hs⟩) h

/-! ## What a trace shows -/

/-- The calls of the scheduling algorithm. -/
def calls (tr : List Event) : List (Input × SchedulerState) :=
  tr.filterMap fun | .call inp s => some (inp, s) | _ => none

/-- The dispatched processes, each with the table it was dispatched in. -/
def dispatches (tr : List Event) : List (Nat × SchedulerState) :=
  tr.filterMap fun | .dispatch pid s => some (pid, s) | _ => none

def arrived (tr : List Event) : List Nat := tr.filterMap fun | .arrival pid => some pid | _ => none

def terminated (tr : List Event) : List Nat := tr.filterMap fun | .termination pid => some pid | _ => none

/-- The quanta of a run: `current_quantum` is incremented at every dispatch and nowhere else. -/
def quanta (tr : List Event) : Nat := (dispatches tr).length

end Cs326.Scheduler
