import Cs326.Lib.CInt
import Cs326.Lib.RunningMin
import Mathlib.Logic.Function.Basic
import Mathlib.Order.Nat

/-!
# The process table and the scheduling algorithms

`scheduler.h` and the algorithms of `scheduler.c`. An algorithm looks at the table and either returns or ends in one
call `context_switch(pid)`, so it is modelled as the `Call` it makes; `insanity` draws `pid`s until one is waiting and
makes no call while it is still drawing. The wall-clock fields and the printing are left out.
-/

namespace Cs326.Scheduler

/-- `enum process_state`. -/
inductive ProcessState
  | CREATED
  | WAITING
  | RUNNING
  | TERMINATED
  deriving DecidableEq, Repr

theorem ProcessState.eq_waiting {st : ProcessState} (hc : st ≠ .CREATED) (hr : st ≠ .RUNNING) (ht : st ≠ .TERMINATED) :
    st = .WAITING := by
  cases st with
  | WAITING => rfl
  | CREATED => exact absurd rfl hc
  | RUNNING => exact absurd rfl hr
  | TERMINATED => exact absurd rfl ht

/-- Where a `ucontext_t` resumes. -/
inductive Context
  /-- The zero bytes of `empty_pcb`: no context was ever stored here. -/
  | zeroed
  /-- `makecontext(&ctx, process, 0)`: the first instruction of `process()`. -/
  | entry
  /-- Inside `process()` of `pid`, in the `interrupt_handler()` called at check point `i` of a work unit. -/
  | checkPoint (pid i : Nat)
  /-- The `getcontext(&g_main_ctx)` before the loop of `main`. -/
  | mainStart
  /-- Inside `main`, in the `interrupt_handler()` called by its loop. -/
  | mainLoop
  deriving DecidableEq, Repr

/-- `struct process_ctl_block`; the `unsigned int` fields are naturals. -/
structure ProcessCtlBlock where
  pid : Nat
  name : String
  state : ProcessState
  context : Context
  creation_quantum : Nat
  workload : Nat
  executed_work : Nat
  priority : Nat

def empty_pcb : ProcessCtlBlock where
  pid := 0
  name := ""
  state := .CREATED
  context := .zeroed
  creation_quantum := 0
  workload := 0
  executed_work := 0
  priority := 0

/-- `struct scheduler_state`. The slots of `pcbs` from `num_processes` on are never written. -/
structure SchedulerState where
  num_processes : Nat
  current_quantum : Nat
  current_process : Nat
  pcbs : Nat → ProcessCtlBlock

def SchedulerState.current_pcb (s : SchedulerState) : ProcessCtlBlock := s.pcbs s.current_process

/-- One record of the process specification file. -/
structure ProcessSpec where
  name : String
  creation_quantum : UInt32
  workload : UInt32
  priority : UInt32

/-- `g_sstate` as `read_spec` leaves it. -/
def load (specs : List ProcessSpec) : SchedulerState where
  num_processes := specs.length
  current_quantum := 0
  current_process := 0
  pcbs i := match specs[i]? with
    | none => empty_pcb
    | some p => { empty_pcb with
        pid := i
        name := p.name
        creation_quantum := p.creation_quantum.toNat
        workload := p.workload.toNat
        priority := p.priority.toNat }

/-! ## The scheduling algorithms -/

/-- How an algorithm ends: it returns, or calls `context_switch(pid)` and then returns. -/
inductive Call
  | ret
  | context_switch (pid : Int)
  deriving DecidableEq, Repr

section Algorithms

variable (s : SchedulerState)

/-- `sched_state->pcbs[i].state == WAITING`. -/
def SchedulerState.waiting (i : Nat) : Bool := (s.pcbs i).state = .WAITING

/-- A loop `for (i = 0; i < num_processes; ++i)` that switches to the first process it accepts. -/
def firstProcess (accept : Nat → Bool) : Option Nat := (List.range s.num_processes).find? accept

def basic : Call :=
  match firstProcess s s.waiting with
  | some i => .context_switch i
  | none => .ret

/-- The loop of `fifo`, `sjf`, `psjf`, `sctf` and `priority`: among the waiting processes the first one of least key
below `bound`, and `pid` as it was initialised when there is none. The `int` that keeps the least key is compared with
`unsigned` keys, hence as `unsigned`. -/
def selectLeast {α : Type*} [LinearOrder α] (key : ProcessCtlBlock → α) (bound : α) (pid : Int) : Call :=
  match runningMin s.waiting (fun i => key (s.pcbs i)) bound (List.range s.num_processes) with
  | some i => .context_switch i
  | none => .context_switch pid

/-- `pid` is the indeterminate value that the uninitialised local of `fifo` starts with. -/
def fifo (pid : Int) : Call :=
  if 0 < s.current_quantum ∧ s.current_pcb.state = .RUNNING then .context_switch s.current_process
  else selectLeast s (·.creation_quantum) INT_MAX pid

def sjf : Call := selectLeast s (·.workload) INT_MAX 0

def psjf : Call :=
  if 0 < s.current_quantum ∧ s.current_pcb.state = .WAITING then .context_switch s.current_process
  else selectLeast s (·.workload) INT_MAX 0

/-- `workload - executed_work` on `unsigned int`. -/
def ProcessCtlBlock.remaining (p : ProcessCtlBlock) : Nat := (p.workload + 2 ^ 32 - p.executed_work) % 2 ^ 32

def sctf : Call :=
  if 0 < s.current_quantum ∧ s.current_pcb.state = .WAITING then .context_switch s.current_process
  else selectLeast s ProcessCtlBlock.remaining INT_MAX 0

def rr : Call :=
  match firstProcess s fun i => s.waiting i && decide (s.current_process < i) with
  | some i => .context_switch i
  | none =>
    match firstProcess s s.waiting with
    | some i => .context_switch i
    | none => .ret

/-- The greatest priority above `0`: a least key in the reversed order. -/
def priority : Call := selectLeast s (fun p => OrderDual.toDual p.priority) (OrderDual.toDual 0) 0

/-- `draws` are the results of `rand()`; `none`: none of them hit a waiting process. -/
def insanity : List Nat → Option Call
  | [] => none
  | r :: draws =>
    let pid := r % s.num_processes
    if s.waiting pid then some (.context_switch pid) else insanity draws

end Algorithms

/-- `g_scheduling_algo`. -/
inductive Algorithm
  | basic
  | fifo
  | sjf
  | psjf
  | sctf
  | rr
  | priority
  | insanity
  deriving DecidableEq, Repr

/-- What a step of the program reads from outside: whether an interrupt is pending at the check point it passes, the
results of `rand()`, and the indeterminate value of an uninitialised `int pid`. -/
structure Input where
  interrupt : Bool
  draws : List Nat
  pid : Int

/-- `g_scheduling_algo(&g_sstate)`. -/
def Algorithm.run (s : SchedulerState) (inp : Input) : Algorithm → Option Call
  | .basic => some (Scheduler.basic s)
  | .fifo => some (Scheduler.fifo s inp.pid)
  | .sjf => some (Scheduler.sjf s)
  | .psjf => some (Scheduler.psjf s)
  | .sctf => some (Scheduler.sctf s)
  | .rr => some (Scheduler.rr s)
  | .priority => some (Scheduler.priority s)
  | .insanity => Scheduler.insanity s inp.draws

end Cs326.Scheduler
