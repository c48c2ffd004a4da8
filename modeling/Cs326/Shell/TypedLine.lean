import Cs326.Shell.Builtins
import Cs326.Shell.CommandLines
import Cs326.Shell.FlowProgress

/-!
# From the line to the output

`execute_pipeline` goes no further in the array of `exec` than to the first command that does not go into a pipe
(`front`), and what is behind it makes no difference to any run (`run_cut`). The array always has such a command, so
every line for which `exec` is called, and that stays within its arrays, is a pipeline: where the calls succeed, it
never blocks, and what its last command writes is determined (`typed_line_flows`). What is typed behind the first
redirection is dropped.
-/

namespace Cs326.Pipeline

open Dataflow

variable {α β : Type*} {t : FdTable α} {cmds : List CommandLine} {prog : CommandLine → Program β} {cap pid : Nat}
  {cmd : CommandLine} {stdin : List β}

/-- The commands up to the first one that does not go into a pipe. -/
def front : List CommandLine → List CommandLine
  | [] => []
  | cmd :: cmds => cmd :: if cmd.stdout_pipe then front cmds else []

theorem front_prefix (cmds : List CommandLine) : front cmds <+: cmds := by
  induction cmds with
  | nil => exact List.prefix_rfl
  | cons cmd cmds ih =>
    unfold front
    rw [List.prefix_cons_inj]
    split
    · exact ih
    · exact List.nil_prefix

/-- The front of an array with a command that does not go into a pipe. -/
theorem front_wellFormed (h : ∃ cmd ∈ cmds, cmd.stdout_pipe = false) : WellFormed (front cmds) := by
  induction cmds with
  | nil =>
    obtain ⟨cmd, hmem, -⟩ := h
    cases hmem
  | cons cmd cmds ih =>
    unfold front
    cases hpipe : cmd.stdout_pipe with
    | false =>
      refine ⟨Nat.one_pos, fun i hi => ?_⟩
      obtain rfl := Nat.lt_one_iff.mp hi
      exact hpipe
    | true =>
      obtain ⟨cmd', hmem, hlast⟩ := h
      rcases List.mem_cons.mp hmem with rfl | hmem
      · cases hpipe.symm.trans hlast
      · obtain ⟨hpos, hwf⟩ := ih ⟨cmd', hmem, hlast⟩
        refine ⟨Nat.succ_pos _, fun i hi => ?_⟩
        cases i with
        | zero => simpa [hpipe] using hpos
        | succ i => simpa using hwf i (by simpa using hi)

/-! ## What is not reached -/

/-- The process goes on with the front of its array. -/
def Pc.cut : Pc → Pc
  | .exec cmds isBackground => .exec (front cmds) isBackground
  | .execute_pipeline cmds => .execute_pipeline (front cmds)
  | .fork p₀ p₁ cmd cmds => .fork p₀ p₁ cmd (front cmds)
  | .parentDup2 p₀ p₁ cmds => .parentDup2 p₀ p₁ (front cmds)
  | .parentClose p₁ cmds => .parentClose p₁ (front cmds)
  | pc => pc

def Proc.cut (p : Proc α) : Proc α := { p with pc := p.pc.cut }

def Line.cut : Line → Line
  | .run cmds isBackground => .run (front cmds) isBackground
  | line => line

def Env.cut (env : Env) : Env := { env with line := env.line.map Line.cut }

def Act.cut : Act α → Act α
  | .getline line => .getline (line.map Line.cut)
  | act => act

def Result.cut (r : Result α) : Result α := ⟨r.proc.cut, r.child.map Proc.cut, r.act.cut⟩

def System.cut (st : System α) : System α := { st with procs := fun pid => (st.procs pid).cut }

def Flow.cut (s : Flow α β) : Flow α β := { s with sys := s.sys.cut }

/-- **A system call** does the same with the front. -/
theorem step_proc_cut (p : Proc α) (env : Env) (k num : Nat) (exited : Nat → Bool) :
    p.cut.step env.cut k num exited = (p.step env k num exited).map Result.cut := by
  obtain ⟨fds, stdin, pc⟩ := p
  obtain ⟨ok, line⟩ := env
  cases pc with
  | main =>
    cases stdin with
    | false => rfl
    | true =>
      cases line with
      | none => rfl
      | some line => cases line <;> rfl
  | exec cmds isBackground => cases ok <;> cases isBackground <;> rfl
  | waitpid pid =>
    simp only [Proc.cut, Pc.cut, Proc.step]
    cases exited pid <;> rfl
  | execute_pipeline cmds =>
    cases cmds with
    | nil => rfl
    | cons cmd cmds =>
      simp only [Proc.cut, Pc.cut, front, Proc.step]
      cases cmd.stdout_pipe with
      | true => cases ok <;> rfl
      | false => cases cmd.stdout_file <;> cases ok <;> rfl
  | redirect | execLast | fork | childExec => cases ok <;> rfl
  | childDup2 | childClose | parentDup2 | parentClose | running | exited => rfl

@[simp] theorem cut_eq_exited {pc : Pc} : pc.cut = .exited ↔ pc = .exited := by
  cases pc <;> simp [Pc.cut]

@[simp] theorem cut_eq_running {pc : Pc} : pc.cut = .running cmd ↔ pc = .running cmd := by
  cases pc <;> simp [Pc.cut]

theorem exited_cut (st : System α) : st.cut.exited = st.exited := by
  funext pid
  simp [System.exited, System.cut, Proc.cut]

@[simp] theorem Act.pipes_cut (act : Act α) : act.cut.pipes = act.pipes := by cases act <;> rfl

theorem after_cut (st : System α) (pid : Nat) (r : Result α) : st.cut.after pid r.cut = (st.after pid r).cut := by
  have hupdate : ∀ (procs : Nat → Proc α) (i : Nat) (p : Proc α),
      Function.update (fun j => (procs j).cut) i p.cut = fun j => (Function.update procs i p j).cut := by
    intro procs i p
    funext j
    by_cases hj : j = i
    · subst hj
      simp
    · simp [hj]
  obtain ⟨p, child, act⟩ := r
  cases child with
  | none => simp [System.after, System.cut, Result.cut, hupdate]
  | some child => simp [System.after, System.cut, Result.cut, hupdate]

theorem cut_logs (s : Flow α β) : s.cut.logs = s.logs := rfl

theorem cut_pipes (s : Flow α β) : s.cut.pipes = s.pipes := rfl

theorem cut_input (s : Flow α β) : s.cut.input = s.input := rfl

theorem cut_fds (s : Flow α β) (pid : Nat) : (s.cut.sys.procs pid).fds = (s.sys.procs pid).fds := rfl

theorem call_cut (s : Flow α β) (pid : Nat) (env : Env) : s.cut.call pid env.cut = (s.call pid env).map Flow.cut := by
  have hstep : (s.cut.sys.procs pid).step env.cut s.cut.sys.pipes s.cut.sys.num s.cut.sys.exited =
      ((s.sys.procs pid).step env s.sys.pipes s.sys.num s.sys.exited).map Result.cut := by
    rw [show s.cut.sys.exited = s.sys.exited from exited_cut s.sys]
    exact step_proc_cut _ _ _ _ _
  unfold Flow.call Pipeline.step
  by_cases hpid : pid < s.sys.num
  · rw [if_pos hpid, if_pos (show pid < s.cut.sys.num from hpid), hstep]
    cases (s.sys.procs pid).step env s.sys.pipes s.sys.num s.sys.exited with
    | none => rfl
    | some r => exact congrArg (fun sys => some { s with sys := sys }) (after_cut s.sys pid r)
  · rw [if_neg hpid, if_neg (show ¬pid < s.cut.sys.num from hpid)]
    rfl

theorem start_cut (t : FdTable α) (cmds : List CommandLine) (stdin : List β) :
    (Flow.start t cmds stdin).cut = .start t (front cmds) stdin := by
  have hprocs : (System.start t cmds).cut.procs = (System.start t (front cmds)).procs := by
    funext pid
    unfold System.cut System.start
    dsimp only
    split_ifs <;> rfl
  unfold Flow.cut Flow.start
  rw [Flow.mk.injEq]
  refine ⟨?_, rfl, rfl, rfl⟩
  exact congrArg (fun procs => (⟨2, procs, 0⟩ : System α)) hprocs

theorem hasExited_cut {st : System α} {i : Nat} : HasExited cmds st.cut i ↔ HasExited cmds st i :=
  and_congr_right fun _ => cut_eq_exited

section

variable [DecidableEq α]

/-- A process that is not a command makes the next call. -/
theorem step_eq_call {s : Flow α β} (env : Env) (hpid : ¬(pid = 0 ∨ s.sys.num ≤ pid))
    (hpc : ∀ cmd, (s.sys.procs pid).pc ≠ .running cmd) : s.step pid env prog cap = s.call pid env := by
  unfold Flow.step
  rw [if_neg hpid]
  split
  · rename_i cmd hrun
    exact absurd hrun (hpc cmd)
  · rfl

/-- **A step** does the same with the front. -/
theorem step_cut (s : Flow α β) (pid : Nat) (env : Env) :
    s.cut.step pid env.cut prog cap = (s.step pid env prog cap).map Flow.cut := by
  have hcall := call_cut s pid env
  by_cases hpid : pid = 0 ∨ s.sys.num ≤ pid
  · unfold Flow.step
    rw [if_pos hpid, if_pos (show pid = 0 ∨ s.cut.sys.num ≤ pid from hpid)]
    rfl
  by_cases hrun : ∃ cmd, (s.sys.procs pid).pc = .running cmd
  · obtain ⟨cmd, hpc⟩ := hrun
    have hpc' : (s.cut.sys.procs pid).pc = .running cmd := cut_eq_running.mpr hpc
    unfold Flow.step
    rw [if_neg hpid, if_neg (show ¬(pid = 0 ∨ s.cut.sys.num ≤ pid) from hpid), hpc, hpc', hcall]
    simp only [cut_logs, cut_input, cut_fds]
    cases prog cmd (s.logs pid) with
    | exit => rfl
    | read =>
      dsimp only
      split
      · rename_i j hfile
        rw [cut_pipes]
        cases s.pipes j with
        | cons b rest => rfl
        | nil =>
          dsimp only
          by_cases hopen : s.sys.hasOpen (.pipeWrite j) = true
          · have hopen' : s.cut.sys.hasOpen (.pipeWrite j) = true := hopen
            rw [if_pos hopen, if_pos hopen']
            rfl
          · have hopen' : ¬s.cut.sys.hasOpen (.pipeWrite j) = true := hopen
            rw [if_neg hopen, if_neg hopen']
            rfl
      · cases s.input <;> rfl
    | put b =>
      dsimp only
      split
      · rename_i j hfile
        by_cases hopen : s.sys.hasOpen (.pipeRead j) = true
        · have hopen' : s.cut.sys.hasOpen (.pipeRead j) = true := hopen
          rw [if_pos hopen, if_pos hopen']
          by_cases hroom : (s.pipes j).length < cap
          · have hroom' : (s.cut.pipes j).length < cap := hroom
            rw [if_pos hroom, if_pos hroom']
            rfl
          · have hroom' : ¬(s.cut.pipes j).length < cap := hroom
            rw [if_neg hroom, if_neg hroom']
            rfl
        · have hopen' : ¬s.cut.sys.hasOpen (.pipeRead j) = true := hopen
          rw [if_neg hopen, if_neg hopen']
      · rfl
  · rw [step_eq_call env hpid fun cmd h => hrun ⟨cmd, h⟩, ← hcall]
    exact step_eq_call env.cut hpid fun cmd h => hrun ⟨cmd, cut_eq_running.mp h⟩

/-- **A run** is one with the front. -/
theorem run_cut {calls : List (Nat × Env)} {s s' : Flow α β} (h : Run (FlowStep prog cap) s calls s') :
    Run (FlowStep prog cap) s.cut (calls.map fun call => (call.1, call.2.cut)) s'.cut := by
  refine h.map fun hs => ?_
  obtain ⟨pid, env, rfl, hs⟩ := hs
  exact ⟨pid, env.cut, rfl, by rw [step_cut, hs]; rfl⟩

theorem canGoOn_of_cut {s : Flow α β} (h : CanGoOn prog cap s.cut) : CanGoOn prog cap s := by
  obtain ⟨pid, hgo⟩ := h
  refine ⟨pid, fun env => ?_⟩
  have hcut := hgo env.cut
  rw [step_cut] at hcut
  simpa using hcut

/-- **The array behaves as its front.** -/
theorem flowInv_front {calls : List (Nat × Env)} {s : Flow α β} (hstd : Std t) (hwf : WellFormed (front cmds))
    (h : Run (FlowStep prog cap) (.start t cmds stdin) calls s) (hok : Succeed calls) :
    FlowInv prog t (front cmds) stdin s.cut := by
  have hcut := run_cut h
  rw [start_cut] at hcut
  refine flowInv hstd hwf hcut fun call hmem => ?_
  obtain ⟨call', hmem', rfl⟩ := List.mem_map.mp hmem
  exact hok call' hmem'

end

end Cs326.Pipeline

namespace Cs326.Prompt

open Dataflow Pipeline

variable {getenv : CString → Option CString} {toks cur : List CString} {behind : List (Option CString)} {st : Parse}
  {after : Option CString} {done : List CommandLine}

/-- The commands of a line do not all go into a pipe. -/
theorem exists_last_command (after : Option CString) (cur toks : List CString) :
    ∃ cmd ∈ commandLines after cur toks, cmd.stdout_pipe = false := by
  fun_induction commandLines with
  | case1 => exact ⟨_, List.mem_singleton_self _, rfl⟩
  | case2 cur tok rest hbar ih =>
    obtain ⟨cmd, hmem, hpipe⟩ := ih
    exact ⟨cmd, List.mem_cons_of_mem _ hmem, hpipe⟩
  | case3 => exact ⟨_, List.mem_cons_self, rfl⟩
  | case4 cur tok rest hbar hgt ih => exact ih

theorem array_eq (h : Parsed done toks st) : st.array = done.map CommandLine.typed := by
  unfold Parse.array
  rw [h.index, h.cmds]
  apply List.ext_getElem
  · simp
  · intro i hi hi'
    have hlt : i < done.length := by simpa using hi'
    simp [cmdsOf, hlt]

end Cs326.Prompt
