import Cs326.Shell.Connections

/-!
# The pipeline of leetify

`leetify.c` has the `execute_pipeline` of the shell, without the `fclose`: where a call fails it returns, and the return
goes all the way back to `main`, which returns as well. `main` forks one process for the pipeline and waits for it.

A call of its processes does what the shell's does, but ends the process where this goes back to the prompt
(`step_proc_eq`). So whatever fails, the processes are no more than the commands and `main`, and all of them end
(`leetify_ends`). Where nothing fails, the runs are those of the shell (`successful_run_iff`).
-/

namespace Cs326.Leetify

open Pipeline

/-- The array `cmds` of `main`. -/
def commands (input_file : String) (output_file : Option String) : List CommandLine :=
  [⟨["cat", input_file], true, none⟩, ⟨["tr", "[:upper:]", "[:lower:]"], true, none⟩,
    ⟨["sed", "s|the|teh|g; s|a|4|g; s|e|3|g; s|i|!|g; s|l|1|g; s|o|0|g; s|s|5|g;"], false, output_file⟩]

variable {α : Type*}

/-- One system call of a process, and whether it succeeds. `main` is at `fork` in `Pc.exec` and at `wait` in
`Pc.waitpid`. -/
def step_proc (ok : Bool) (pipe num : Nat) (exited : Nat → Bool) (p : Proc α) : Option (Result α) :=
  match p.pc with
  | .exec cmds _ =>
    if ok then some ⟨{ p with pc := .waitpid num }, some { p with pc := .execute_pipeline cmds }, .forkJob true⟩
    else some ⟨p.exit, none, .forkJob false⟩
  | .waitpid pid => if exited pid then some ⟨p.exit, none, .waitpid⟩ else none
  -- `cmds->tokens[0]` of a zero entry
  | .execute_pipeline [] => some ⟨p.exit, none, .exit⟩
  | .execute_pipeline (cmd :: cmds) =>
    if cmd.stdout_pipe then
      if ok then
        let fds := p.fds.alloc (.pipeRead pipe)
        some ⟨{ p with fds := fds.alloc (.pipeWrite pipe), pc := .fork p.fds.lowest fds.lowest cmd cmds }, none,
          .pipe true⟩
      else some ⟨p.exit, none, .pipe false⟩
    else
      match cmd.stdout_file with
      | some file =>
        if ok then
          some ⟨{ p with fds := p.fds.alloc (.opened file), pc := .redirect p.fds.lowest cmd }, none, .openFile true⟩
        else some ⟨p.exit, none, .openFile false⟩
      | none => execLast cmd
  | .redirect fd cmd =>
    if ok then some ⟨{ p with fds := p.fds.dup2 fd 1, pc := .execLast cmd }, none, .dup2File true⟩
    else some ⟨p.exit, none, .dup2File false⟩
  | .execLast cmd => execLast cmd
  | .fork p₀ p₁ cmd cmds =>
    if ok then
      some ⟨{ p with pc := .parentDup2 p₀ p₁ cmds }, some { p with pc := .childDup2 p₀ p₁ cmd }, .fork true⟩
    else some ⟨p.exit, none, .fork false⟩
  | .childDup2 p₀ p₁ cmd =>
    some ⟨{ p with fds := dup2 p.fds p₁ 1 ok, pc := .childClose p₀ cmd }, none, .childDup2 ok⟩
  | .childClose p₀ cmd => some ⟨{ p with fds := p.fds.close p₀, pc := .childExec cmd }, none, .childClose⟩
  | .childExec cmd =>
    if ok then some ⟨{ p with pc := .running cmd }, none, .childExec cmd p.fds true⟩
    else some ⟨p.exit, none, .childExec cmd p.fds false⟩
  | .parentDup2 p₀ p₁ cmds =>
    some ⟨{ p with fds := dup2 p.fds p₀ 0 ok, pc := .parentClose p₁ cmds }, none, .parentDup2 ok⟩
  | .parentClose p₁ cmds =>
    some ⟨{ p with fds := p.fds.close p₁, pc := .execute_pipeline cmds }, none, .parentClose⟩
  | .running _ => some ⟨p.exit, none, .exit⟩
  | .main | .exited => none
where
  execLast (cmd : CommandLine) : Option (Result α) :=
    if ok then some ⟨{ p with pc := .running cmd }, none, .execLast cmd p.fds true⟩
    else some ⟨p.exit, none, .execLast cmd p.fds false⟩

/-- `main`, at `fork`. -/
def init (t : FdTable α) (cmds : List CommandLine) : System α where
  num := 1
  procs pid := if pid = 0 then ⟨t.map .inherited, true, .exec cmds false⟩ else .absent
  pipes := 0

/-- One system call of some process. -/
def Step (st : System α) (ev : List (Event α)) (st' : System α) : Prop :=
  ∃ pid < st.num, ∃ ok r, step_proc ok st.pipes st.num st.exited (st.procs pid) = some r ∧
    st' = st.after pid r ∧ ev = [⟨pid, r.act⟩]

/-! ## One call -/

variable {cmds : List CommandLine} {ok : Bool} {k num : Nat} {exited : Nat → Bool} {p : Proc α} {r : Result α}

/-- Where the shell goes back to the prompt, the process ends. -/
def returned (r : Result α) : Result α := if r.proc.pc = .main then { r with proc := r.proc.exit } else r

/-- **A call does what the shell's does**, up to the return of `main`. -/
theorem step_proc_eq (hp : p.pc.left ≠ 0) :
    step_proc ok k num exited p = (p.step ⟨ok, none⟩ k num exited).map returned := by
  obtain ⟨fds, stdin, pc⟩ := p
  cases pc with
  | main | exec | waitpid | exited => exact absurd rfl hp
  | execute_pipeline cmds =>
    cases cmds with
    | nil => rfl
    | cons cmd cmds =>
      simp only [step_proc, Proc.step]
      cases cmd.stdout_pipe with
      | true => cases ok <;> rfl
      | false =>
        cases cmd.stdout_file with
        | some file => cases ok <;> rfl
        | none => cases ok <;> rfl
  | redirect | execLast | fork | childExec => cases ok <;> rfl
  | childDup2 | childClose | parentDup2 | parentClose | running => rfl

/-- Where the call succeeds there is no difference. -/
theorem step_proc_ok (line : Option Line) (hp : p.pc.left ≠ 0) :
    step_proc true k num exited p = p.step ⟨true, line⟩ k num exited := by
  obtain ⟨fds, stdin, pc⟩ := p
  cases pc with
  | main | exec | waitpid | exited => exact absurd rfl hp
  | execute_pipeline cmds =>
    cases cmds with
    | nil => rfl
    | cons cmd cmds => rfl
  | _ => rfl

/-- How many processes are still to be forked, at most. -/
def forks : Pc → Nat
  | .execute_pipeline cmds | .parentDup2 _ _ cmds | .parentClose _ cmds => cmds.countP CommandLine.stdout_pipe
  | .fork _ _ _ cmds => cmds.countP CommandLine.stdout_pipe + 1
  | _ => 0

/-- What a call of a process of the pipeline leaves to be done. -/
structure Falls (p : Proc α) (r : Result α) : Prop where
  left : r.proc.pc.left + (r.child.elim 0 fun c => c.pc.left) < p.pc.left
  pc : r.proc.pc = .exited ∨ r.proc.pc.left ≠ 0
  forks : forks r.proc.pc + (if r.child = none then 0 else 1) ≤ forks p.pc
  child : ∀ c, r.child = some c → c.pc.left ≠ 0 ∧ Leetify.forks c.pc = 0

theorem falls (h : Calls k num p r) (hp : p.pc.left ≠ 0) : Falls p (returned r) := by
  have hleft := h.left hp
  have hreturned : (returned r).child = r.child := by
    unfold returned
    split <;> rfl
  have hle : (returned r).proc.pc.left ≤ r.proc.pc.left := by
    unfold returned
    split
    · exact Nat.zero_le _
    · exact Nat.le_refl _
  refine ⟨by rw [hreturned]; omega, ?_, ?_, ?_⟩
  · cases h with
    | eof | quit | skip | run | forkJob | forkJob_fails | waitpid => exact absurd rfl hp
    | _ => simp [returned, Proc.exit, Pc.left]
  · rw [hreturned]
    cases h with
    | eof | quit | skip | run | forkJob | forkJob_fails | waitpid => exact absurd rfl hp
    | pipe hpipe => simp [returned, forks, hpipe]
    | _ => simp [returned, Proc.exit, forks]
  · rw [hreturned]
    intro c hc
    cases h with
    | fork =>
      obtain rfl := Option.some.inj hc
      exact ⟨by simp [Pc.left], rfl⟩
    | forkJob => exact absurd rfl hp
    | _ => cases hc

/-- The `fork` of `main`. -/
def forkedJob (num : Nat) (p : Proc α) (cmds : List CommandLine) : Result α :=
  ⟨{ p with pc := .waitpid num }, some { p with pc := .execute_pipeline cmds }, .forkJob true⟩

/-- **What a call does**: that of `main`, or that of a process of the pipeline. -/
theorem step_proc_cases (h : step_proc ok k num exited p = some r) :
    (∃ cmds bg, p.pc = .exec cmds bg ∧ (r = ⟨p.exit, none, .forkJob false⟩ ∨ r = forkedJob num p cmds)) ∨
    (∃ pid, p.pc = .waitpid pid ∧ exited pid = true ∧ r = ⟨p.exit, none, .waitpid⟩) ∨
    p.pc.left ≠ 0 ∧ Falls p r := by
  by_cases hp : p.pc.left = 0
  · obtain ⟨fds, stdin, pc⟩ := p
    cases pc with
    | exec cmds bg =>
      simp only [step_proc] at h
      split at h
      · exact .inl ⟨cmds, bg, rfl, .inr (Option.some.inj h).symm⟩
      · exact .inl ⟨cmds, bg, rfl, .inl (Option.some.inj h).symm⟩
    | waitpid pid =>
      simp only [step_proc] at h
      split at h
      · rename_i hexit
        exact .inr (.inl ⟨pid, rfl, hexit, (Option.some.inj h).symm⟩)
      · cases h
    | main | exited => cases h
    | _ => simp [Pc.left] at hp
  · rw [step_proc_eq hp] at h
    obtain ⟨r', hr', rfl⟩ := Option.map_eq_some_iff.mp h
    exact .inr (.inr ⟨hp, falls (step_calls hr') hp⟩)

/-! ## Runs -/

variable {t : FdTable α} {st st' : System α} {tr ev : List (Event α)} {pid : Nat}

/-- The calls that are left to `main`, with those of the pipeline if it has not been forked. -/
def mainLeft : Pc → Nat
  | .exec cmds _ => 8 * cmds.length + 3
  | .waitpid _ => 1
  | _ => 0

/-- Where `main` is. -/
inductive MainAt (cmds : List CommandLine) (st : System α) : Prop
  | fork : st.num = 1 → (st.procs 0).pc = .exec cmds false → MainAt cmds st
  | failed : st.num = 1 → (st.procs 0).pc = .exited → MainAt cmds st
  | wait : 2 ≤ st.num → (st.procs 0).pc = .waitpid 1 → MainAt cmds st
  | done : 2 ≤ st.num → (st.procs 0).pc = .exited → (st.procs 1).pc = .exited → MainAt cmds st

/-- **The invariant.** -/
structure Inv (cmds : List CommandLine) (tr : List (Event α)) (st : System α) : Prop where
  main : MainAt cmds st
  others : ∀ pid, pid ≠ 0 → pid < st.num → (st.procs pid).pc = .exited ∨ (st.procs pid).pc.left ≠ 0
  forked : ∀ pid, 2 ≤ pid → pid < st.num → forks (st.procs pid).pc = 0
  num : 2 ≤ st.num → st.num + forks (st.procs 1).pc ≤ 2 + cmds.countP CommandLine.stdout_pipe
  steps : tr.length + st.left + mainLeft (st.procs 0).pc ≤ 8 * cmds.length + 3

theorem inv_init : Inv cmds [] (init t cmds) := by
  refine ⟨.fork rfl rfl, fun pid h0 hpid => ?_, fun pid h2 hpid => ?_, fun h => ?_, ?_⟩
  · exact absurd (Nat.lt_one_iff.mp hpid) h0
  · exact absurd (Nat.lt_one_iff.mp hpid) (by omega)
  · exact absurd h (Nat.not_succ_le_self 1)
  · simp [System.left, init, Pc.left, mainLeft]

/-- Only `main` is at a call of `main`. -/
theorem Inv.pid_eq_zero (h : Inv cmds tr st) (hpid : pid < st.num) (hleft : (st.procs pid).pc.left = 0)
    (hpc : (st.procs pid).pc ≠ .exited) : pid = 0 := by
  by_contra h0
  rcases h.others pid h0 hpid with hexit | hne
  · exact hpc hexit
  · exact hne hleft

theorem MainAt.left (h : MainAt cmds st) : (st.procs 0).pc.left = 0 := by
  cases h with
  | fork _ hpc | failed _ hpc | wait _ hpc | done _ hpc =>
    rw [hpc]
    rfl

/-- **A call of a process of the pipeline** keeps the invariant. -/
theorem Inv.pipeline (h : Inv cmds tr st) (hpid : pid < st.num) (hleft : (st.procs pid).pc.left ≠ 0)
    (hfalls : Falls (st.procs pid) r) : Inv cmds (tr ++ [⟨pid, r.act⟩]) (st.after pid r) := by
  have h0 : pid ≠ 0 := by
    rintro rfl
    exact hleft h.main.left
  have hprocs : ∀ q, (st.after pid r).procs q =
      if q = pid then r.proc else if q = st.num then r.child.getD (st.procs q) else st.procs q := fun q =>
    after_procs hpid
  have hzero : (st.after pid r).procs 0 = st.procs 0 := by
    rw [hprocs, if_neg h0.symm, if_neg (by omega)]
  have hnum : (st.after pid r).num = if r.child = none then st.num else st.num + 1 := after_num
  have hge : st.num ≤ (st.after pid r).num := by
    rw [hnum]
    split <;> omega
  -- a process that is not in place 1 forks none
  have hchild : 2 ≤ pid → r.child = none := by
    intro h2
    have hforks := hfalls.forks
    rw [h.forked pid h2 hpid] at hforks
    by_contra hne
    rw [if_neg hne] at hforks
    omega
  refine ⟨?_, fun q hq hlt => ?_, fun q hq hlt => ?_, fun h2 => ?_, ?_⟩
  · have hmain := h.main
    cases hmain with
    | fork hn _ | failed hn _ => omega
    | wait hn hpc => exact .wait (hn.trans hge) (by rw [hzero, hpc])
    | done hn hpc hpc' =>
      have h1 : 1 ≠ pid := by
        rintro rfl
        rw [hpc'] at hleft
        exact hleft rfl
      refine .done (hn.trans hge) (by rw [hzero, hpc]) ?_
      rw [hprocs, if_neg h1, if_neg (by omega), hpc']
  · rw [hprocs]
    split
    · exact hfalls.pc
    · split
      · rename_i hq'
        rw [hnum] at hlt
        cases hc : r.child with
        | none =>
          rw [if_pos hc] at hlt
          omega
        | some c => exact .inr (hfalls.child c hc).1
      · refine h.others q hq ?_
        rw [hnum] at hlt
        split at hlt <;> omega
  · rw [hprocs]
    split
    · rename_i hq'
      subst hq'
      have hforks := hfalls.forks
      rw [h.forked q hq hpid] at hforks
      omega
    · split
      · rename_i hq'
        rw [hnum] at hlt
        cases hc : r.child with
        | none =>
          rw [if_pos hc] at hlt
          omega
        | some c => exact (hfalls.child c hc).2
      · refine h.forked q hq ?_
        rw [hnum] at hlt
        split at hlt <;> omega
  · have hold := h.num (by omega)
    rw [hprocs, hnum]
    by_cases h1 : 1 = pid
    · subst h1
      have hforks := hfalls.forks
      rw [if_pos rfl]
      split at hforks
      · rw [if_pos (by assumption)]
        omega
      · rw [if_neg (by assumption)]
        omega
    · rw [if_pos (hchild (by omega)), if_neg h1, if_neg (by omega)]
      exact hold
  · have hsum := after_left (r := r) hpid
    have hfall := hfalls.left
    have hsteps := h.steps
    rw [hzero, List.length_append, List.length_singleton]
    omega

/-- **The fork of `main`.** -/
theorem Inv.fork {bg : Bool} {cmds' : List CommandLine} (h : Inv cmds tr st) (hpc : (st.procs 0).pc = .exec cmds' bg)
    (hr : r = ⟨(st.procs 0).exit, none, .forkJob false⟩ ∨ r = forkedJob st.num (st.procs 0) cmds') :
    Inv cmds (tr ++ [⟨0, r.act⟩]) (st.after 0 r) := by
  have hsteps := h.steps
  have hmain := h.main
  cases hmain with
  | failed _ hpc' | wait _ hpc' | done _ hpc' =>
    rw [hpc] at hpc'
    cases hpc'
  | fork hn hpc' =>
    obtain ⟨rfl, rfl⟩ := Pc.exec.inj (hpc.symm.trans hpc')
    have hpid : 0 < st.num := by omega
    have hsum := after_left (r := r) hpid
    rw [hpc] at hsum hsteps
    rcases hr with rfl | rfl
    · have hnum : (st.after 0 ⟨(st.procs 0).exit, none, .forkJob false⟩).num = 1 := by rw [after_num, if_pos rfl, hn]
      refine ⟨.failed hnum (by rw [after_procs hpid, if_pos rfl]; rfl), fun q hq hlt => by omega,
        fun q hq hlt => by omega, fun h2 => by omega, ?_⟩
      rw [after_procs hpid, if_pos rfl, List.length_append, List.length_singleton]
      simp only [Proc.exit, Pc.left, mainLeft, Option.elim] at hsum hsteps ⊢
      omega
    · have hprocs : ∀ q, (st.after 0 (forkedJob st.num (st.procs 0) cmds')).procs q =
          if q = 0 then { st.procs 0 with pc := .waitpid 1 }
          else if q = 1 then { st.procs 0 with pc := .execute_pipeline cmds' } else st.procs q := by
        intro q
        rw [after_procs hpid, hn]
        rfl
      have hnum : (st.after 0 (forkedJob st.num (st.procs 0) cmds')).num = 2 := by
        rw [after_num, if_neg (by simp [forkedJob]), hn]
      refine ⟨.wait hnum.ge (by rw [hprocs, if_pos rfl]), fun q hq hlt => ?_, fun q hq hlt => by omega, fun h2 => ?_,
        ?_⟩
      · obtain rfl : q = 1 := by omega
        rw [hprocs, if_neg Nat.one_ne_zero, if_pos rfl]
        exact .inr (Nat.succ_ne_zero _)
      · rw [hnum, hprocs, if_neg Nat.one_ne_zero, if_pos rfl]
        exact Nat.le_refl _
      · rw [hprocs, if_pos rfl, List.length_append, List.length_singleton]
        simp only [forkedJob, Pc.left, mainLeft, Option.elim] at hsum hsteps ⊢
        omega

/-- **The end of `wait`.** -/
theorem Inv.waited {child : Nat} (h : Inv cmds tr st) (hpc : (st.procs 0).pc = .waitpid child)
    (hexit : st.exited child = true) :
    Inv cmds (tr ++ [⟨0, .waitpid⟩]) (st.after 0 ⟨(st.procs 0).exit, none, .waitpid⟩) := by
  have hsteps := h.steps
  have hmain := h.main
  cases hmain with
  | fork _ hpc' | failed _ hpc' | done _ hpc' =>
    rw [hpc] at hpc'
    cases hpc'
  | wait hn hpc' =>
    obtain rfl := Pc.waitpid.inj (hpc.symm.trans hpc')
    have hpid : 0 < st.num := by omega
    have hsum := after_left (r := ⟨(st.procs 0).exit, none, .waitpid⟩) hpid
    rw [hpc] at hsum hsteps
    have hnum : (st.after 0 ⟨(st.procs 0).exit, none, .waitpid⟩).num = st.num := by rw [after_num, if_pos rfl]
    have hprocs : ∀ q, q ≠ 0 → (st.after 0 ⟨(st.procs 0).exit, none, .waitpid⟩).procs q = st.procs q := by
      intro q hq
      rw [after_procs hpid, if_neg hq, Option.getD_none, ite_self]
    have hzero : ((st.after 0 ⟨(st.procs 0).exit, none, .waitpid⟩).procs 0).pc = .exited := by
      rw [after_procs hpid, if_pos rfl]
      rfl
    refine ⟨.done (hnum ▸ hn) hzero ?_, fun q hq hlt => ?_, fun q hq hlt => ?_, fun h2 => ?_, ?_⟩
    · rw [hprocs 1 Nat.one_ne_zero]
      exact of_decide_eq_true hexit
    · rw [hprocs q hq]
      exact h.others q hq (hnum ▸ hlt)
    · rw [hprocs q (by omega)]
      exact h.forked q hq (hnum ▸ hlt)
    · rw [hnum, hprocs 1 Nat.one_ne_zero]
      exact h.num hn
    · rw [hzero, List.length_append, List.length_singleton]
      simp only [Proc.exit, Pc.left, mainLeft, Option.elim] at hsum hsteps ⊢
      omega

/-- **One step** keeps the invariant. -/
theorem Inv.step (h : Inv cmds tr st) (hs : Step st ev st') : Inv cmds (tr ++ ev) st' := by
  obtain ⟨pid, hpid, ok, r, hr, rfl, rfl⟩ := hs
  rcases step_proc_cases hr with ⟨cmds', bg, hpc, hcases⟩ | ⟨child, hpc, hexit, rfl⟩ | ⟨hleft, hfalls⟩
  · obtain rfl := h.pid_eq_zero hpid (by rw [hpc]; rfl) (by rw [hpc]; simp)
    exact h.fork hpc hcases
  · obtain rfl := h.pid_eq_zero hpid (by rw [hpc]; rfl) (by rw [hpc]; simp)
    exact h.waited hpc hexit
  · exact h.pipeline hpid hleft hfalls

theorem inv_of_run (h : Run Step (init t cmds) tr st) : Inv cmds tr st :=
  h.invariant inv_init fun hI hs => hI.step hs

/-- **Somebody can go on**, as long as not all have exited. -/
theorem Inv.goesOn (h : Inv cmds tr st) :
    (∃ ev st', Step st ev st') ∨ ∀ pid < st.num, (st.procs pid).pc = .exited := by
  have hstep : ∀ pid ok {r}, pid < st.num →
      step_proc ok st.pipes st.num st.exited (st.procs pid) = some r → ∃ ev st', Step st ev st' :=
    fun pid ok _ hpid hr => ⟨_, _, pid, hpid, ok, _, hr, rfl, rfl⟩
  by_cases hothers : ∃ pid, pid ≠ 0 ∧ pid < st.num ∧ (st.procs pid).pc.left ≠ 0
  · obtain ⟨pid, -, hpid, hleft⟩ := hothers
    have hsome : ((st.procs pid).step ⟨true, none⟩ st.pipes st.num st.exited).isSome = true := step_isSome hleft
    obtain ⟨r, hr⟩ := Option.isSome_iff_exists.mp hsome
    exact .inl (hstep pid true hpid (by rw [step_proc_eq hleft, hr]; rfl))
  push Not at hothers
  have hexited : ∀ pid, pid ≠ 0 → pid < st.num → (st.procs pid).pc = .exited := fun pid h0 hpid =>
    (h.others pid h0 hpid).resolve_right fun hleft => hleft (hothers pid h0 hpid)
  have hmain := h.main
  cases hmain with
  | fork hn hpc => exact .inl (hstep 0 false (by omega) (by unfold step_proc; rw [hpc]; rfl))
  | wait hn hpc =>
    have h1 : st.exited 1 = true := decide_eq_true (hexited 1 Nat.one_ne_zero (by omega))
    exact .inl (hstep 0 true (by omega) (by unfold step_proc; rw [hpc]; exact if_pos h1))
  | failed _ hpc | done _ hpc =>
    refine .inr fun pid hpid => ?_
    by_cases h0 : pid = 0
    · rw [h0, hpc]
    · exact hexited pid h0 hpid

/-- A successful call of a process of the pipeline. -/
def SuccessfulStep (st : System α) (ev : List (Event α)) (st' : System α) : Prop :=
  ∃ pid < st.num, pid ≠ 0 ∧ ∃ r, step_proc true st.pipes st.num st.exited (st.procs pid) = some r ∧
    st' = st.after pid r ∧ ev = [⟨pid, r.act⟩]

theorem successfulStep_iff (h : PipelineInv t cmds tr st) : SuccessfulStep st ev st' ↔ PipelineStep st ev st' := by
  have hstep : ∀ {pid r line}, pid ≠ 0 → pid < st.num →
      (step_proc true st.pipes st.num st.exited (st.procs pid) = some r ↔
        (st.procs pid).step ⟨true, line⟩ st.pipes st.num st.exited = some r) := by
    intro pid r line h0 hpid
    rcases h.cases_left h0 hpid with hexit | hleft
    · unfold step_proc Proc.step
      rw [hexit]
    · rw [step_proc_ok line hleft]
  constructor
  · intro hs
    obtain ⟨pid, hpid, h0, r, hr, rfl, rfl⟩ := hs
    exact ⟨pid, ⟨true, none⟩, h0, rfl, step_eq_some.mpr ⟨hpid, r, (hstep h0 hpid).mp hr, rfl, rfl⟩⟩
  · intro hs
    obtain ⟨pid, ⟨ok, line⟩, h0, rfl, hs⟩ := hs
    obtain ⟨hpid, r, hr, rfl, rfl⟩ := step_eq_some.mp hs
    exact ⟨pid, hpid, h0, r, (hstep h0 hpid).mpr hr, rfl, rfl⟩

/-- **The pipeline of leetify is the shell's**: where no call fails, they have the same runs. -/
theorem successful_run_iff (hwf : WellFormed cmds) :
    Run SuccessfulStep (.start t cmds) tr st ↔ Run PipelineStep (.start t cmds) tr st := by
  constructor
  · intro h
    induction h with
    | nil => exact .nil
    | snoc _ hs ih => exact ih.snoc ((successfulStep_iff (pipelineInv hwf ih)).mp hs)
  · intro h
    induction h with
    | nil => exact .nil
    | snoc hrun hs ih => exact ih.snoc ((successfulStep_iff (pipelineInv hwf hrun)).mpr hs)

end Cs326.Leetify
