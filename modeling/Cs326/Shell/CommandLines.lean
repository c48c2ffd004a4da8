import Cs326.Shell.Exec
import Cs326.Shell.Pipeline

/-!
# A pipeline from its tokens to its processes

The commands that `exec` makes of segments of words with `|` between them and at most one redirection behind the last,
and how far `execute_pipeline` gets in them: every entry that a process has gone past has `stdout_pipe` set.
-/

namespace Cs326.Pipeline

variable {α : Type*} {tr : List (Event α)} {st st' : System α} {p : Proc α} {r : Result α} {k num pid : Nat}
  {cmds rest : List CommandLine}

/-- The entries of `cmds` that are in front of a process in `execute_pipeline`. -/
def Pc.ahead : Pc → Option (List CommandLine)
  | .execute_pipeline cmds | .fork _ _ _ cmds | .parentDup2 _ _ cmds | .parentClose _ cmds => some cmds
  | _ => none

/-- `rest` is what is left of `cmds`, and all in front of it goes into a pipe. -/
def Behind (cmds rest : List CommandLine) : Prop :=
  ∃ front, cmds = front ++ rest ∧ ∀ cmd ∈ front, cmd.stdout_pipe = true

/-- Past an entry that goes into a pipe. -/
theorem Behind.next {cmd : CommandLine} (h : Behind cmds (cmd :: rest)) (hpipe : cmd.stdout_pipe = true) :
    Behind cmds rest := by
  obtain ⟨front, rfl, hfront⟩ := h
  refine ⟨front ++ [cmd], by simp, fun cmd' hcmd => ?_⟩
  rcases List.mem_append.mp hcmd with hcmd | hcmd
  · exact hfront _ hcmd
  · rwa [List.mem_singleton.mp hcmd]

/-- Whatever is in front of the process is left of `cmds`. -/
def OnWay (cmds : List CommandLine) (p : Proc α) : Prop := ∀ rest, p.pc.ahead = some rest → Behind cmds rest

theorem OnWay.of_none (hp : p.pc.ahead = none) : OnWay cmds p := by
  intro rest hrest
  rw [hp] at hrest
  cases hrest

/-- **One system call** keeps a process on its way. A process that has returned to `main` leaves the next pipeline to
the one it forks. -/
theorem Calls.onWay (h : Calls k num p r) (hp : OnWay cmds p) : OnWay cmds r.proc := by
  have hahead : ∀ {q : Proc α} {rest : List CommandLine}, q.pc.ahead = some rest → Behind cmds rest → OnWay cmds q := by
    intro q rest hq hbehind rest' hrest
    obtain rfl := Option.some.inj (hq.symm.trans hrest)
    exact hbehind
  cases h with
  | @forkJob _ _ _ bg => exact .of_none (by cases bg <;> rfl)
  | pipe hpipe => exact hahead rfl ((hp _ rfl).next hpipe)
  | fork | parentDup2 | parentClose => exact hahead rfl (hp _ rfl)
  | _ => exact .of_none rfl

/-- **Every run** keeps it there. -/
theorem run_onWay (h : Run Step st tr st') (hpid : pid < st.num) (hp : OnWay cmds (st.procs pid)) :
    OnWay cmds (st'.procs pid) := by
  refine (Run.stable (I := fun st => pid < st.num ∧ OnWay cmds (st.procs pid)) ?_ h ⟨hpid, hp⟩).2
  rintro st ev st' ⟨hlt, hI⟩ ⟨q, env, hs⟩
  obtain ⟨hq, r, hr, rfl, rfl⟩ := step_eq_some.mp hs
  constructor
  · rw [after_num]
    split <;> omega
  · rw [after_procs hq]
    split
    · rename_i heq
      exact (step_calls hr).onWay (heq ▸ hI)
    · rw [if_neg (by omega)]
      exact hI

end Cs326.Pipeline

namespace Cs326.Prompt

/-- The bytes as characters. -/
def asString (s : CString) : String := String.ofList (s.bytes.map fun b => Char.ofNat b.toNat)

/-- An entry as `execute_pipeline` reads it. -/
def CommandLine.typed (cmd : CommandLine) : Pipeline.CommandLine :=
  ⟨(cmd.tokens.getD []).map asString, cmd.stdout_pipe, cmd.stdout_file.map asString⟩

/-- The array `cmds` for `execute_pipeline`, of which the entries behind `index` are zero. -/
def Parse.array (st : Parse) : List Pipeline.CommandLine :=
  (List.range (st.index + 1)).map fun i => (st.cmds i).typed

/-- The tokens of a pipeline of segments, whose output goes to `file`. -/
def pipelineTokens (segs : List (List CString)) (file : Option CString) : List CString :=
  List.intercalate [bar] segs ++
    match file with
    | none => []
    | some f => [gt, f]

/-- The commands of a pipeline. -/
def pipelineCommands (file : Option CString) : List (List CString) → List CommandLine
  | [] => []
  | [seg] => [⟨some seg, false, file⟩]
  | seg :: next :: segs => ⟨some seg, true, none⟩ :: pipelineCommands file (next :: segs)

variable {segs : List (List CString)} {seg words toks cur : List CString} {file after : Option CString} {f : CString}
  {behind : List (Option CString)} {i : Nat}

theorem pipelineCommands_length (file : Option CString) (segs : List (List CString)) :
    (pipelineCommands file segs).length = segs.length := by
  fun_induction pipelineCommands with
  | case1 | case2 => rfl
  | case3 seg next segs ih => exact congrArg (· + 1) ih

theorem pipelineCommands_getElem (file : Option CString) (hi : i < segs.length) : (pipelineCommands file segs)[i]? =
    some ⟨some segs[i], decide (i + 1 < segs.length), if i + 1 = segs.length then file else none⟩ := by
  fun_induction pipelineCommands generalizing i with
  | case1 => cases hi
  | case2 seg =>
    obtain rfl := Nat.lt_one_iff.mp hi
    rfl
  | case3 seg next segs ih =>
    cases i with
    | zero => simp
    | succ i =>
      rw [List.getElem?_cons_succ, ih (Nat.lt_of_succ_lt_succ hi)]
      simp

theorem pipelineTokens_cons (seg next : List CString) (segs : List (List CString)) (file : Option CString) :
    pipelineTokens (seg :: next :: segs) file = seg ++ bar :: pipelineTokens (next :: segs) file := by
  unfold pipelineTokens
  rw [List.intercalate_cons_cons, List.append_assoc, List.append_assoc, List.singleton_append]

/-! ## The commands of the tokens -/

/-- Words that are no operators belong to the current command. -/
theorem commandLines_words (hwords : ∀ w ∈ words, operator w = false) :
    commandLines after cur (words ++ toks) = commandLines after (cur ++ words) toks := by
  induction words generalizing cur with
  | nil => rw [List.append_nil, List.nil_append]
  | cons w words ih =>
    obtain ⟨hw, hwords⟩ := List.forall_mem_cons.mp hwords
    rcases commandLines_cons after cur w (words ++ toks) with ⟨_, heq⟩ | ⟨hop, _⟩
    · rw [List.cons_append, heq, ih hwords, List.append_assoc, List.singleton_append]
    · cases hw.symm.trans hop

theorem commandLines_bar : commandLines after cur (bar :: toks) =
    ⟨some cur, true, none⟩ :: commandLines after [] toks :=
  rfl

theorem commandLines_gt : commandLines after cur (gt :: toks) =
    ⟨some cur, false, toks.head?⟩ :: commandLines after [] toks :=
  rfl

/-- **The commands of a pipeline**, and behind them what the name of the file is taken for. -/
theorem commandLines_pipeline (hne : segs ≠ []) (hplain : ∀ seg ∈ segs, ∀ w ∈ seg, operator w = false) :
    commandLines after [] (pipelineTokens segs file) =
      pipelineCommands file segs ++ (file.toList.flatMap fun f => commandLines after [] [f]) := by
  fun_induction pipelineCommands with
  | case1 => exact absurd rfl hne
  | case2 seg =>
    have hseg := hplain seg (List.mem_singleton_self seg)
    unfold pipelineTokens
    rw [List.intercalate_singleton, commandLines_words hseg, List.nil_append]
    cases file with
    | none => rfl
    | some f =>
      rw [Option.toList_some, List.flatMap_singleton]
      exact commandLines_gt
  | case3 seg next segs ih =>
    obtain ⟨hseg, hplain⟩ := List.forall_mem_cons.mp hplain
    rw [pipelineTokens_cons, commandLines_words hseg, commandLines_bar, ih (List.cons_ne_nil _ _) hplain,
      List.nil_append, List.cons_append]

/-- The name of the file is no pipe, and at most one word. -/
theorem commandLines_file (after : Option CString) (f : CString) : ∀ cmd ∈ commandLines after [] [f],
    (cmd.tokens.getD []).length ≤ 1 ∧ (f.startsWith bar = false → cmd.stdout_pipe = false) := by
  have hwords : ∀ op, (wordsBefore op [] f).length ≤ 1 := by
    intro op
    unfold wordsBefore
    split <;> simp
  unfold commandLines
  split
  · rename_i hbar
    simp [commandLines, hwords, hbar]
  · split
    · simp [commandLines, hwords]
    · simp [commandLines]

theorem pipelineTokens_ne_nil (hne : segs ≠ []) (hseg : ∀ seg ∈ segs, seg ≠ []) : pipelineTokens segs file ≠ [] := by
  obtain ⟨seg, segs, rfl⟩ := List.exists_cons_of_ne_nil hne
  have hfirst := hseg seg List.mem_cons_self
  cases segs with
  | nil =>
    unfold pipelineTokens
    rw [List.intercalate_singleton]
    exact List.append_ne_nil_of_left_ne_nil hfirst _
  | cons next segs =>
    rw [pipelineTokens_cons]
    exact List.append_ne_nil_of_left_ne_nil hfirst _

/-- What `exec` makes of the tokens of a pipeline. -/
theorem exec_pipeline (getenv : CString → Option CString) (behind : List (Option CString)) (hne : segs ≠ [])
    (hseg : ∀ seg ∈ segs, seg ≠ []) (hplain : ∀ seg ∈ segs, ∀ w ∈ seg, operator w = false)
    (hvars : ∀ w ∈ (pipelineTokens segs file).take 2, w.head ≠ dollar) : ∃ after,
    Parsed (pipelineCommands file segs ++ (file.toList.flatMap fun f => commandLines after [] [f]))
      (pipelineTokens segs file) (exec getenv ((pipelineTokens segs file).map some ++ none :: behind)) := by
  have hlive : live ((pipelineTokens segs file).map some ++ none :: behind) = pipelineTokens segs file := live_eq _ rfl
  have hparsed := parse_eq _ (hlive.symm ▸ pipelineTokens_ne_nil hne hseg)
  rw [hlive, commandLines_pipeline hne hplain] at hparsed
  unfold exec
  rw [expandVars_eq getenv (hlive.symm ▸ hvars)]
  exact ⟨_, hparsed⟩

/-- The command of a segment. -/
theorem cmdsOf_pipeline (back : List CommandLine) (hi : i < segs.length) :
    cmdsOf (pipelineCommands file segs ++ back) i =
      ⟨some segs[i], decide (i + 1 < segs.length), if i + 1 = segs.length then file else none⟩ := by
  have hlt : i < (pipelineCommands file segs).length := by rwa [pipelineCommands_length]
  rw [cmdsOf, List.getElem?_append_left hlt, pipelineCommands_getElem file hi]
  rfl

/-- Behind the last segment nothing goes into a pipe. -/
theorem stdout_pipe_pipeline (hfile : ∀ f, file = some f → f.startsWith bar = false) (i : Nat) :
    (cmdsOf (pipelineCommands file segs ++ (file.toList.flatMap fun f => commandLines after [] [f])) i).stdout_pipe =
      decide (i + 1 < segs.length) := by
  by_cases hi : i < segs.length
  · rw [cmdsOf_pipeline _ hi]
  · have hge : (pipelineCommands file segs).length ≤ i := by
      rw [pipelineCommands_length]
      omega
    rw [decide_eq_false (by omega), cmdsOf, List.getElem?_append_right hge]
    generalize i - (pipelineCommands file segs).length = k
    cases hget : (file.toList.flatMap fun f => commandLines after [] [f])[k]? with
    | none => rfl
    | some cmd =>
      obtain ⟨f, hf, hmem⟩ := List.mem_flatMap.mp (List.mem_of_getElem? hget)
      exact (commandLines_file after f cmd hmem).2 (hfile f (Option.mem_toList.mp hf))

/-- The commands have no more words than the segments. -/
theorem words_of_pipeline {n : Nat} (hseg : ∀ seg ∈ segs, seg.length ≤ n) (hn : 1 ≤ n) {cmd : CommandLine}
    (hmem : cmd ∈ pipelineCommands file segs ++ (file.toList.flatMap fun f => commandLines after [] [f])) :
    (cmd.tokens.getD []).length ≤ n := by
  rcases List.mem_append.mp hmem with hmem | hmem
  · obtain ⟨i, hi, hget⟩ := List.getElem_of_mem hmem
    have hi' : i < segs.length := by rwa [pipelineCommands_length] at hi
    have hget' := pipelineCommands_getElem file hi'
    rw [List.getElem?_eq_getElem hi, hget] at hget'
    rw [Option.some.inj hget']
    exact hseg _ (List.getElem_mem hi')
  · obtain ⟨f, _, hmem⟩ := List.mem_flatMap.mp hmem
    exact Nat.le_trans (commandLines_file after f cmd hmem).1 hn

theorem array_getElem {st : Parse} {cmd : Pipeline.CommandLine} (h : st.array[i]? = some cmd) :
    cmd = (st.cmds i).typed := by
  unfold Parse.array at h
  rw [List.getElem?_map] at h
  obtain ⟨j, hj, rfl⟩ := Option.map_eq_some_iff.mp h
  rw [(List.getElem?_eq_some_iff.mp hj).2.symm, List.getElem_range]

/-- A process does not get past an entry that does not go into a pipe. -/
theorem le_of_behind {st : Parse} {rest : List Pipeline.CommandLine} (h : Pipeline.Behind st.array rest)
    (hlast : (st.cmds i).stdout_pipe = false) : ∃ j ≤ i, rest = st.array.drop j := by
  obtain ⟨front, harray, hfront⟩ := h
  refine ⟨front.length, ?_, by rw [harray, List.drop_left]⟩
  by_contra hgt
  have hlt : i < front.length := Nat.lt_of_not_le hgt
  have hget : st.array[i]? = some front[i] := by
    rw [harray, List.getElem?_append_left hlt, List.getElem?_eq_getElem hlt]
  have hpipe := hfront _ (List.getElem_mem hlt)
  rw [array_getElem hget] at hpipe
  cases hlast.symm.trans hpipe

/-- **The pipeline** of the segments, one command for each, the pipes between them and the file behind the last. The
process that `execute_pipeline` is called in gets no further than the command of the last segment. -/
theorem pipeline_parsing (getenv : CString → Option CString) (segs : List (List CString)) (file : Option CString)
    (behind : List (Option CString)) (hne : segs ≠ []) (hseg : ∀ seg ∈ segs, seg ≠ [] ∧ seg.length ≤ 624)
    (hplain : ∀ seg ∈ segs, ∀ w ∈ seg, operator w = false)
    (hvars : ∀ w ∈ (pipelineTokens segs file).take 2, w.head ≠ dollar) :
    let st := exec getenv ((pipelineTokens segs file).map some ++ none :: behind)
    (∀ (i : Nat) (hi : i < segs.length), st.cmds i =
      ⟨some segs[i], decide (i + 1 < segs.length), if i + 1 = segs.length then file else none⟩) ∧
    ((∀ f, file = some f → f.startsWith bar = false) → ∀ i, (st.cmds i).stdout_pipe = decide (i + 1 < segs.length)) ∧
    (∀ pos ∈ st.written, pos < 625) ∧
    ∀ {α : Type*} (sys : Pipeline.System α) (pid : Nat), pid < sys.num →
      (sys.procs pid).pc = .execute_pipeline st.array → ∀ tr sys', Run Pipeline.Step sys tr sys' →
        ∀ rest, (sys'.procs pid).pc = .execute_pipeline rest → ∃ i < segs.length, rest = st.array.drop i := by
  intro st
  obtain ⟨after, hst⟩ := exec_pipeline getenv behind hne (fun seg hmem => (hseg seg hmem).1) hplain hvars
  have hcmds : ∀ (i : Nat) (hi : i < segs.length), st.cmds i =
      ⟨some segs[i], decide (i + 1 < segs.length), if i + 1 = segs.length then file else none⟩ := by
    intro i hi
    rw [hst.cmds, cmdsOf_pipeline _ hi]
  refine ⟨hcmds, fun hfile i => ?_, fun pos hpos => ?_, ?_⟩
  · rw [hst.cmds, stdout_pipe_pipeline hfile]
  · rw [hst.written] at hpos
    obtain ⟨cmd, hmem, hpos⟩ := List.mem_flatMap.mp hpos
    have hwords := words_of_pipeline (fun seg hmem => (hseg seg hmem).2) (by omega) hmem
    have hpos := List.mem_range.mp hpos
    omega
  · intro α sys pid hpid hpc tr sys' hrun rest hpc'
    have hstart : Pipeline.OnWay st.array (sys.procs pid) := by
      intro rest hrest
      rw [hpc] at hrest
      obtain rfl := Option.some.inj hrest
      exact ⟨[], rfl, nofun⟩
    have hbehind := Pipeline.run_onWay hrun hpid hstart rest (by rw [hpc']; rfl)
    -- the last segment does not go into a pipe
    have hpos := List.length_pos_of_ne_nil hne
    have hlast : (st.cmds (segs.length - 1)).stdout_pipe = false := by
      rw [hcmds _ (by omega)]
      exact decide_eq_false (by omega)
    obtain ⟨i, hi, hrest⟩ := le_of_behind hbehind hlast
    exact ⟨i, by omega, hrest⟩

/-- `ls -l | wc > out`. -/
theorem pipeline_parsing_two :
    let ls := [literal ['l', 's'], literal ['-', 'l']]
    let wc := [literal ['w', 'c']]
    let out := literal ['o', 'u', 't']
    ∃ st, st = exec (fun _ => none) ((pipelineTokens [ls, wc] (some out)).map some ++ none :: []) ∧
      st.cmds 0 = ⟨some ls, true, none⟩ ∧ st.cmds 1 = ⟨some wc, false, some out⟩ ∧ ∀ pos ∈ st.written, pos < 625 := by
  intro ls wc out
  have hseg : ∀ seg ∈ [ls, wc], seg ≠ [] ∧ seg.length ≤ 624 := by decide
  have hplain : ∀ seg ∈ [ls, wc], ∀ w ∈ seg, operator w = false := by decide
  have hvars : ∀ w ∈ (pipelineTokens [ls, wc] (some out)).take 2, w.head ≠ dollar := by decide
  obtain ⟨hcmds, _, hwritten, _⟩ :=
    pipeline_parsing.{0} (fun _ => none) [ls, wc] (some out) [] (by decide) hseg hplain hvars
  exact ⟨_, rfl, hcmds 0 Nat.two_pos, hcmds 1 Nat.one_lt_two, hwritten⟩

end Cs326.Prompt
