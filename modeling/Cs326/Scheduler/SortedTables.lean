import Cs326.Scheduler.Agreement
import Cs326.Scheduler.Termination

/-!
# Tables in order

`fifo`, `sjf` and `priority` each look for the process that is best by one key, the first one on ties. Where the table
is in the order of that key, the best process that waits is the first one that waits, which is what `basic` takes. So
the three make the same run as `basic` then (`sorted_eq_basic`).
-/

namespace Cs326.Scheduler

variable {algo : Algorithm} {specs : List ProcessSpec} {tr ev : List Event} {m m' : Machine} {s : SchedulerState}
  {inp : Input} {inps : List Input} {caller : Context}

/-- The table is in the order of the key that the algorithm compares. -/
def SortedFor (specs : List ProcessSpec) : Algorithm → Prop
  | .fifo => specs.Pairwise fun p q => p.creation_quantum.toNat ≤ q.creation_quantum.toNat
  | .sjf => specs.Pairwise fun p q => p.workload.toNat ≤ q.workload.toNat
  | .priority => specs.Pairwise fun p q => q.priority.toNat ≤ p.priority.toNat
  | _ => False

section Least

variable {α : Type*} [LinearOrder α] {key : ProcessCtlBlock → α} {bound : α}

/-- Of keys in order the first one that waits is the least. -/
theorem selectLeast_of_sorted (pid : Int)
    (hsorted : ∀ i j, i < j → j < s.num_processes → key (s.pcbs i) ≤ key (s.pcbs j))
    (h : Selectable s key bound) : selectLeast s key bound pid = basic s := by
  obtain ⟨i, hi, he, hw, -, hmin⟩ := selectLeast_of_selectable pid h
  have hfirst : firstProcess s s.waiting = some i := by
    cases hf : firstProcess s s.waiting with
    | none => rw [firstProcess_eq_none.mp hf i hi] at hw; cases hw
    | some j =>
      obtain ⟨hj, hwj, hlt⟩ := firstProcess_eq_some hf
      rcases Nat.lt_trichotomy i j with hij | rfl | hji
      · rw [hlt i hij] at hw
        cases hw
      · rfl
      · exact absurd (hsorted j i hji hi) (not_le.mpr ((hmin j hj hwj).2 hji))
  unfold basic
  rw [he, hfirst]

end Least

/-- **One call.** -/
theorem CallInv.run_of_sorted {k : Nat} {main_ctx : Context} (h : CallInv specs k caller main_ctx s)
    (hsorted : SortedFor specs algo) (hcov : Covered specs algo)
    (hw : ∃ i < specs.length, (s.pcbs i).state = .WAITING) (inp : Input) :
    algo.run s inp = Algorithm.basic.run s inp := by
  obtain ⟨w, hwn, hw⟩ := hw
  have hn : s.num_processes = specs.length := h.table.num
  have hwait : s.waiting w = true := waiting_iff.mpr hw
  have hmem : specs[w] ∈ specs := List.getElem_mem hwn
  cases algo with
  | basic | psjf | sctf | rr | insanity => exact absurd hsorted id
  | fifo =>
    have hidle : ¬(0 < s.current_quantum ∧ s.current_pcb.state = .RUNNING) :=
      fun hr => h.idle _ h.table.current hr.2
    refine congrArg some (if_neg hidle |>.trans (selectLeast_of_sorted inp.pid (fun i j hij hj => ?_) ⟨w, hn ▸ hwn,
      hwait, ?_⟩))
    · rw [h.table.creation_quantum, h.table.creation_quantum, load_creation_quantum (by omega),
        load_creation_quantum (by omega)]
      exact List.pairwise_iff_getElem.mp hsorted i j (by omega) (by omega) hij
    · show (s.pcbs w).creation_quantum < INT_MAX
      rw [h.table.creation_quantum, load_creation_quantum hwn]
      exact hcov _ hmem
  | sjf =>
    refine congrArg some (selectLeast_of_sorted 0 (fun i j hij hj => ?_) ⟨w, hn ▸ hwn, hwait, ?_⟩)
    · rw [h.table.workload (by omega), h.table.workload (by omega)]
      exact List.pairwise_iff_getElem.mp hsorted i j (by omega) (by omega) hij
    · show (s.pcbs w).workload < INT_MAX
      rw [h.table.workload hwn]
      exact hcov _ hmem
  | priority =>
    refine congrArg some (selectLeast_of_sorted 0 (fun i j hij hj => OrderDual.toDual_le_toDual.mpr ?_) ⟨w, hn ▸ hwn,
      hwait, OrderDual.toDual_lt_toDual.mpr ?_⟩)
    · rw [h.table.load_priority (by omega), h.table.load_priority (by omega)]
      exact List.pairwise_iff_getElem.mp hsorted i j (by omega) (by omega) hij
    · rw [h.table.load_priority hwn]
      exact hcov _ hmem

/-- The two machines go the same way, from wherever `basic` has come. -/
theorem Paced.exec_of_sorted (h : Paced specs tr m) (hinv : Inv specs tr m) (hgap : NoGap specs)
    (hsorted : SortedFor specs algo) (hcov : Covered specs algo) (hq : quanta tr + m.stepsLeft ≤ 2 ^ 32) :
    exec algo inps m = exec .basic inps m := by
  induction inps generalizing tr m with
  | nil => rfl
  | cons inp inps ih =>
    have hstep : Scheduler.step algo inp m = Scheduler.step .basic inp m :=
      step_congr fun caller hc => (hinv.toCall hc).run_of_sorted hsorted hcov (h.waits hinv hgap hc) inp
    unfold exec Run.execute
    rw [hstep]
    cases hs : Scheduler.step .basic inp m with
    | none => rfl
    | some next =>
      obtain ⟨m₁, ev⟩ := next
      have hm : m.control ≠ .finished := fun hm => by
        unfold Scheduler.step at hs
        rw [hm] at hs
        cases hs
      have hev := quanta_step_le hs
      have hle := h.two_le hinv hm
      have hq₁ : quanta (tr ++ ev) < 2 ^ 32 := by
        rw [quanta_append]
        omega
      obtain ⟨hinv₁, h₁, -, hleft⟩ := h.step hinv hgap (show Covered specs .basic from trivial) hs hq₁
      have hrest := ih h₁ hinv₁ (by rw [quanta_append]; omega)
      unfold exec at hrest
      dsimp only [Option.bind_some]
      rw [hrest]

/-- **`fifo`, `sjf` and `priority` make the run of `basic`** on a table in the order of their key. -/
theorem sorted_eq_basic (hne : specs ≠ []) (hgap : NoGap specs) (hsorted : SortedFor specs algo)
    (hcov : Covered specs algo) (hsmall : totalSteps specs < 2 ^ 32) (inps : List Input) :
    exec algo inps (Machine.init specs) = exec .basic inps (Machine.init specs) :=
  (paced_init hne).exec_of_sorted (inv_init hne) hgap hsorted hcov
    (by rw [quanta_nil, stepsLeft_init, Nat.zero_add]; exact hsmall)

/-- Two processes in the order of their workloads, under `sjf`. -/
theorem sorted_eq_basic_two :
    exec .sjf (List.replicate 129 ⟨false, [], 7⟩) (Machine.init [⟨"A", 0, 1, 0⟩, ⟨"B", 0, 2, 0⟩]) =
      exec .basic (List.replicate 129 ⟨false, [], 7⟩) (Machine.init [⟨"A", 0, 1, 0⟩, ⟨"B", 0, 2, 0⟩]) := by
  have hsorted : SortedFor [⟨"A", 0, 1, 0⟩, ⟨"B", 0, 2, 0⟩] .sjf := by
    unfold SortedFor
    decide
  have hcov : Covered [⟨"A", 0, 1, 0⟩, ⟨"B", 0, 2, 0⟩] .sjf := by
    unfold Covered
    decide
  exact sorted_eq_basic (by simp) (by unfold NoGap; decide) hsorted hcov (by decide) _

end Cs326.Scheduler
