import Cs326.Lib.CString
import Cs326.Lib.Loop
import Cs326.Text.NextToken
import Mathlib.Algebra.Group.Int.Defs

/-!
# Processing units

The loop of `main` in `inspector.c` that counts the processors: it takes lines of `stat` as long as they begin with a
`c`. `processing_units_iff` says what it prints for every text, and when it comes to no line any more and uses `NULL`.
-/

namespace Cs326.Inspector

open CharArray Text

variable {cap : Nat}

/-- The variables of the loop. -/
structure CpuLines (cap : Nat) where
  buf : CharArray cap
  next : Option Nat
  curr : Option Nat
  i : Int

/-- A round of the loop; `none`: it is over, or there is nothing that C defines. -/
def cpu_next : Except Undefined (CpuLines cap) → Option (Except Undefined (CpuLines cap))
  | .error _ => none
  | .ok s =>
    match s.curr with
    | none => some (.error .null)
    | some curr =>
      match s.buf.get curr with
      | .error e => some (.error e)
      | .ok b =>
        if b = 99 then
          some (do
            let (buf, next, curr) ← next_token s.buf s.next [10]
            return ⟨buf, next, curr, s.i + 1⟩)
        else none

/-- The number that is copied or printed to `cores`. -/
def cores (i : Int) : Int := if i = 0 then 1 else i - 1

/-- What the loop, on the contents of `buf`, and the lines behind it come to. -/
def PrintsUnits (buf : CharArray cap) (r : Except Undefined Int) : Prop :=
  ∃ t, Ends cpu_next (.ok ⟨buf, some 0, some 0, -1⟩) t ∧ r = t.map fun s => cores s.i

/-- The line begins with a `c`. -/
def isCpu (line : List UInt8) : Bool := line.head? == some 99

/-- The lines of a text that are counted. -/
def cpuLines (s : List UInt8) : List (List UInt8) := (tokens [10] s).takeWhile isCpu

variable {buf : CharArray cap} {s t : List UInt8} {ts : List (List UInt8)} {next : Option Nat} {q : Nat} {i : Int}
  {u : Except Undefined (CpuLines cap)}

theorem headD_eq_iff : t.headD 0 = 99 ↔ isCpu t = true := by
  cases t <;> simp [isCpu]

/-- A line that does not begin with a `c`. -/
theorem cpu_stop (h : StringAt buf q t) (hc : isCpu t = false) :
    cpu_next (.ok ⟨buf, next, some q, i⟩) = none := by
  have hne : t.headD 0 ≠ 99 := fun he => by simp [headD_eq_iff.mp he] at hc
  simp only [cpu_next, h.get, if_neg hne]

/-- A line that does. -/
theorem cpu_go_on (next : Option Nat) (i : Int) (h : StringAt buf q t) (hc : isCpu t = true) :
    cpu_next (.ok ⟨buf, next, some q, i⟩) =
      some (next_token buf next [10] >>= fun r => .ok ⟨r.1, r.2.1, r.2.2, i + 1⟩) := by
  simp only [cpu_next, h.get, if_pos (headD_eq_iff.mpr hc)]
  rfl

/-- The loop stops at `v`, whose `i` is `r`. -/
def StopsAt (s : Except Undefined (CpuLines cap)) (r : Except Undefined Int) : Prop :=
  ∃ v, (∀ u, Ends cpu_next s u ↔ u = v) ∧ v.map CpuLines.i = r

theorem StopsAt.round {s s' : Except Undefined (CpuLines cap)} {r : Except Undefined Int} (hnext : cpu_next s = some s')
    (h : StopsAt s' r) : StopsAt s r := by
  obtain ⟨v, hends, hi⟩ := h
  exact ⟨v, fun u => (ends_iff_next hnext).trans (hends u), hi⟩

theorem StopsAt.stop {s : Except Undefined (CpuLines cap)} (hnext : cpu_next s = none) : StopsAt s (s.map CpuLines.i) :=
  ⟨s, fun _ => ends_iff_stop hnext, rfl⟩

/-- What `i` is behind the lines `ts`. -/
def countTo (i : Int) (ts : List (List UInt8)) : Except Undefined Int :=
  let k := (ts.takeWhile isCpu).length
  if k < ts.length then .ok (i + k) else .error .null

theorem countTo_cons (hc : isCpu t = true) (i : Int) (ts : List (List UInt8)) :
    countTo i (t :: ts) = countTo (i + 1) ts := by
  unfold countTo
  dsimp only
  rw [List.takeWhile_cons_of_pos hc, List.length_cons, List.length_cons]
  by_cases h : (ts.takeWhile isCpu).length < ts.length
  · rw [if_pos h, if_pos (by omega)]
    congr 1
    omega
  · rw [if_neg h, if_neg (by omega)]

theorem countTo_cons_of_not (hc : isCpu t = false) (i : Int) (ts : List (List UInt8)) :
    countTo i (t :: ts) = .ok i := by
  unfold countTo
  rw [List.takeWhile_cons_of_neg (by simp [hc])]
  simp

/-- **The rest of the loop**, at the line `t` with the lines `ts` behind it. -/
theorem stopsAt_line (h : StringAt buf q t) (hcur : Cursor [10] buf next ts) :
    StopsAt (.ok ⟨buf, next, some q, i⟩) (countTo i (t :: ts)) := by
  induction ts generalizing buf next q t i with
  | nil =>
    cases hc : isCpu t with
    | false =>
      rw [countTo_cons_of_not hc]
      exact .stop (cpu_stop h hc)
    | true =>
      rw [countTo_cons hc]
      have hnone : next_token buf next [10] = .ok (buf, none, none) := next_token_nil (by decide) hcur
      have hnext := cpu_go_on next i h hc
      rw [hnone, ok_bind] at hnext
      exact .round hnext (.round rfl (.stop rfl))
  | cons t' ts ih =>
    cases hc : isCpu t with
    | false =>
      rw [countTo_cons_of_not hc]
      exact .stop (cpu_stop h hc)
    | true =>
      rw [countTo_cons hc]
      obtain ⟨buf', next', q', htok, h', hcur'⟩ := next_token_cons (by decide) hcur
      have hnext := cpu_go_on next i h hc
      rw [htok, ok_bind] at hnext
      exact .round hnext (ih h' hcur')

/-- A text that begins with a `c` has a first line that does. -/
theorem tokens_cpu (h : isCpu s = true) : ∃ t ts, tokens [10] s = t :: ts ∧ isCpu t = true := by
  have hcut := cut_pieces (fun b => [10].contains b) s
  unfold tokens
  generalize pieces _ s = ts at hcut
  -- nothing stands in front of the first line
  have hfront : ∀ {d r : List UInt8}, s = d ++ r → (∀ b ∈ d, [10].contains b = true) → d = [] := by
    intro d r hs hd
    cases d with
    | nil => rfl
    | cons b d =>
      have hb := hd b List.mem_cons_self
      rw [hs, show b = 10 by simpa using hb] at h
      exact absurd h (by simp [isCpu])
  have hhead : ∀ {t r : List UInt8}, s = t ++ r → t ≠ [] → isCpu t = true := by
    intro t r hs hne
    obtain ⟨b, t, rfl⟩ := List.exists_cons_of_ne_nil hne
    rwa [hs] at h
  cases hcut with
  | none hd =>
    obtain rfl := hfront (List.append_nil s).symm hd
    cases h
  | last hd ht =>
    obtain rfl := hfront rfl hd
    exact ⟨_, _, rfl, h⟩
  | more hd ht hc =>
    obtain rfl := hfront rfl hd
    exact ⟨_, _, rfl, hhead rfl ht.1⟩

/-- **What is printed**: −2 for a text that does not begin with a `c`; else one less than the number of lines in front
that do, and so the number of processors, if there is a line behind them. If there is none, `NULL` is used. -/
theorem processing_units_iff (hs : StringAt buf 0 s) (r : Except Undefined Int) : PrintsUnits buf r ↔
    r = if isCpu s = false then .ok (-2)
      else if (cpuLines s).length < (tokens [10] s).length then .ok ((cpuLines s).length - 1)
      else .error .null := by
  have hprints : ∀ {v : Except Undefined Int}, StopsAt (.ok ⟨buf, some 0, some 0, -1⟩) v →
      (PrintsUnits buf r ↔ r = v.map cores) := by
    intro v hstops
    obtain ⟨u, hends, rfl⟩ := hstops
    unfold PrintsUnits
    simp only [hends, exists_eq_left]
    cases u <;> rfl
  cases hc : isCpu s with
  | false => exact hprints (.stop (cpu_stop hs hc))
  | true =>
    obtain ⟨t, ts, hts, hfirst⟩ := tokens_cpu hc
    have hcur : Cursor [10] buf (some 0) (t :: ts) := ⟨s, hs, hts⟩
    obtain ⟨buf', next', q', htok, h', hcur'⟩ := next_token_cons (by decide) hcur
    have hnext := cpu_go_on (some 0) (-1) hs hc
    rw [htok, ok_bind] at hnext
    rw [hprints (.round hnext (stopsAt_line h' hcur')), if_neg (by simp)]
    unfold countTo cpuLines
    rw [hts, List.takeWhile_cons_of_pos hfirst, List.length_cons]
    dsimp only
    split_ifs
    · have hcores : cores (-1 + 1 + ((ts.takeWhile isCpu).length + 1 : Nat)) =
          ((ts.takeWhile isCpu).length + 1 : Nat) - 1 := by
        unfold cores
        rw [if_neg (by omega)]
        omega
      rw [← hcores]
      rfl
    · rfl

/-- One processor, and its line behind the one for all of them. -/
theorem processing_units_one : ∃ buf : CharArray 16, PrintsUnits buf (.ok 1) := by
  let s := chars ['c', 'p', 'u', '\n', 'c', 'p', 'u', '0', '\n', 'i', 'n', 't', 'r', '\n']
  have hs : StringAt (⟨s ++ [0, 0], rfl⟩ : CharArray 16) 0 s := ⟨by decide, [0], rfl⟩
  exact ⟨_, (processing_units_iff hs (.ok 1)).mpr (by decide)⟩

end Cs326.Inspector
