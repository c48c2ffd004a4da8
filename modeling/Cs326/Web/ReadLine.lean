import Cs326.Lib.Run
import Cs326.Web.Lines

/-!
# Successive lines

`read_line` on a stream, call after call, with a buffer of any length that holds anything. A call reads a line with
its newline (`read_line_newline`), fills the buffer (`read_line_full`), or comes to the end of the stream
(`read_line_end`); it reports `0` in front of a newline as at the end. So the calls deliver the stream if and only if no
newline comes where a call starts, and nothing is left over at the end (`read_line_separates_iff`).
-/

namespace Cs326.Web

open CharArray

variable {env : Env} {length : Nat} {buf : CharArray length} {line rest stream : List UInt8}

/-! ## Calls -/

/-- One call. -/
structure LineCall where
  /-- What is to be read. -/
  input : List UInt8
  ret : Int
  /-- The buffer after the call. -/
  buf : List UInt8
  /-- What is left. -/
  rest : List UInt8

/-- The bytes of a positive count, and the newline if it was consumed. -/
def LineCall.delivered (c : LineCall) : List UInt8 :=
  if 0 < c.ret then
    c.buf.take c.ret.toNat ++ if c.rest.length + c.ret.toNat < c.input.length then [10] else []
  else []

/-- A call, whatever is in the buffer. -/
def Called (env : Env) (length : Nat) (input : List UInt8) (calls : List LineCall) (rest : List UInt8) : Prop :=
  ∃ (buf buf' : CharArray length) (ret : Int),
    read_line env buf length input = .ok (buf', ret, rest) ∧ calls = [⟨input, ret, buf'.bytes, rest⟩]

/-- Successive calls tell the lines from the end of the stream. -/
structure SeparatesLines (env : Env) (length : Nat) (stream : List UInt8) : Prop where
  /-- `0` is returned at the end only. -/
  eof : ∀ {calls rest}, Run (Called env length) stream calls rest → ∀ c ∈ calls, c.ret = 0 → c.input = []
  /-- Unless a `read` fails, what was delivered at the end is the stream. -/
  whole : ∀ {calls}, Run (Called env length) stream calls [] → (∀ c ∈ calls, c.ret ≠ -1) →
    calls.flatMap LineCall.delivered = stream

/-! ## What one call reads -/

/-- A line, and its newline. -/
theorem read_line_newline (env : Env) (buf : CharArray length) (h10 : 10 ∉ line) (hlt : line.length < length)
    (rest : List UInt8) : ∃ buf' : CharArray length,
      read_line env buf length (line ++ 10 :: rest) = .ok (buf', line.length, rest) ∧
        buf'.bytes.take line.length = line := by
  obtain ⟨buf', hread, hbuf'⟩ := read_loop_over env buf [] buf.bytes (line ++ 10 :: rest) rfl
  have hline : (line ++ [10]).take length = line ++ [10] :=
    List.take_of_length_le (by rw [List.length_append, List.length_singleton]; omega)
  rw [buf.length_eq, lineOf_newline h10, hline] at hread
  rw [buf.length_eq, lineOf_newline h10, hline] at hbuf'
  refine ⟨buf', ?_, ?_⟩
  · have hret : read_returns_over env 0 length buf.bytes (line ++ [10]) = line.length := by
      simp [read_returns_over, read_returns]
    have hrest : (line ++ 10 :: rest).drop (line ++ [10]).length = rest := by
      rw [List.append_cons line 10 rest, List.drop_left]
    rw [List.length_nil, hret, hrest] at hread
    exact hread
  · rw [hbuf', List.nil_append, List.append_assoc, List.take_left]

/-- As much as there is room for. -/
theorem read_line_full (env : Env) (buf : CharArray length) (h10 : 10 ∉ line) (hlen : line.length = length)
    (rest : List UInt8) : ∃ buf' : CharArray length,
      read_line env buf length (line ++ rest) = .ok (buf', line.length, rest) ∧
        buf'.bytes.take line.length = line := by
  obtain ⟨buf', hread, hbuf'⟩ := read_loop_over env buf [] buf.bytes (line ++ rest) rfl
  rw [buf.length_eq, lineOf_full h10 hlen] at hread
  rw [buf.length_eq, lineOf_full h10 hlen] at hbuf'
  refine ⟨buf', ?_, ?_⟩
  · have hret : read_returns_over env 0 length buf.bytes line = line.length := by
      simp [read_returns_over, read_returns, h10, hlen]
    rw [List.length_nil, hret, List.drop_left] at hread
    exact hread
  · rw [hbuf', List.nil_append, List.take_left]

/-- The end of the stream. -/
theorem read_line_end (env : Env) (buf : CharArray length) (h10 : 10 ∉ line) (hlt : line.length < length) :
    ∃ (buf' : CharArray length) (ret : Int), read_line env buf length line = .ok (buf', ret, []) ∧
      (ret = line.length ∧ buf'.bytes.take line.length = line ∨ ret = -1 ∨ ret = 0 ∧ env.read_fails = false) ∧
      (buf.bytes = List.replicate length 0 → env.read_fails = false → ret = 0) := by
  obtain ⟨buf', hread, hbuf'⟩ := read_loop_over env buf [] buf.bytes line rfl
  rw [buf.length_eq, lineOf_last h10 (Nat.le_of_lt hlt), List.length_nil, List.drop_length] at hread
  rw [buf.length_eq, lineOf_last h10 (Nat.le_of_lt hlt)] at hbuf'
  have hplain : read_returns env 0 length line = if env.read_fails then -1 else 0 := by
    unfold read_returns
    rw [if_neg h10, if_neg (Nat.ne_of_lt hlt)]
  refine ⟨buf', _, hread, ?_, ?_⟩
  · unfold read_returns_over
    split_ifs with hstale
    · left
      refine ⟨by rw [Nat.zero_add], ?_⟩
      rw [hbuf', List.nil_append, List.take_left]
    · right
      rw [hplain]
      cases env.read_fails with
      | true => exact .inl rfl
      | false => exact .inr ⟨rfl, rfl⟩
  · intro hzero hfails
    rw [hzero, read_returns_over_zero, hplain, hfails]
    rfl

/-! ## Lines of a stream -/

/-- The lines that end with a newline. -/
def endedLines (stream : List UInt8) : List (List UInt8) := (stream.splitOn 10).dropLast

/-- What is behind the last newline. -/
def lastLine (stream : List UInt8) : List UInt8 := (stream.splitOn 10).getLast (List.splitOn_ne_nil 10 stream)

theorem endedLines_cons (h10 : 10 ∉ line) (rest : List UInt8) :
    endedLines (line ++ 10 :: rest) = line :: endedLines rest := by
  unfold endedLines
  rw [List.splitOn_append_cons_self_of_not_mem h10, List.dropLast_cons_of_ne_nil (List.splitOn_ne_nil 10 rest)]

theorem lastLine_cons (h10 : 10 ∉ line) (rest : List UInt8) : lastLine (line ++ 10 :: rest) = lastLine rest := by
  unfold lastLine
  simp only [List.splitOn_append_cons_self_of_not_mem h10]
  exact List.getLast_cons (List.splitOn_ne_nil 10 rest)

theorem endedLines_last (h10 : 10 ∉ line) : endedLines line = [] := by
  unfold endedLines
  rw [List.splitOn_eq_singleton h10]
  rfl

theorem lastLine_last (h10 : 10 ∉ line) : lastLine line = line := by
  unfold lastLine
  simp only [List.splitOn_eq_singleton h10]
  rfl

/-- No newline comes where a call starts, and a call at the end has nothing left to read. -/
def LinesFit (env : Env) (length : Nat) (stream : List UInt8) : Prop :=
  (∀ line ∈ endedLines stream, ¬length ∣ line.length) ∧
    (env.read_fails = false → length ∣ (lastLine stream).length)

theorem linesFit_newline (h10 : 10 ∉ line) (hlt : line.length < length) :
    LinesFit env length (line ++ 10 :: rest) ↔ line ≠ [] ∧ LinesFit env length rest := by
  have hdvd : ¬length ∣ line.length ↔ line ≠ [] := by
    refine not_congr ⟨fun h => ?_, fun h => ?_⟩
    · exact List.length_eq_zero_iff.mp (Nat.eq_zero_of_dvd_of_lt h hlt)
    · rw [h]
      exact Nat.dvd_zero length
  unfold LinesFit
  rw [endedLines_cons h10, lastLine_cons h10, List.forall_mem_cons, hdvd, and_assoc]

theorem linesFit_last (h10 : 10 ∉ line) (hlt : line.length < length) :
    LinesFit env length line ↔ (env.read_fails = false → line = []) := by
  unfold LinesFit
  rw [endedLines_last h10, lastLine_last h10, and_iff_right (by simp)]
  refine imp_congr_right fun _ => ⟨fun h => ?_, fun h => ?_⟩
  · exact List.length_eq_zero_iff.mp (Nat.eq_zero_of_dvd_of_lt h hlt)
  · rw [h]
    exact Nat.dvd_zero length

theorem linesFit_full (h10 : 10 ∉ line) (hlen : line.length = length) :
    LinesFit env length (line ++ rest) ↔ LinesFit env length rest := by
  have hdvd : ∀ r : List UInt8, length ∣ (line ++ r).length ↔ length ∣ r.length := by
    intro r
    rw [List.length_append, hlen]
    exact Nat.dvd_add_right (Nat.dvd_refl length)
  unfold LinesFit
  by_cases hr10 : 10 ∈ rest
  · obtain ⟨r, rest', rfl, hr⟩ := List.eq_append_cons_of_mem hr10
    have happ : 10 ∉ line ++ r := fun h => (List.mem_append.mp h).elim h10 hr
    rw [← List.append_assoc, endedLines_cons happ, endedLines_cons hr, lastLine_cons happ, lastLine_cons hr]
    rw [List.forall_mem_cons, List.forall_mem_cons, hdvd]
  · have happ : 10 ∉ line ++ rest := fun h => (List.mem_append.mp h).elim h10 hr10
    rw [endedLines_last happ, endedLines_last hr10, lastLine_last happ, lastLine_last hr10, hdvd]

/-- What there is to read. -/
theorem stream_cases (length : Nat) (stream : List UInt8) :
    (∃ line rest, stream = line ++ 10 :: rest ∧ 10 ∉ line ∧ line.length < length) ∨
      (∃ line rest, stream = line ++ rest ∧ 10 ∉ line ∧ line.length = length) ∨
        10 ∉ stream ∧ stream.length < length := by
  have hlong : ∀ {line rest : List UInt8}, 10 ∉ line → length ≤ line.length →
      ∃ line' rest', line ++ rest = line' ++ rest' ∧ 10 ∉ line' ∧ line'.length = length := by
    intro line rest h10 hle
    refine ⟨line.take length, line.drop length ++ rest, ?_, fun h => h10 (List.mem_of_mem_take h), ?_⟩
    · rw [← List.append_assoc, List.take_append_drop]
    · rw [List.length_take, Nat.min_eq_left hle]
  by_cases hm : 10 ∈ stream
  · obtain ⟨line, rest, rfl, h10⟩ := List.eq_append_cons_of_mem hm
    rcases Nat.lt_or_ge line.length length with hlt | hle
    · exact .inl ⟨line, rest, rfl, h10, hlt⟩
    · exact .inr (.inl (hlong h10 hle))
  · rcases Nat.lt_or_ge stream.length length with hlt | hle
    · exact .inr (.inr ⟨hm, hlt⟩)
    · right
      left
      obtain ⟨line, rest, hsplit, hline⟩ : ∃ line rest, stream ++ [] = line ++ rest ∧ _ := hlong hm hle
      exact ⟨line, rest, by rw [← hsplit, List.append_nil], hline⟩

/-! ## Successive calls -/

/-- A positive count. -/
theorem LineCall.delivered_eq {c : LineCall} (hret : c.ret = line.length) (hbuf : c.buf.take line.length = line)
    (hne : line ≠ []) :
    c.delivered = line ++ if c.rest.length + line.length < c.input.length then [10] else [] := by
  have hpos := List.length_pos_iff.mpr hne
  unfold delivered
  rw [if_pos (by omega), hret, Int.toNat_natCast, hbuf]

variable {bytes : List UInt8}

/-- A line, and the newline put back. -/
theorem LineCall.delivered_newline (hbuf : bytes.take line.length = line) (hne : line ≠ []) (rest : List UInt8) :
    LineCall.delivered ⟨line ++ 10 :: rest, line.length, bytes, rest⟩ ++ rest = line ++ 10 :: rest := by
  have hless : rest.length + line.length < (line ++ 10 :: rest).length := by
    rw [List.length_append, List.length_cons]
    omega
  rw [delivered_eq rfl hbuf hne, if_pos hless, List.append_assoc, List.singleton_append]

/-- A call that takes no newline. -/
theorem LineCall.delivered_full (hbuf : bytes.take line.length = line) (hne : line ≠ []) (rest : List UInt8) :
    LineCall.delivered ⟨line ++ rest, line.length, bytes, rest⟩ ++ rest = line ++ rest := by
  have hall : ¬rest.length + line.length < (line ++ rest).length := by
    rw [List.length_append]
    omega
  rw [delivered_eq rfl hbuf hne, if_neg hall, List.append_nil]

/-- **One call on a stream that fits.** -/
theorem Called.sound {c : LineCall} (h : Called env length stream [c] rest) (hlen : 0 < length)
    (hfit : LinesFit env length stream) :
    (c.ret = 0 → c.input = []) ∧ (c.ret ≠ -1 → c.delivered ++ rest = stream) ∧ LinesFit env length rest := by
  obtain ⟨buf, buf', ret, hread, hc⟩ := h
  obtain rfl := (List.cons.inj hc).1
  rcases stream_cases length stream with ⟨line, rest', rfl, h10, hlt⟩ | ⟨line, rest', rfl, h10, hline⟩ | ⟨h10, hlt⟩
  · obtain ⟨hne, hfit⟩ := (linesFit_newline h10 hlt).mp hfit
    have hpos := List.length_pos_iff.mpr hne
    obtain ⟨buf₁, hread₁, hbuf₁⟩ := read_line_newline env buf h10 hlt rest'
    cases hread.symm.trans hread₁
    refine ⟨fun h0 => ?_, fun _ => LineCall.delivered_newline hbuf₁ hne _, hfit⟩
    dsimp only at h0
    omega
  · have hne : line ≠ [] := List.length_pos_iff.mp (by omega)
    obtain ⟨buf₁, hread₁, hbuf₁⟩ := read_line_full env buf h10 hline rest'
    cases hread.symm.trans hread₁
    refine ⟨fun h0 => ?_, fun _ => LineCall.delivered_full hbuf₁ hne _, (linesFit_full h10 hline).mp hfit⟩
    dsimp only at h0
    omega
  · have hend := (linesFit_last h10 hlt).mp hfit
    obtain ⟨buf₁, ret₁, hread₁, hret, -⟩ := read_line_end env buf h10 hlt
    cases hread.symm.trans hread₁
    have hrest : LinesFit env length [] := (linesFit_last (by simp) hlen).mpr fun _ => rfl
    by_cases hnil : stream = []
    · subst hnil
      refine ⟨fun _ => rfl, fun h1 => ?_, hrest⟩
      have h0 : ret = 0 := by
        rcases hret with ⟨h0, -⟩ | hfail | ⟨h0, -⟩
        · exact h0
        · exact absurd hfail h1
        · exact h0
      rw [LineCall.delivered, if_neg (by dsimp only; omega)]
      rfl
    · have hpos := List.length_pos_iff.mpr hnil
      rcases hret with ⟨rfl, hbuf₁⟩ | rfl | ⟨rfl, hfails⟩
      · refine ⟨fun h0 => ?_, fun _ => ?_, hrest⟩
        · dsimp only at h0
          omega
        · rw [LineCall.delivered_eq rfl hbuf₁ hnil, if_neg (by simp), List.append_nil, List.append_nil]
      · refine ⟨fun h0 => ?_, fun h1 => absurd rfl h1, hrest⟩
        cases h0
      · exact absurd (hend hfails) hnil

/-- Every stream is read to its end. -/
theorem calls_reach_end (env : Env) (hlen : 0 < length) (stream : List UInt8) :
    ∃ calls, Run (Called env length) stream calls [] := by
  obtain ⟨n, hn⟩ : ∃ n, stream.length ≤ n := ⟨_, Nat.le_refl _⟩
  induction n generalizing stream with
  | zero =>
    obtain rfl := List.length_eq_zero_iff.mp (Nat.le_zero.mp hn)
    exact ⟨[], .nil⟩
  | succ n ih =>
    rcases stream_cases length stream with ⟨line, rest, rfl, h10, hlt⟩ | ⟨line, rest, rfl, h10, hline⟩ | ⟨h10, hlt⟩
    · obtain ⟨buf', hread, -⟩ := read_line_newline env (.zero length) h10 hlt rest
      obtain ⟨calls, hrun⟩ := ih rest (by simp at hn; omega)
      exact ⟨_, (Run.single ⟨_, buf', _, hread, rfl⟩).trans hrun⟩
    · obtain ⟨buf', hread, -⟩ := read_line_full env (.zero length) h10 hline rest
      obtain ⟨calls, hrun⟩ := ih rest (by simp at hn; omega)
      exact ⟨_, (Run.single ⟨_, buf', _, hread, rfl⟩).trans hrun⟩
    · obtain ⟨buf', ret, hread, -⟩ := read_line_end env (.zero length) h10 hlt
      exact ⟨_, Run.single ⟨_, buf', ret, hread, rfl⟩⟩

/-- The calls on a stream that fits. -/
theorem LinesFit.separates (hfit : LinesFit env length stream) (hlen : 0 < length) :
    SeparatesLines env length stream := by
  have hrun : ∀ {calls rest}, Run (Called env length) stream calls rest → (∀ c ∈ calls, c.ret = 0 → c.input = []) ∧
      ((∀ c ∈ calls, c.ret ≠ -1) → calls.flatMap LineCall.delivered ++ rest = stream) ∧ LinesFit env length rest := by
    intro calls rest hrun
    refine hrun.invariant (I := fun calls rest => (∀ c ∈ calls, c.ret = 0 → c.input = []) ∧
      ((∀ c ∈ calls, c.ret ≠ -1) → calls.flatMap LineCall.delivered ++ rest = stream) ∧ LinesFit env length rest)
      ⟨by simp, fun _ => rfl, hfit⟩ ?_
    intro tr t ev u hinv hstep
    obtain ⟨heof, hwhole, hfit⟩ := hinv
    have ⟨buf, buf', ret, _, hev⟩ := hstep
    subst hev
    obtain ⟨heof', hwhole', hfit'⟩ := hstep.sound hlen hfit
    refine ⟨?_, ?_, hfit'⟩
    · rw [List.forall_mem_append, List.forall_mem_singleton]
      exact ⟨heof, heof'⟩
    · rw [List.forall_mem_append, List.forall_mem_singleton]
      rintro ⟨hok, hok'⟩
      rw [List.flatMap_append, List.flatMap_singleton, List.append_assoc, hwhole' hok', hwhole hok]
  constructor
  · intro calls rest h
    exact (hrun h).1
  · intro calls h hok
    have hwhole := (hrun h).2.1 hok
    rwa [List.append_nil] at hwhole

/-- The calls to come. -/
theorem SeparatesLines.tail {c : LineCall} (h : SeparatesLines env length stream)
    (hcall : Called env length stream [c] rest) (hret : c.ret ≠ -1) (hbytes : c.delivered ++ rest = stream) :
    SeparatesLines env length rest := by
  constructor
  · intro calls rest' hrun c' hc'
    exact h.eof ((Run.single hcall).trans hrun) c' (List.mem_append_right _ hc')
  · intro calls hrun hok
    have hwhole := h.whole ((Run.single hcall).trans hrun) (List.forall_mem_append.mpr
      ⟨List.forall_mem_singleton.mpr hret, hok⟩)
    rw [List.flatMap_append, List.flatMap_singleton, ← hbytes] at hwhole
    exact List.append_cancel_left hwhole

/-- A stream that does not fit. -/
theorem SeparatesLines.fit (h : SeparatesLines env length stream) (hlen : 0 < length) :
    LinesFit env length stream := by
  obtain ⟨n, hn⟩ : ∃ n, stream.length ≤ n := ⟨_, Nat.le_refl _⟩
  induction n generalizing stream with
  | zero =>
    obtain rfl := List.length_eq_zero_iff.mp (Nat.le_zero.mp hn)
    exact (linesFit_last (by simp) hlen).mpr fun _ => rfl
  | succ n ih =>
    rcases stream_cases length stream with ⟨line, rest, rfl, h10, hlt⟩ | ⟨line, rest, rfl, h10, hline⟩ | ⟨h10, hlt⟩
    · obtain ⟨buf', hread, hbuf'⟩ := read_line_newline env (.zero length) h10 hlt rest
      have hcall : Called env length (line ++ 10 :: rest) [⟨_, _, _, rest⟩] rest := ⟨_, buf', _, hread, rfl⟩
      have hne : line ≠ [] := by
        rintro rfl
        have hnil := h.eof (Run.single hcall) _ (List.mem_singleton_self _) rfl
        cases hnil
      have hpos := List.length_pos_iff.mpr hne
      refine (linesFit_newline h10 hlt).mpr ⟨hne, ih (h.tail hcall ?_ (LineCall.delivered_newline hbuf' hne rest)) ?_⟩
      · dsimp only
        omega
      · simp only [List.length_append, List.length_cons] at hn
        omega
    · have hne : line ≠ [] := List.length_pos_iff.mp (by omega)
      obtain ⟨buf', hread, hbuf'⟩ := read_line_full env (.zero length) h10 hline rest
      have hcall : Called env length (line ++ rest) [⟨_, _, _, rest⟩] rest := ⟨_, buf', _, hread, rfl⟩
      refine (linesFit_full h10 hline).mpr (ih (h.tail hcall ?_ (LineCall.delivered_full hbuf' hne rest)) ?_)
      · dsimp only
        omega
      · rw [List.length_append] at hn
        omega
    · refine (linesFit_last h10 hlt).mpr fun hfails => ?_
      obtain ⟨buf', ret, hread, -, hret⟩ := read_line_end env (.zero length) h10 hlt
      have hcall : Called env length stream [⟨stream, ret, buf'.bytes, []⟩] [] := ⟨_, buf', ret, hread, rfl⟩
      exact h.eof (Run.single hcall) _ (List.mem_singleton_self _) (hret rfl hfails)

/-- **`read_line` tells the lines from the end of the stream** if and only if the lines fit. -/
theorem read_line_separates_iff (env : Env) (stream : List UInt8) (hlen : 0 < length) :
    SeparatesLines env length stream ↔ LinesFit env length stream := by
  constructor
  · intro h
    exact h.fit hlen
  · intro h
    exact h.separates hlen

/-- `a` and `b`, a line each. -/
theorem read_line_separates_two_lines : SeparatesLines .empty_directory 8192 [97, 10, 98, 10] := by
  refine (read_line_separates_iff .empty_directory [97, 10, 98, 10] (by decide)).mpr ?_
  refine (linesFit_newline (show 10 ∉ [97] by decide) (by decide)).mpr ⟨List.cons_ne_nil _ _, ?_⟩
  refine (linesFit_newline (show 10 ∉ [98] by decide) (by decide)).mpr ⟨List.cons_ne_nil _ _, ?_⟩
  exact (linesFit_last (by simp) (by decide)).mpr fun _ => rfl

/-- An empty line is reported as the end of the stream. -/
theorem empty_line_reported_as_eof : ¬SeparatesLines .empty_directory 8192 [10, 97, 10] := by
  intro h
  have hfit := h.fit (by decide)
  have hne := ((linesFit_newline (show 10 ∉ [] by simp) (by decide)).mp hfit).1
  exact hne rfl

end Cs326.Web
