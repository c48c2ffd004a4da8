import Cs326.Lib.CInt
import Cs326.Lib.CString
import Cs326.Lib.Loop
import Mathlib.Algebra.GroupWithZero.Nat

/-!
# Sending a message

The loop of `client.c` that sends a line, against any sequence of partial `write`s. Each call asks for the whole size
from `write_ptr` on. So every call but the first reaches behind the message (`sent_once_iff`), and the bytes that come
out are the message only where the partial `write`s add up to its size (`bytes_sent_iff`).
-/

namespace Cs326.Socket

/-- What `write` returns, call by call, where it is asked for `sz` bytes. -/
structure Writes (sz : Nat) where
  count : Nat → Nat
  pos : ∀ i, 0 < count i
  le : ∀ i, count i ≤ sz

/-- One `write`: where it starts in the message, and how many bytes it takes. -/
structure WriteCall where
  write_ptr : Nat
  bytes_written : Nat

structure SendLoop where
  calls : List WriteCall
  write_ptr : Nat
  bytes_left : Nat

/-- The string and its zero. -/
def message (str : Buffer 128) : List UInt8 := str.str.bytes ++ [0]

section

variable {sz : Nat} (w : Writes sz)

/-- The body of the loop. -/
def send_body (s : SendLoop) : SendLoop :=
  let bytes_written := w.count s.calls.length
  { calls := s.calls ++ [⟨s.write_ptr, bytes_written⟩]
    write_ptr := s.write_ptr + bytes_written
    bytes_left := usub s.bytes_left bytes_written }

/-- The test of the loop, and the body. -/
def send_next (s : SendLoop) : Option SendLoop := if 0 < s.bytes_left then some (send_body w s) else none

/-- The loop ends in `s`. -/
def SendEnds (s : SendLoop) : Prop := Ends (send_next w) (send_body w ⟨[], 0, sz⟩) s

/-- The bytes that are put on the socket, where `beyond` is in memory behind the message. -/
def bytesSent (message : List UInt8) (beyond : Nat → UInt8) (calls : List WriteCall) : List UInt8 :=
  calls.flatMap fun c => (List.range' c.write_ptr c.bytes_written).map fun i => message.getD i (beyond i)

end

/-- The loop ends, no call is given bytes from behind the message, and the message is what is sent. -/
def SentOnce (str : Buffer 128) (w : Writes (message str).length) : Prop :=
  ∃ s, SendEnds w s ∧ (∀ c ∈ s.calls, c.write_ptr + (message str).length ≤ (message str).length) ∧
    ∀ beyond, bytesSent (message str) beyond s.calls = message str

variable {str : Buffer 128} {sz : Nat} {w : Writes sz} {s t : SendLoop}

theorem message_length (str : Buffer 128) : (message str).length = str.str.length + 1 := List.length_append

theorem message_le (str : Buffer 128) : (message str).length ≤ 128 := by
  have hfits := str.fits
  rw [message_length]
  omega

/-! ## The first call -/

theorem send_first (w : Writes sz) (hsz : sz < 2 ^ 64) :
    send_body w ⟨[], 0, sz⟩ = ⟨[⟨0, w.count 0⟩], w.count 0, sz - w.count 0⟩ := by
  unfold send_body
  simp [usub_eq (w.le 0) hsz]

/-- The calls that have been made. -/
theorem calls_prefix (h : Ends (send_next w) s t) : s.calls <+: t.calls := by
  refine (h.invariant (I := fun u => s.calls <+: u.calls) ?_ (List.prefix_refl _)).1
  intro u v hu hnext
  unfold send_next at hnext
  split_ifs at hnext
  cases hnext
  exact hu.trans (List.prefix_append _ _)

/-- The message, read from memory. -/
theorem read_message (l : List UInt8) (beyond : Nat → UInt8) :
    (List.range' 0 l.length).map (fun i => l.getD i (beyond i)) = l := by
  rw [← List.range_eq_range']
  refine List.ext_getElem (by simp) fun i hi _ => ?_
  rw [List.length_map, List.length_range] at hi
  simp [hi]

/-- A second call starts behind the first. -/
theorem SentOnce.first {w : Writes (message str).length} (h : SentOnce str w) : w.count 0 = (message str).length := by
  obtain ⟨s, hends, hinside, -⟩ := h
  have hle := message_le str
  by_contra hne
  have hlt := Nat.lt_of_le_of_ne (w.le 0) hne
  unfold SendEnds at hends
  rw [send_first w (by omega)] at hends
  have hnext : send_next w ⟨[⟨0, w.count 0⟩], w.count 0, (message str).length - w.count 0⟩ = some _ :=
    if_pos (Nat.sub_pos_of_lt hlt)
  have hcalls := calls_prefix ((ends_iff_next hnext).mp hends)
  have hsecond := hinside ⟨w.count 0, w.count 1⟩ (hcalls.subset (by simp [send_body]))
  have hpos := w.pos 0
  dsimp only at hsecond
  omega

/-- **The message is sent once** if and only if the first `write` takes all of it. -/
theorem sent_once_iff (str : Buffer 128) (w : Writes (message str).length) :
    SentOnce str w ↔ w.count 0 = (message str).length := by
  constructor
  · intro h
    exact h.first
  · intro hall
    have hle := message_le str
    have hfirst := send_first w (by omega)
    have hstop : send_next w (send_body w ⟨[], 0, (message str).length⟩) = none := by
      apply if_neg
      rw [hfirst, hall]
      simp
    refine ⟨_, (ends_iff_stop hstop).mpr rfl, ?_, fun beyond => ?_⟩
    · rw [hfirst]
      simp
    · rw [hfirst, hall]
      unfold bytesSent
      rw [List.flatMap_singleton]
      exact read_message (message str) beyond

/-- `hi`. -/
def hi : Buffer 128 := ⟨literal ['h', 'i'], by decide⟩

/-- A `write` that leaves the zero behind: the second call reaches over it. -/
theorem partial_write_overruns : ∃ w : Writes (message hi).length, w.count 0 = 2 ∧ ¬SentOnce hi w := by
  refine ⟨⟨fun _ => 2, fun _ => Nat.zero_lt_two, fun _ => by decide⟩, rfl, ?_⟩
  intro h
  have hall := h.first
  exact absurd hall (by decide)

/-! ## All calls -/

/-- The number of bytes that the first `n` calls take. -/
def taken (w : Writes sz) (n : Nat) : Nat := ((List.range n).map w.count).sum

theorem taken_succ (w : Writes sz) (n : Nat) : taken w (n + 1) = taken w n + w.count n := by
  unfold taken
  rw [List.range_succ, List.map_append, List.sum_append]
  simp

/-- The first `n` calls. -/
def callsOf (w : Writes sz) (n : Nat) : List WriteCall := (List.range n).map fun i => ⟨taken w i, w.count i⟩

theorem callsOf_succ (w : Writes sz) (n : Nat) : callsOf w (n + 1) = callsOf w n ++ [⟨taken w n, w.count n⟩] := by
  unfold callsOf
  rw [List.range_succ, List.map_append]
  rfl

/-- Each call starts where the one before has stopped. -/
theorem send_body_calls {n : Nat} (hcalls : s.calls = callsOf w n) (hptr : s.write_ptr = taken w n) :
    (send_body w s).calls = callsOf w (n + 1) ∧ (send_body w s).write_ptr = taken w (n + 1) := by
  have hlen : s.calls.length = n := by
    rw [hcalls, callsOf, List.length_map, List.length_range]
  unfold send_body
  dsimp only
  rw [hlen, hcalls, hptr, callsOf_succ, taken_succ]
  exact ⟨rfl, rfl⟩

/-- What is sent is what is in memory from the start of the message on. -/
theorem bytesSent_callsOf (l : List UInt8) (beyond : Nat → UInt8) (w : Writes sz) (n : Nat) :
    bytesSent l beyond (callsOf w n) = (List.range' 0 (taken w n)).map fun i => l.getD i (beyond i) := by
  induction n with
  | zero => rfl
  | succ n ih =>
    unfold bytesSent at ih ⊢
    rw [callsOf_succ, List.flatMap_append, ih, List.flatMap_singleton, taken_succ, ← List.range'_append_1,
      List.map_append, Nat.zero_add]

/-- The calls of a loop that has ended. -/
theorem SendEnds.calls_eq (h : SendEnds w s) : ∃ n, s.calls = callsOf w n := by
  have hstep : ∀ {u v}, (∃ n, u.calls = callsOf w n ∧ u.write_ptr = taken w n) → send_next w u = some v →
      ∃ n, v.calls = callsOf w n ∧ v.write_ptr = taken w n := by
    rintro u v ⟨n, hcalls, hptr⟩ hnext
    unfold send_next at hnext
    split_ifs at hnext
    cases hnext
    exact ⟨n + 1, send_body_calls hcalls hptr⟩
  obtain ⟨⟨n, hcalls, -⟩, -⟩ := Ends.invariant hstep h ⟨1, send_body_calls (n := 0) rfl rfl⟩
  exact ⟨n, hcalls⟩

/-- As long as there are bytes left, the loop goes on. -/
theorem send_reaches {n : Nat} (hsz : sz < 2 ^ 64) (hn : taken w n < sz) : ∃ s, s.calls = callsOf w (n + 1) ∧
    s.write_ptr = taken w (n + 1) ∧ (taken w (n + 1) ≤ sz → s.bytes_left = sz - taken w (n + 1)) ∧
      ∀ t, Ends (send_next w) s t → SendEnds w t := by
  induction n with
  | zero =>
    obtain ⟨hcalls, hptr⟩ := send_body_calls (w := w) (n := 0) (s := ⟨[], 0, sz⟩) rfl rfl
    refine ⟨_, hcalls, hptr, fun _ => ?_, fun t ht => ht⟩
    rw [send_first w hsz, taken_succ]
    simp [taken]
  | succ n ih =>
    have hsucc := taken_succ w n
    obtain ⟨s, hcalls, hptr, hleft, hends⟩ := ih (by omega)
    have hleft := hleft (Nat.le_of_lt hn)
    have hnext : send_next w s = some (send_body w s) := if_pos (by omega)
    obtain ⟨hcalls', hptr'⟩ := send_body_calls hcalls hptr
    refine ⟨_, hcalls', hptr', fun hle => ?_, fun t ht => hends t ((ends_iff_next hnext).mpr ht)⟩
    have hlen : s.calls.length = n + 1 := by
      rw [hcalls, callsOf, List.length_map, List.length_range]
    rw [taken_succ] at hle ⊢
    unfold send_body
    dsimp only
    rw [hlen, hleft, usub_eq (by omega) (by omega)]
    omega

/-- **The bytes that are sent** are the message if and only if the `write`s come to its end together. -/
theorem bytes_sent_iff (str : Buffer 128) (w : Writes (message str).length) :
    (∃ s, SendEnds w s ∧ ∀ beyond, bytesSent (message str) beyond s.calls = message str) ↔
      ∃ n, taken w n = (message str).length := by
  have hle := message_le str
  constructor
  · rintro ⟨s, hends, hbytes⟩
    obtain ⟨n, hcalls⟩ := hends.calls_eq
    have hlen := congrArg List.length (hbytes fun _ => 0)
    rw [hcalls, bytesSent_callsOf, List.length_map, List.length_range'] at hlen
    exact ⟨n, hlen⟩
  · rintro ⟨n, hn⟩
    cases n with
    | zero =>
      have hpos := message_length str
      have hzero : taken w 0 = 0 := rfl
      omega
    | succ n =>
      have hpos := w.pos n
      obtain ⟨s, hcalls, -, hleft, hends⟩ := send_reaches (w := w) (n := n) (by omega) (by rw [taken_succ] at hn; omega)
      have hstop : send_next w s = none := by
        apply if_neg
        rw [hleft (Nat.le_of_eq hn), hn]
        omega
      refine ⟨s, hends s ((ends_iff_stop hstop).mpr rfl), fun beyond => ?_⟩
      rw [hcalls, bytesSent_callsOf, hn]
      exact read_message (message str) beyond

end Cs326.Socket
