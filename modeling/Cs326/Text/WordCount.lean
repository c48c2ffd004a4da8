import Cs326.Lib.CInt
import Cs326.Lib.Numerals
import Cs326.Lib.Tokens

/-!
# The word count

`Exercise3.c` prints how many bytes, words and lines a file has. A word is counted at the blank, newline or tab behind
it, if the byte in front of that is no white space, and at the end of the file. So a word in front of any other white
space is missed, and the byte that the first one is compared with is not initialised: the count is that of the runs
without white space if and only if the file has no such word and does not begin with one of the three
(`word_count_iff`).
-/

namespace Cs326.Text

/-! ## `main` -/

/-- The variables of the loop. -/
structure Counters where
  prevline : UInt8
  char_count : Nat
  word_count : Nat
  line_count : Nat

inductive Output
  /-- `File could not be opened.` -/
  | not_opened
  | counts (char_count word_count line_count : Nat)
  deriving DecidableEq

/-- `n++` of an `int`; `none`: it overflows. -/
def increment (n : Nat) : Option Nat := if n < INT_MAX then some (n + 1) else none

/-- The white space that the loop looks for. -/
def separator (b : UInt8) : Bool := b == 32 || b == 10 || b == 9

/-- The body of the loop. -/
def count_byte (s : Counters) (line : UInt8) : Option Counters := do
  let char_count ← increment s.char_count
  let word_count ← (if separator line && !isspace s.prevline then increment s.word_count else some s.word_count)
  let line_count ← (if line = 10 then increment s.line_count else some s.line_count)
  return ⟨line, char_count, word_count, line_count⟩

/-- The loop. A `char` of all ones is `EOF`. -/
def count_loop (s : Counters) : List UInt8 → Option Counters
  | [] => some s
  | line :: file => if line = 255 then some s else do count_loop (← count_byte s line) file

/-- What is done behind the loop. -/
def report (s : Counters) : Option Output := do
  let char_count ← increment s.char_count
  let line_count ← increment s.line_count
  let word_count ← (if !isspace s.prevline then increment s.word_count else some s.word_count)
  return .counts char_count word_count line_count

/-- `prevline` is not initialised: it has any value. -/
def main (prevline : UInt8) (file : Option (List UInt8)) : Option Output :=
  match file with
  | none => some .not_opened
  | some file => do report (← count_loop ⟨prevline, 0, 0, 0⟩ file)

/-- The word count is the number of runs without white space. -/
def CountsWords (file : List UInt8) : Prop :=
  ∀ prevline, ∃ char_count line_count,
    main prevline (some file) = some (.counts char_count (pieces isspace file).length line_count)

/-! ## The counts -/

variable {s t : Counters} {b prev : UInt8} {file : List UInt8}

/-- The words that are counted behind `prev`. -/
def counted (prev : UInt8) : List UInt8 → Nat
  | [] => if isspace prev = false then 1 else 0
  | b :: file => (if isspace prev = false ∧ separator b = true then 1 else 0) + counted b file

/-- The words behind `prev` that end in front of white space that the loop does not look for. -/
def missed (prev : UInt8) : List UInt8 → Nat
  | [] => 0
  | b :: file => (if isspace prev = false ∧ isspace b = true ∧ separator b = false then 1 else 0) + missed b file

theorem increment_eq {n : Nat} (h : n < INT_MAX) : increment n = some (n + 1) := if_pos h

/-- One byte. -/
theorem count_byte_eq (hword : s.word_count ≤ s.char_count) (hline : s.line_count ≤ s.char_count)
    (hlt : s.char_count < INT_MAX) (b : UInt8) : count_byte s b = some
      { prevline := b
        char_count := s.char_count + 1
        word_count := s.word_count + if isspace s.prevline = false ∧ separator b = true then 1 else 0
        line_count := s.line_count + if b = 10 then 1 else 0 } := by
  unfold count_byte
  rw [increment_eq hlt, increment_eq (Nat.lt_of_le_of_lt hword hlt), increment_eq (Nat.lt_of_le_of_lt hline hlt)]
  cases separator b <;> cases isspace s.prevline <;> by_cases h10 : b = 10 <;> simp [h10]

theorem count_loop_cons (h255 : 255 ≠ b) (h : count_byte s b = some t) :
    count_loop s (b :: file) = count_loop t file := by
  rw [count_loop, if_neg h255.symm, h, Option.bind_eq_bind, Option.bind_some]

/-- **The counts**, behind any number of bytes. -/
theorem count_loop_report (h255 : 255 ∉ file) (hword : s.word_count ≤ s.char_count)
    (hline : s.line_count ≤ s.char_count) (hlt : s.char_count + file.length < INT_MAX) :
    count_loop s file >>= report = some (.counts (s.char_count + file.length + 1)
      (s.word_count + counted s.prevline file) (s.line_count + file.count 10 + 1)) := by
  induction file generalizing s with
  | nil =>
    rw [List.length_nil, Nat.add_zero] at hlt
    unfold count_loop report counted
    rw [Option.bind_eq_bind, Option.bind_some, increment_eq hlt, increment_eq (Nat.lt_of_le_of_lt hword hlt),
      increment_eq (Nat.lt_of_le_of_lt hline hlt)]
    cases isspace s.prevline <;> rfl
  | cons b file ih =>
    rw [List.mem_cons, not_or] at h255
    rw [List.length_cons] at hlt
    rw [count_loop_cons h255.1 (count_byte_eq hword hline (by omega) b), ih h255.2]
    · rw [List.length_cons, counted, List.count_cons]
      simp only [beq_iff_eq, Nat.add_assoc, Nat.add_comm, Nat.add_left_comm]
    · dsimp only
      split_ifs <;> omega
    · dsimp only
      split_ifs <;> omega
    · dsimp only
      omega

/-- A byte is counted. -/
theorem count_byte_char (h : count_byte s b = some t) : t.char_count = s.char_count + 1 := by
  obtain ⟨n, hn, h⟩ := Option.bind_eq_some_iff.mp h
  obtain ⟨_, _, h⟩ := Option.bind_eq_some_iff.mp h
  obtain ⟨_, _, h⟩ := Option.bind_eq_some_iff.mp h
  cases h
  unfold increment at hn
  split_ifs at hn
  exact (Option.some.inj hn).symm

/-- A file with too many bytes. -/
theorem count_loop_overflow (h255 : 255 ∉ file) (hle : INT_MAX ≤ s.char_count + file.length) :
    count_loop s file >>= report = none := by
  induction file generalizing s with
  | nil =>
    have hover : increment s.char_count = none := if_neg (Nat.not_lt.mpr hle)
    unfold count_loop report
    rw [Option.bind_eq_bind, Option.bind_some, hover]
    rfl
  | cons b file ih =>
    rw [List.mem_cons, not_or] at h255
    rw [List.length_cons] at hle
    cases hbyte : count_byte s b with
    | none =>
      rw [count_loop, if_neg (Ne.symm h255.1), hbyte]
      rfl
    | some t =>
      have hchar := count_byte_char hbyte
      rw [count_loop_cons h255.1 hbyte]
      exact ih h255.2 (by omega)

/-- **What is printed**, if the counts have room. -/
theorem main_counts (h255 : 255 ∉ file) (hlt : file.length < INT_MAX) (prevline : UInt8) :
    main prevline (some file) =
      some (.counts (file.length + 1) (counted prevline file) (file.count 10 + 1)) := by
  have hloop := count_loop_report (s := ⟨prevline, 0, 0, 0⟩) h255 (Nat.le_refl 0) (Nat.le_refl 0) (by simpa using hlt)
  simp only [Nat.zero_add] at hloop
  exact hloop

/-! ## The words -/

/-- Every word that is not the last thing in the file ends in front of a separator. -/
def EndsSeen (file : List UInt8) : Prop :=
  file.IsChain fun a b => isspace a = false → isspace b = true → separator b = true

instance (file : List UInt8) : Decidable (EndsSeen file) := inferInstanceAs (Decidable (file.IsChain _))

theorem isspace_of_separator (h : separator b = true) : isspace b = true := by
  unfold separator at h
  simp only [Bool.or_eq_true, beq_iff_eq] at h
  rcases h with (rfl | rfl) | rfl <;> decide

/-- **The words behind `prev`** are counted or missed. -/
theorem counted_add_missed (prev : UInt8) (file : List UInt8) :
    counted prev file + missed prev file = (pieces isspace (prev :: file)).length := by
  induction file generalizing prev with
  | nil =>
    by_cases h : isspace prev = true
    · rw [pieces_cons_delim h, pieces_nil]
      simp [counted, missed, h]
    · rw [Bool.not_eq_true] at h
      have hpiece : Piece isspace [prev] := ⟨List.cons_ne_nil _ _, by simpa using h⟩
      rw [hpiece.pieces]
      simp [counted, missed, h]
  | cons b file ih =>
    rw [length_pieces_cons_cons, ← ih b, counted, missed]
    -- a word ends at `b`, in front of one kind of white space or the other
    have hends : (if isspace prev = false ∧ isspace b = true then 1 else 0) =
        (if isspace prev = false ∧ separator b = true then 1 else 0) +
          if isspace prev = false ∧ isspace b = true ∧ separator b = false then 1 else 0 := by
      cases hb : separator b with
      | true => simp [isspace_of_separator hb]
      | false => simp
    omega

theorem missed_eq_zero_iff : missed prev file = 0 ↔ EndsSeen (prev :: file) := by
  induction file generalizing prev with
  | nil => simp [missed, EndsSeen]
  | cons b file ih =>
    unfold EndsSeen at ih ⊢
    rw [missed, Nat.add_eq_zero_iff, ih, List.isChain_cons_cons]
    simp

/-- Where the word count is right, the counts have room. -/
theorem CountsWords.room (h : CountsWords file) (h255 : 255 ∉ file) : file.length < INT_MAX := by
  by_contra hge
  obtain ⟨_, _, hmain⟩ := h 0
  have hover : main 0 (some file) = none := by
    apply count_loop_overflow h255
    simpa using hge
  cases hover.symm.trans hmain

theorem countsWords_iff (h255 : 255 ∉ file) (hlt : file.length < INT_MAX) :
    CountsWords file ↔ ∀ prevline, counted prevline file = (pieces isspace file).length := by
  apply forall_congr'
  intro prevline
  rw [main_counts h255 hlt]
  constructor
  · intro h
    obtain ⟨_, _, h⟩ := h
    injection Option.some.inj h
  · intro h
    exact ⟨_, _, by rw [h]⟩

/-- **The word count is right** if and only if the file has fewer than `INT_MAX` bytes, does not begin with a separator
and has no word in front of other white space. -/
theorem word_count_iff (h255 : 255 ∉ file) : CountsWords file ↔
    file.length < INT_MAX ∧ (∃ b rest, file = b :: rest ∧ separator b = false) ∧ EndsSeen file := by
  by_cases hlt : file.length < INT_MAX
  · rw [countsWords_iff h255 hlt, and_iff_right hlt]
    cases file with
    | nil =>
      -- a word is counted behind a letter
      refine iff_of_false (fun h => ?_) (by simp)
      exact absurd (h 97) (by decide)
    | cons b rest =>
      have hwords := counted_add_missed b rest
      constructor
      · intro h
        have hletter := h 97
        have hspace := h 32
        rw [counted] at hletter hspace
        have hsep : separator b = false := by
          by_contra hb
          rw [Bool.not_eq_false] at hb
          have hblank : ¬(isspace 32 = false ∧ separator b = true) := fun hno => absurd hno.1 (by decide)
          rw [if_pos ⟨by decide, hb⟩] at hletter
          rw [if_neg hblank] at hspace
          omega
        rw [if_neg (by simp [hsep])] at hletter
        exact ⟨⟨b, rest, rfl, hsep⟩, missed_eq_zero_iff.mp (by omega)⟩
      · intro h prevline
        obtain ⟨⟨_, _, hfile, hsep⟩, hends⟩ := h
        obtain ⟨rfl, rfl⟩ := List.cons.inj hfile
        have hmissed := missed_eq_zero_iff.mpr hends
        rw [counted, if_neg (by simp [hsep])]
        omega
  · exact iff_of_false (fun h => hlt (h.room h255)) fun h => hlt h.1

/-- Two words, and a blank between them. -/
theorem word_count_two_words : CountsWords [97, 32, 98] :=
  (word_count_iff (by decide)).mpr ⟨by decide, ⟨97, [32, 98], rfl, by decide⟩, by decide⟩

/-- A word in an empty file, and none in a line that ends with a carriage return and a newline. -/
theorem empty_file_miscounted : ¬CountsWords [] ∧ ¬CountsWords [97, 13, 10] := by
  constructor
  · intro h
    obtain ⟨_, _, hmain⟩ := h 97
    have hone : main 97 (some []) = some (.counts 1 1 1) := by decide
    rw [hone, pieces_nil] at hmain
    cases hmain
  · intro h
    obtain ⟨_, _, hmain⟩ := h 97
    have hnone : main 97 (some [97, 13, 10]) = some (.counts 4 0 2) := by decide
    have hword : (pieces isspace [97, 13, 10]).length = 1 := by decide
    rw [hnone, hword] at hmain
    cases hmain

end Cs326.Text
