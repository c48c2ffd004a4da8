import Cs326.Lib.CInt
import Cs326.Lib.CString
import Mathlib.Logic.Function.Basic

/-!
# The history of the shell

`history.c`: a ring of `100` slots of `100000` bytes with the counters `minimum`, `cmd_count` and `tail`. The slots are
one piece of memory. A text that does not fit its slot goes on in the next one (`write`), and a slot without a zero is
read together with the one behind it (`read`).

`Records h cs` says that the history `h` is what the commands `cs` have left there, oldest first.
-/

namespace Cs326.Prompt

/-- What stops the shell. -/
inductive Fault
  /-- `NULL` is dereferenced. -/
  | null
  /-- An `int` is incremented at `INT_MAX`. -/
  | overflow
  /-- A copy goes on behind the end of `history`. -/
  | outside
  deriving DecidableEq

/-- One `char[100000]` of `history`: the bytes before its first zero, all of them where there is no zero. -/
structure Slot where
  str : CString
  fits : str.length ≤ 100000

def Slot.empty : Slot := ⟨.empty, Nat.zero_le _⟩

/-- The string at slot `i`, the array ending `left` slots further on. -/
def read (slots : Nat → Slot) : (left i : Nat) → CString
  -- no copy that the array holds ends behind it
  | 0, _ => .empty
  | left + 1, i =>
    if (slots i).str.length < 100000 then (slots i).str else (slots i).str.append (read slots left (i + 1))

/-- `strcpy` to slot `i`, the array ending `left` slots further on. -/
def write (slots : Nat → Slot) : (left i : Nat) → CString → Option (Nat → Slot)
  | 0, _, _ => none
  | left + 1, i, text =>
    if h : text.length < 100000 then some (Function.update slots i ⟨text, h.le⟩)
    else (write slots left (i + 1) (text.drop 100000)).map fun slots' =>
      Function.update slots' i ⟨text.take 100000, by rw [CString.length_take]; exact Nat.min_le_left _ _⟩

/-- The globals of `history.c`; only the slots below `100` exist. -/
structure History where
  slots : Nat → Slot
  minimum : Nat
  cmd_count : Nat
  tail : Nat

namespace History

/-- As the globals are initialised. -/
def init : History := ⟨fun _ => .empty, 0, 0, 0⟩

/-- The string at `history[k % max]`. -/
def text (h : History) (k : Nat) : CString := read h.slots (100 - k % 100) (k % 100)

def add_history (h : History) (command : CString) : Except Fault History :=
  match write h.slots (100 - h.cmd_count % 100) (h.cmd_count % 100) command with
  | none => .error .outside
  | some slots =>
    if h.cmd_count = INT_MAX then .error .overflow
    else .ok {
      slots
      tail := h.cmd_count % 100
      cmd_count := h.cmd_count + 1
      minimum := if 100 < h.cmd_count + 1 then h.minimum + 1 else h.minimum }

/-- `print_history`: the numbers and texts that it prints. `j` starts `max` above the first number. -/
def print_history (h : History) : Except Fault (List (Int × CString)) := loop 100 (h.tail + 1) h.cmd_count
where
  /-- The loop with the number of rounds it has left. -/
  loop : (left i j : Nat) → Except Fault (List (Int × CString))
    | 0, _, _ => .ok []
    | left + 1, i, j =>
      -- at `j++`
      if j = INT_MAX then .error .overflow
      else do
        let rest ← loop left (i + 1) (j + 1)
        pure (if h.text i = .empty then rest else ((j : Int) - 100, h.text i) :: rest)

/-- `get_cmd`. What it returns is a copy in a block of `100001` bytes, too few only for a text that has run over its
slot. -/
def get_cmd (h : History) (num : Int) : Option CString :=
  if h.minimum ≤ num ∧ num ≤ h.cmd_count then some (h.text num.toNat) else none

/-- `find_cmd`, from `i = cmd_count - 1` down to `minimum`. -/
def find_cmd (h : History) (cmd : CString) : Option CString := search (h.cmd_count - h.minimum)
where
  search : Nat → Option CString
    | 0 => none
    | n + 1 =>
      match h.get_cmd (h.minimum + n : Nat) with
      | some text => if text.startsWith cmd then some text else search n
      | none => search n

end History

variable {slots slots' : Nat → Slot} {left i j k : Nat} {c text : CString} {cs : List CString} {h h' : History}

/-! ## The memory of the slots -/

theorem read_congr (hs : ∀ j, i ≤ j → slots' j = slots j) : read slots' left i = read slots left i := by
  induction left generalizing i with
  | zero => rfl
  | succ left ih =>
    rw [read, read, hs i le_rfl, ih fun j hj => hs j (by omega)]

/-- **What is copied is read back**, over as many slots as it takes. -/
theorem read_write (hw : write slots left i text = some slots') : read slots' left i = text := by
  induction left generalizing i text slots' with
  | zero => cases hw
  | succ left ih =>
    rw [write] at hw
    split at hw
    · rename_i hlt
      obtain rfl := Option.some.inj hw
      rw [read, Function.update_self, if_pos hlt]
    · rename_i hge
      obtain ⟨slots₁, h₁, rfl⟩ := Option.map_eq_some_iff.mp hw
      have hrest : read (Function.update slots₁ i ⟨text.take 100000, by simp⟩) left (i + 1) = text.drop 100000 := by
        rw [← ih h₁]
        exact read_congr fun j hj => Function.update_of_ne (by omega) _ _
      rw [read, Function.update_self, if_neg (by simp; omega), hrest, CString.take_append_drop]

/-- A text that fits its slot changes no other one. -/
theorem write_short (hlt : text.length < 100000) :
    write slots (left + 1) i text = some (Function.update slots i ⟨text, hlt.le⟩) := dif_pos hlt

/-- A copy stays inside the array iff the text is shorter than what is left of it. -/
theorem write_isSome : (write slots left i text).isSome = true ↔ text.length < left * 100000 := by
  induction left generalizing i text with
  | zero => simp [write]
  | succ left ih =>
    rw [write]
    split
    · simp
      omega
    · rw [Option.isSome_map, ih, CString.length_drop]
      omega

namespace History

/-- A slot that has a zero is read alone. -/
theorem text_of_lt (hlt : (h.slots (k % 100)).str.length < 100000) : h.text k = (h.slots (k % 100)).str := by
  have hleft : 100 - k % 100 = 99 - k % 100 + 1 := by omega
  rw [text, hleft, read, if_pos hlt]

/-! ## The operations -/

theorem add_history_eq_ok : h.add_history text = .ok h' ↔ ∃ slots,
    write h.slots (100 - h.cmd_count % 100) (h.cmd_count % 100) text = some slots ∧ h.cmd_count ≠ INT_MAX ∧
    h' = ⟨slots, if 100 < h.cmd_count + 1 then h.minimum + 1 else h.minimum, h.cmd_count + 1, h.cmd_count % 100⟩ := by
  unfold add_history
  constructor
  · intro ho
    split at ho
    · cases ho
    · rename_i slots hw
      split at ho
      · cases ho
      · rename_i hne
        exact ⟨slots, hw, hne, (Except.ok.inj ho).symm⟩
  · rintro ⟨slots, hw, hne, rfl⟩
    rw [hw]
    exact if_neg hne

/-- `add_history` goes well while `cmd_count` can be incremented and the text ends inside the array. -/
theorem exists_add_history : (∃ h', h.add_history text = .ok h') ↔
    h.cmd_count ≠ INT_MAX ∧ text.length < (100 - h.cmd_count % 100) * 100000 := by
  have hwrite : (∃ slots, write h.slots (100 - h.cmd_count % 100) (h.cmd_count % 100) text = some slots) ↔
      text.length < (100 - h.cmd_count % 100) * 100000 := by
    rw [← Option.isSome_iff_exists, write_isSome]
  simp only [add_history_eq_ok]
  rw [← hwrite]
  constructor
  · rintro ⟨_, slots, hw, hne, _⟩
    exact ⟨hne, slots, hw⟩
  · rintro ⟨hne, slots, hw⟩
    exact ⟨_, slots, hw, hne, rfl⟩

/-- The entry just added. -/
theorem text_of_add_history (ho : h.add_history text = .ok h') : h'.text h.cmd_count = text := by
  obtain ⟨slots, hw, _, rfl⟩ := add_history_eq_ok.mp ho
  exact read_write hw

theorem get_cmd_eq_some {num : Int} : h.get_cmd num = some text ↔
    h.minimum ≤ num ∧ num ≤ h.cmd_count ∧ h.text num.toNat = text := by
  unfold get_cmd
  split
  · rename_i hin
    simp [hin.1, hin.2]
  · rename_i hout
    constructor
    · intro hc
      cases hc
    · rintro ⟨h1, h2, _⟩
      exact absurd ⟨h1, h2⟩ hout

theorem get_cmd_natCast (hmin : h.minimum ≤ k) (hk : k ≤ h.cmd_count) : h.get_cmd k = some (h.text k) :=
  get_cmd_eq_some.mpr ⟨by omega, by omega, by rw [Int.toNat_natCast]⟩

/-- **A search finds** a command it has gone over with the prefix, or there is none. -/
theorem search_cases {cmd : CString} {n : Nat} (hn : h.minimum + n ≤ h.cmd_count) :
    (∃ k, h.minimum ≤ k ∧ k < h.minimum + n ∧ (h.text k).startsWith cmd = true ∧
      find_cmd.search h cmd n = some (h.text k)) ∨
    (∀ k, h.minimum ≤ k → k < h.minimum + n → (h.text k).startsWith cmd = false) ∧
      find_cmd.search h cmd n = none := by
  induction n with
  | zero => exact .inr ⟨fun k h1 h2 => absurd h1 (by omega), rfl⟩
  | succ n ih =>
    rw [find_cmd.search, get_cmd_natCast (by omega) (by omega)]
    by_cases hp : (h.text (h.minimum + n)).startsWith cmd = true
    · exact .inl ⟨h.minimum + n, by omega, by omega, hp, if_pos hp⟩
    · dsimp only
      rw [if_neg hp]
      rcases ih (by omega) with ⟨k, h1, h2, hk, he⟩ | ⟨hno, he⟩
      · exact .inl ⟨k, h1, by omega, hk, he⟩
      · refine .inr ⟨fun k h1 h2 => ?_, he⟩
        rcases Nat.lt_or_ge k (h.minimum + n) with hlt | hge
        · exact hno k h1 hlt
        · obtain rfl : k = h.minimum + n := by omega
          exact Bool.eq_false_iff.mpr hp

/-- **`find_cmd`** returns the text of a listed command with the prefix, `NULL` if there is none. -/
theorem find_cmd_cases {cmd : CString} (hmin : h.minimum ≤ h.cmd_count) :
    (∃ k, h.minimum ≤ k ∧ k < h.cmd_count ∧ (h.text k).startsWith cmd = true ∧ h.find_cmd cmd = some (h.text k)) ∨
    (∀ k, h.minimum ≤ k → k < h.cmd_count → (h.text k).startsWith cmd = false) ∧ h.find_cmd cmd = none := by
  have hsum : h.minimum + (h.cmd_count - h.minimum) = h.cmd_count := by omega
  have hcases : _ ∨ _ ∧ find_cmd.search h cmd _ = none := search_cases hsum.le
  rwa [hsum] at hcases

end History

/-! ## What the history records -/

/-- The history `h` holds the last of the commands `cs`. The newest one is there whole; the others are as long as no
text has run over its slot. -/
structure Records (h : History) (cs : List CString) : Prop where
  cmd_count : h.cmd_count = cs.length
  bound : h.cmd_count ≤ INT_MAX
  minimum : h.minimum = cs.length - 100
  tail : h.tail = (cs.length - 1) % 100
  newest : ∀ c, cs.getLast? = some c → h.text (cs.length - 1) = c
  slots : (∀ c ∈ cs, c.length < 100000) → ∀ k c, cs[k]? = some c → cs.length ≤ k + 100 → (h.slots (k % 100)).str = c
  unused : (∀ c ∈ cs, c.length < 100000) → ∀ i, cs.length ≤ i → i < 100 → (h.slots i).str = .empty

theorem records_init : Records .init [] :=
  ⟨rfl, Nat.zero_le _, rfl, rfl, fun _ hc => (by cases hc), fun _ _ _ hc => (by simp at hc), fun _ _ _ _ => rfl⟩

/-- **Recording** appends a command. -/
theorem Records.add_history (hr : Records h cs) (ho : h.add_history text = .ok h') : Records h' (cs ++ [text]) := by
  obtain ⟨slots, hw, hne, rfl⟩ := History.add_history_eq_ok.mp ho
  have hcount := hr.cmd_count
  have hmin := hr.minimum
  have hbound := hr.bound
  refine ⟨by simp [hcount], by dsimp only; omega, ?_, by simp [hcount], ?_, ?_, ?_⟩
  · simp only [List.length_append, List.length_singleton]
    split <;> omega
  · intro c hc
    obtain rfl : text = c := by simpa using hc
    rw [List.length_append, List.length_singleton, Nat.add_sub_cancel, ← hcount]
    exact History.text_of_add_history ho
  all_goals
    intro hshort
    have hlt : text.length < 100000 := hshort text (by simp)
    have hold : ∀ c ∈ cs, c.length < 100000 := fun c hc => hshort c (List.mem_append_left _ hc)
    have hleft : 100 - h.cmd_count % 100 = 99 - h.cmd_count % 100 + 1 := by omega
    rw [hleft, write_short hlt] at hw
    obtain rfl := Option.some.inj hw
    simp only [List.length_append, List.length_singleton]
  · intro k c hk hret
    rcases Nat.lt_trichotomy k cs.length with hlt' | rfl | hgt
    · have hne' : k % 100 ≠ h.cmd_count % 100 := by omega
      rw [Function.update_of_ne hne']
      exact hr.slots hold k c (by rwa [List.getElem?_append_left hlt'] at hk) (by omega)
    · rw [hcount, Function.update_self]
      simpa using hk
    · simp [List.getElem?_eq_none (show (cs ++ [text]).length ≤ k by simp; omega)] at hk
  · intro i hi hi'
    rw [Function.update_of_ne (by omega)]
    exact hr.unused hold i (by omega) hi'

/-- **Retained commands** are read back from their slots. -/
theorem Records.text_eq (hr : Records h cs) (hshort : ∀ c ∈ cs, c.length < 100000) (hk : cs[k]? = some c)
    (hret : cs.length ≤ k + 100) : h.text k = c := by
  have hslot := hr.slots hshort k c hk hret
  rw [History.text_of_lt (by rw [hslot]; exact hshort c (List.mem_of_getElem? hk)), hslot]

end Cs326.Prompt
