import Cs326.Lib.CharArray
import Cs326.Lib.CInt
import Cs326.Lib.Loop
import Mathlib.Algebra.Group.Int.Defs

/-!
# Reading a message

`read_len` of `server.c`, on a stream that the kernel hands out in pieces. Each `read` asks for the whole message and
puts what it gets at the start of `buf`, and `result` counts in an `int`. So a message is delivered by a single `read`
or not at all, and a stream that ends too early leaves the loop only by way of an error (`read_len_delivers_iff`).
-/

namespace Cs326.Socket

/-- How the kernel hands out a stream. -/
structure Kernel where
  /-- How many bytes a `read` returns where so many are left; it returns one at least, and no more than there are or
  than it asks for. -/
  size : Nat → Nat
  /-- A `read` behind the last byte: an error, or the end of the file. -/
  read_fails : Bool

/-- An `int`. -/
def toInt (x : Int) : Int := x.bmod (2 ^ 32)

/-- An `int` as `size_t`. -/
def toSize (x : Int) : Int := x % 2 ^ 64

variable {length : Nat} (k : Kernel)

/-- The number of bytes that a `read` returns where `left` are left. -/
def Kernel.took (length left : Nat) : Nat := min (max 1 (k.size left)) (min length left)

theorem Kernel.took_le (length left : Nat) : k.took length left ≤ length :=
  (Nat.min_le_right _ _).trans (Nat.min_le_left _ _)

/-- `read(fd, buf, length)`. -/
def read (buf : CharArray length) (input : List UInt8) : CharArray length × Int × List UInt8 :=
  if input = [] then (buf, if k.read_fails then -1 else 0, [])
  else
    let n := k.took length input.length
    (⟨input.take n ++ buf.bytes.drop n, by
      have hle := k.took_le length input.length
      have hleft : k.took length input.length ≤ input.length := (Nat.min_le_right _ _).trans (Nat.min_le_right _ _)
      rw [List.length_append, List.length_take, List.length_drop, buf.length_eq]
      omega⟩, n, input.drop n)

structure ReadLen (length : Nat) where
  result : Int
  buf : CharArray length
  input : List UInt8

/-- A round of the loop of `read_len`. -/
def read_len_next (s : ReadLen length) : Option (ReadLen length) :=
  if toSize s.result < length then
    let (buf, n, input) := read k s.buf s.input
    some ⟨toInt (s.result + n), buf, input⟩
  else none

/-- `read_len(fd, buf, length)` ends in `s`. -/
def ReadLenEnds (buf : CharArray length) (input : List UInt8) (s : ReadLen length) : Prop :=
  Ends (read_len_next k) ⟨0, buf, input⟩ s

/-- Whatever was in `buf`, `read_len` ends, and where there is a whole message in the stream, it leaves it in `buf` and
takes nothing else. -/
def DeliversMessage (length : Nat) (input : List UInt8) : Prop :=
  ∀ buf : CharArray length, ∃ s, ReadLenEnds k buf input s ∧
    (length ≤ input.length → s.buf.bytes = input.take length ∧ s.input = input.drop length)

/-- The loop takes `m` bytes for enough. -/
def Enough (length m : Nat) : Prop := length ≤ toSize (toInt m)

/-- After some of the `read`s, `m` of the bytes have been handed out. -/
inductive HandedOut (length avail : Nat) : Nat → Prop
  | zero : HandedOut length avail 0
  | next {m : Nat} : HandedOut length avail m → m < avail →
      HandedOut length avail (m + k.took length (avail - m))

/-- The first `read` returns the message, and its length is enough; or the stream ends there, in an error. -/
def ComesWhole (length : Nat) (input : List UInt8) : Prop :=
  length ≤ input.length ∧ k.took length input.length = length ∧
    (Enough length length ∨ input.length = length ∧ k.read_fails = true)

/-- The stream ends before the message does, in an error or behind a number of bytes that is enough. -/
def CutOff (length : Nat) (input : List UInt8) : Prop :=
  input.length < length ∧ (k.read_fails = true ∨ ∃ m, HandedOut k length input.length m ∧ Enough length m)

/-! ## Rounds -/

section

variable {k} {s t : ReadLen length} {buf : CharArray length} {input : List UInt8} {m : Int}

theorem took_pos {left : Nat} (hlength : 0 < length) (hleft : 0 < left) : 0 < k.took length left := by
  unfold Kernel.took
  omega

theorem toInt_add (x y : Int) : toInt (toInt x + y) = toInt (x + y) := Int.bmod_add_bmod

theorem toInt_zero : toInt 0 = 0 := by decide

theorem toSize_zero : toSize 0 = 0 := by decide

theorem toSize_nonneg (x : Int) : 0 ≤ toSize x := Int.emod_nonneg _ (by decide)

theorem next_enough (h : ¬toSize s.result < length) : read_len_next k s = none := if_neg h

/-- A `read` behind the last byte. -/
theorem next_end (h : toSize s.result < length) (hinput : s.input = []) :
    read_len_next k s = some ⟨toInt (s.result + if k.read_fails then -1 else 0), s.buf, []⟩ := by
  unfold read_len_next read
  rw [if_pos h, if_pos hinput]

/-- A `read` that returns bytes. -/
theorem next_data (h : toSize s.result < length) (hinput : s.input ≠ []) :
    ∃ buf' : CharArray length, buf'.bytes = s.input.take (k.took length s.input.length) ++
        s.buf.bytes.drop (k.took length s.input.length) ∧
      read_len_next k s = some ⟨toInt (s.result + k.took length s.input.length), buf',
        s.input.drop (k.took length s.input.length)⟩ := by
  unfold read_len_next read
  rw [if_pos h, if_neg hinput]
  exact ⟨_, rfl, rfl⟩

/-- What a round does to the input. -/
theorem next_input (h : read_len_next k s = some t) : t.input <:+ s.input := by
  by_cases hguard : toSize s.result < length
  · by_cases hinput : s.input = []
    · rw [next_end hguard hinput] at h
      cases h
      exact List.nil_suffix
    · obtain ⟨buf', -, hnext⟩ := next_data (k := k) hguard hinput
      rw [hnext] at h
      cases h
      exact List.drop_suffix _ _
  · rw [next_enough hguard] at h
    cases h

theorem ends_input (h : Ends (read_len_next k) s t) : t.input <:+ s.input :=
  (h.invariant (I := fun u => u.input <:+ s.input) (fun hu hnext => (next_input hnext).trans hu)
    (List.suffix_refl _)).1

/-! ## The end of the stream -/

/-- At the end of the file the loop does not end. -/
theorem not_ends_at_eof (hfails : k.read_fails = false) (hinput : s.input = []) (hresult : s.result = toInt m)
    (hguard : toSize s.result < length) : ¬Ends (read_len_next k) s t := by
  have hnext : read_len_next k s = some s := by
    rw [next_end hguard hinput, hfails, hresult, toInt_add]
    obtain ⟨result, buf, input⟩ := s
    dsimp only at hinput hresult
    subst hinput hresult
    simp
  refine not_ends (I := fun u => u = s) ?_ rfl
  intro u hu
  exact ⟨s, hu ▸ hnext, rfl⟩

/-- `result` falls to `-1`. -/
theorem ends_at_error (hfails : k.read_fails = true) (hlength : length < 2 ^ 64) (hinput : s.input = [])
    (hresult : s.result = toInt m) : ∃ t, Ends (read_len_next k) s t ∧ t.buf = s.buf ∧ t.input = [] := by
  obtain ⟨d, hd⟩ : ∃ d : Nat, s.result = toInt (d - 1) := by
    refine ⟨((m + 1) % 2 ^ 32).toNat, ?_⟩
    rw [hresult, Int.toNat_of_nonneg (Int.emod_nonneg _ (by decide))]
    unfold toInt Int.bmod
    dsimp only
    split_ifs <;> omega
  induction d generalizing s m with
  | zero =>
    have hstop : ¬toSize s.result < length := by
      rw [hd]
      have hmax : toSize (toInt ((0 : Nat) - 1)) = 2 ^ 64 - 1 := by decide
      omega
    exact ⟨s, (ends_iff_stop (next_enough hstop)).mpr rfl, rfl, hinput⟩
  | succ d ih =>
    by_cases hguard : toSize s.result < length
    · have hnext := next_end (k := k) hguard hinput
      rw [hfails, if_pos rfl] at hnext
      have hd' : toInt (s.result + -1) = toInt (d - 1) := by
        rw [hd, toInt_add]
        congr 1
        omega
      obtain ⟨t, hends, hbuf, htinput⟩ := ih (s := ⟨toInt (s.result + -1), s.buf, []⟩) rfl rfl hd'
      exact ⟨t, (ends_iff_next hnext).mpr hends, hbuf, htinput⟩
    · exact ⟨s, (ends_iff_stop (next_enough hguard)).mpr rfl, rfl, hinput⟩

/-- A stream that ends in an error ends the loop. -/
theorem ends_of_fails (hfails : k.read_fails = true) (hlength : length < 2 ^ 64) (hresult : s.result = toInt m) :
    ∃ t, Ends (read_len_next k) s t := by
  obtain ⟨n, hn⟩ : ∃ n, s.input.length ≤ n := ⟨_, Nat.le_refl _⟩
  induction n generalizing s m with
  | zero =>
    have hinput := List.length_eq_zero_iff.mp (Nat.le_zero.mp hn)
    obtain ⟨t, hends, -⟩ := ends_at_error hfails hlength hinput hresult
    exact ⟨t, hends⟩
  | succ n ih =>
    by_cases hinput : s.input = []
    · obtain ⟨t, hends, -⟩ := ends_at_error hfails hlength hinput hresult
      exact ⟨t, hends⟩
    · by_cases hguard : toSize s.result < length
      · obtain ⟨buf', -, hnext⟩ := next_data (k := k) hguard hinput
        have hleft := List.length_pos_iff.mpr hinput
        have htook : 0 < k.took length s.input.length := by
          have hzero := toSize_nonneg s.result
          exact took_pos (by omega) hleft
        rw [hresult, toInt_add] at hnext
        have hlen : (s.input.drop (k.took length s.input.length)).length ≤ n := by
          rw [List.length_drop]
          omega
        obtain ⟨t, hends⟩ := ih (s := ⟨_, buf', _⟩) rfl hlen
        exact ⟨t, (ends_iff_next hnext).mpr hends⟩
      · exact ⟨s, (ends_iff_stop (next_enough hguard)).mpr rfl⟩

/-! ## A whole message -/

/-- Where less than the message is taken in each round, its last place in `buf` stays as it is. -/
theorem last_unchanged {avail : Nat} (h : Ends (read_len_next k) s t) (hs : s.input.length < avail)
    (ht : avail ≤ t.input.length + length) : t.buf.bytes[length - 1]? = s.buf.bytes[length - 1]? := by
  obtain ⟨fuel, hfuel⟩ := h
  induction fuel generalizing s with
  | zero => cases hfuel
  | succ fuel ih =>
    cases hnext : read_len_next k s with
    | none => rw [Option.some.inj ((loop_stop hnext fuel).symm.trans hfuel)]
    | some u =>
      have hends : loop (read_len_next k) fuel u = some t := (loop_next hnext fuel).symm.trans hfuel
      have hsu := (next_input hnext).length_le
      have hut := (ends_input ⟨fuel, hends⟩).length_le
      rw [ih (Nat.lt_of_le_of_lt hsu hs) hends]
      by_cases hguard : toSize s.result < length
      · by_cases hinput : s.input = []
        · rw [next_end hguard hinput] at hnext
          cases hnext
          rfl
        · obtain ⟨buf', hbuf', hdata⟩ := next_data (k := k) hguard hinput
          rw [hdata] at hnext
          cases hnext
          rw [List.length_drop] at hut hsu
          have hle : k.took length s.input.length ≤ s.input.length :=
            (Nat.min_le_right _ _).trans (Nat.min_le_right _ _)
          have htook : k.took length s.input.length ≤ length - 1 := by omega
          show buf'.bytes[length - 1]? = _
          rw [hbuf', List.getElem?_append_right (by rw [List.length_take]; omega), List.length_take,
            List.getElem?_drop, Nat.min_eq_left hle, Nat.add_sub_cancel' htook]
      · rw [next_enough hguard] at hnext
        cases hnext

/-- The round that reads the whole message. -/
theorem next_whole (buf : CharArray length) (hpos : 0 < length) (hle : length ≤ input.length)
    (htook : k.took length input.length = length) :
    ∃ u, read_len_next k ⟨0, buf, input⟩ = some u ∧ u.result = toInt length ∧ u.buf.bytes = input.take length ∧
      u.input = input.drop length := by
  have hinput : input ≠ [] := List.length_pos_iff.mp (by omega)
  have hguard : toSize 0 < length := by
    rw [toSize_zero]
    exact Int.natCast_pos.mpr hpos
  obtain ⟨buf', hbuf', hnext⟩ := next_data (k := k) (s := ⟨0, buf, input⟩) hguard hinput
  simp only [htook, Int.zero_add] at hbuf' hnext
  refine ⟨_, hnext, by dsimp only, ?_, rfl⟩
  rw [hbuf', List.drop_of_length_le (Nat.le_of_eq buf.length_eq), List.append_nil]

/-- The first `read` takes all of it: else the last byte of the message is not the one that was there. -/
theorem DeliversMessage.took (h : DeliversMessage k length input) (hpos : 0 < length) (hle : length ≤ input.length) :
    k.took length input.length = length := by
  by_contra hne
  have hlt : k.took length input.length < length := Nat.lt_of_le_of_ne (k.took_le _ _) hne
  obtain ⟨last, hlast⟩ : ∃ b, input[length - 1]? = some b := ⟨_, List.getElem?_eq_getElem (by omega)⟩
  obtain ⟨s, hends, hwhole⟩ := h ⟨List.replicate length (last + 1), List.length_replicate⟩
  obtain ⟨hbytes, hinput⟩ := hwhole hle
  have hguard : toSize 0 < length := by
    rw [toSize_zero]
    exact Int.natCast_pos.mpr hpos
  have hne : input ≠ [] := List.length_pos_iff.mp (by omega)
  obtain ⟨buf', hbuf', hnext⟩ := next_data (k := k) (s := ⟨0, _, input⟩) hguard hne
  have hends := (ends_iff_next hnext).mp hends
  dsimp only at hbuf' hends
  have hfirst : 0 < k.took length input.length := took_pos hpos (by omega)
  have hless : (input.drop (k.took length input.length)).length < input.length := by
    rw [List.length_drop]
    omega
  have hsame := last_unchanged hends hless (by rw [hinput, List.length_drop]; omega)
  have hold : buf'.bytes[length - 1]? = some (last + 1) := by
    rw [hbuf', List.getElem?_append_right (by rw [List.length_take]; omega), List.length_take, List.getElem?_drop,
      List.getElem?_replicate, if_pos (by omega)]
  rw [hbytes, List.getElem?_take_of_lt (by omega), hlast] at hsame
  have hself := Option.some.inj (hsame.trans hold)
  simp at hself

/-- Behind the message the loop stops: its length is enough, or the next `read` fails. -/
theorem DeliversMessage.stops (h : DeliversMessage k length input) (hpos : 0 < length) (hle : length ≤ input.length)
    (htook : k.took length input.length = length) :
    Enough length length ∨ input.length = length ∧ k.read_fails = true := by
  apply or_iff_not_imp_left.mpr
  intro henough
  obtain ⟨s, hends, hwhole⟩ := h (.zero length)
  obtain ⟨-, hinput⟩ := hwhole hle
  obtain ⟨u, hnext, hresult, -, hrest⟩ := next_whole (.zero length) hpos hle htook
  have hends := (ends_iff_next hnext).mp hends
  have hguard : toSize u.result < length := by
    rw [hresult]
    exact Int.not_le.mp henough
  by_cases hnil : u.input = []
  · have hlen : input.length = length := Nat.le_antisymm (List.drop_eq_nil_iff.mp (hrest ▸ hnil)) hle
    refine ⟨hlen, ?_⟩
    by_contra hfails
    exact not_ends_at_eof (Bool.eq_false_iff.mpr hfails) hnil hresult hguard hends
  · -- the next round takes more than the message
    obtain ⟨buf₂, -, hnext₂⟩ := next_data (k := k) hguard hnil
    have hsuffix := (ends_input ((ends_iff_next hnext₂).mp hends)).length_le
    have hleft : 0 < u.input.length := List.length_pos_iff.mpr hnil
    have hmore : 0 < k.took length u.input.length := took_pos hpos hleft
    rw [hinput, ← hrest] at hsuffix
    dsimp only at hsuffix
    rw [List.length_drop] at hsuffix
    omega

/-- **A whole message** is delivered by one `read`. -/
theorem delivers_whole_iff (hlength : length < 2 ^ 64) (hpos : 0 < length) (hle : length ≤ input.length) :
    DeliversMessage k length input ↔ k.took length input.length = length ∧
      (Enough length length ∨ input.length = length ∧ k.read_fails = true) := by
  constructor
  · intro h
    have htook := h.took hpos hle
    exact ⟨htook, h.stops hpos hle htook⟩
  · rintro ⟨htook, hstop⟩ buf
    obtain ⟨u, hnext, hresult, hbytes, hrest⟩ := next_whole buf hpos hle htook
    by_cases henough : Enough length length
    · have hguard : ¬toSize u.result < length := by
        rw [hresult]
        exact Int.not_lt.mpr henough
      refine ⟨u, ?_, fun _ => ⟨hbytes, hrest⟩⟩
      exact (ends_iff_next hnext).mpr ((ends_iff_stop (next_enough hguard)).mpr rfl)
    · obtain ⟨hlen, hfails⟩ := hstop.resolve_left henough
      have hnil : u.input = [] := by
        rw [hrest]
        exact List.drop_eq_nil_iff.mpr (Nat.le_of_eq hlen)
      obtain ⟨t, hends, hbuf, hinput⟩ := ends_at_error hfails hlength hnil hresult
      exact ⟨t, (ends_iff_next hnext).mpr hends, fun _ => ⟨by rw [hbuf, hbytes], by rw [hinput, ← hrest, hnil]⟩⟩

/-! ## A message that is cut off -/

/-- The states after `m` bytes. -/
def At (input : List UInt8) (m : Nat) (s : ReadLen length) : Prop := s.result = toInt m ∧ s.input = input.drop m

theorem At.next {m : Nat} (h : At input m s) (hguard : toSize s.result < length) (hm : m < input.length) :
    ∃ t, read_len_next k s = some t ∧ At input (m + k.took length (input.length - m)) t := by
  obtain ⟨hresult, hinput⟩ := h
  have hne : s.input ≠ [] := by
    rw [hinput]
    exact fun hnil => absurd (List.drop_eq_nil_iff.mp hnil) (by omega)
  obtain ⟨buf', -, hnext⟩ := next_data (k := k) hguard hne
  refine ⟨_, hnext, ?_, ?_⟩
  · dsimp only
    rw [hresult, toInt_add, hinput, List.length_drop, Int.natCast_add]
  · dsimp only
    rw [hinput, List.drop_drop, List.length_drop]

/-- At the end of the file, the loop has ended before. -/
theorem ends_cut_iff (hfails : k.read_fails = false) :
    (∃ s, ReadLenEnds k buf input s) ↔ ∃ m, HandedOut k length input.length m ∧ Enough length m := by
  constructor
  · intro hends
    obtain ⟨s, hends⟩ := hends
    by_contra hnone
    -- no state that is reached is taken for the end
    refine not_ends (I := fun u => ∃ m, HandedOut k length input.length m ∧ m ≤ input.length ∧ At input m u) ?_
      ⟨0, .zero, Nat.zero_le _, toInt_zero.symm, rfl⟩ hends
    rintro u ⟨m, hm, hle, hat⟩
    have hguard : toSize u.result < length := by
      rw [hat.1]
      exact Int.not_le.mp fun henough => hnone ⟨m, hm, henough⟩
    rcases Nat.lt_or_eq_of_le hle with hlt | heq
    · obtain ⟨t, hnext, ht⟩ := hat.next hguard hlt
      have htook : k.took length (input.length - m) ≤ input.length - m :=
        (Nat.min_le_right _ _).trans (Nat.min_le_right _ _)
      exact ⟨t, hnext, _, hm.next hlt, by omega, ht⟩
    · have hrest : u.input = [] := by
        rw [hat.2]
        exact List.drop_eq_nil_iff.mpr (Nat.le_of_eq heq.symm)
      have hnext := next_end (k := k) hguard hrest
      rw [hfails, hat.1, toInt_add] at hnext
      exact ⟨_, hnext, m, hm, hle, by simp, by rw [← hat.2, hrest]⟩
  · rintro ⟨m, hm, henough⟩
    have hreach : (∃ s, ReadLenEnds k buf input s) ∨
        ∃ s, At input m s ∧ ∀ t, Ends (read_len_next k) s t → ReadLenEnds k buf input t := by
      clear henough
      induction hm with
      | zero => exact .inr ⟨⟨0, buf, input⟩, ⟨toInt_zero.symm, rfl⟩, fun _ h => h⟩
      | next _ hlt ih =>
        rcases ih with hends | ⟨s, hat, hs⟩
        · exact .inl hends
        · by_cases hguard : toSize s.result < length
          · obtain ⟨t, hnext, ht⟩ := hat.next hguard hlt
            exact .inr ⟨t, ht, fun u hu => hs u ((ends_iff_next hnext).mpr hu)⟩
          · exact .inl ⟨s, hs s ((ends_iff_stop (next_enough hguard)).mpr rfl)⟩
    rcases hreach with hends | ⟨s, hat, hs⟩
    · exact hends
    · refine ⟨s, hs s ((ends_iff_stop (next_enough ?_)).mpr rfl)⟩
      rw [hat.1]
      exact Int.not_lt.mpr henough

end

/-! ## `read_len` -/

/-- In the range of `int`, a number of bytes is enough if it is that of the message. -/
theorem enough_iff {m : Nat} (hm : m ≤ INT_MAX) : Enough length m ↔ length ≤ m := by
  have hmax : INT_MAX = 2147483647 := by decide
  have hint : toInt m = m := Int.bmod_eq_of_le (by omega) (by omega)
  unfold Enough toSize
  rw [hint]
  omega

/-- **`read_len` delivers the message** if and only if it comes whole, or the stream ends before. -/
theorem read_len_delivers_iff (k : Kernel) (input : List UInt8) (hlength : length < 2 ^ 64) :
    DeliversMessage k length input ↔ length = 0 ∨ ComesWhole k length input ∨ CutOff k length input := by
  rcases Nat.eq_zero_or_pos length with rfl | hpos
  · refine iff_of_true (fun buf => ?_) (.inl rfl)
    have hguard : ¬toSize 0 < (0 : Nat) := by decide
    refine ⟨⟨0, buf, input⟩, (ends_iff_stop (next_enough hguard)).mpr rfl, fun _ => ⟨?_, rfl⟩⟩
    exact List.length_eq_zero_iff.mp buf.length_eq
  · rw [or_iff_right (Nat.ne_of_gt hpos)]
    rcases Nat.lt_or_ge input.length length with hlt | hle
    · have hwhole : ¬ComesWhole k length input := fun h => absurd h.1 (Nat.not_le.mpr hlt)
      have hends : DeliversMessage k length input ↔ ∀ buf : CharArray length, ∃ s, ReadLenEnds k buf input s :=
        forall_congr' fun _ => exists_congr fun _ => and_iff_left fun h => absurd h (Nat.not_le.mpr hlt)
      rw [or_iff_right hwhole, hends]
      cases hfails : k.read_fails with
      | true =>
        refine iff_of_true (fun buf => ?_) ⟨hlt, .inl hfails⟩
        exact ends_of_fails (s := ⟨0, buf, input⟩) hfails hlength toInt_zero.symm
      | false =>
        constructor
        · intro h
          exact ⟨hlt, .inr ((ends_cut_iff hfails).mp (h (.zero length)))⟩
        · rintro ⟨-, h⟩ buf
          have h := h.resolve_left (by rw [hfails]; exact Bool.false_ne_true)
          exact (ends_cut_iff hfails).mpr h
    · have hcut : ¬CutOff k length input := fun h => absurd h.1 (Nat.not_lt.mpr hle)
      rw [or_iff_left hcut, delivers_whole_iff hlength hpos hle]
      exact (and_iff_right hle).symm

/-- A message that is there as a whole. -/
theorem whole_message_delivered : DeliversMessage ⟨id, false⟩ 2 [104, 105, 106] := by
  have henough : Enough 2 2 := (enough_iff (by decide)).mpr (Nat.le_refl 2)
  exact (read_len_delivers_iff ⟨id, false⟩ [104, 105, 106] (by decide)).mpr
    (.inr (.inl ⟨by decide, by decide, .inl henough⟩))

/-- A message of two bytes that come one by one. -/
theorem split_message_not_delivered : ¬DeliversMessage ⟨fun _ => 1, false⟩ 2 [104, 105] := by
  intro h
  have htook := h.took Nat.zero_lt_two (Nat.le_refl 2)
  exact absurd htook (by decide)

end Cs326.Socket
