import Cs326.Lib.Numerals
import Cs326.Socket.ReadLen

/-!
# The server

The inner loop of `main` in `server.c`: the size of a message is read, then the message, which is printed. Where the
system hands out all that it has, a size and its message are taken by one `read` each (`read_into_whole`).
-/

namespace Cs326.Socket

open CharArray

variable {cap length n : Nat} {buf : CharArray 128} {input rest str : List UInt8}

/-- `read(fd, buf, length)`, whatever the length of the array. A length that is negative as a `ssize_t` is refused. -/
def read_into (n length : Nat) (buf : CharArray cap) (input : List UInt8) :
    Except Undefined (CharArray cap × Int × List UInt8) :=
  if 2 ^ 63 ≤ length then return (buf, -1, input)
  else if input = [] then return (buf, 0, [])
  else do
    let got := (Kernel.mk (fun _ => n) false).took length input.length
    let buf ← buf.write 0 (input.take got)
    return (buf, got, input.drop got)

/-- On the part of the array that is asked for, it is the `read` of `read_len`. -/
theorem read_into_eq (front : CharArray length) {back : List UInt8} {buf : CharArray cap}
    (h : buf.bytes = front.bytes ++ back) (hlength : length < 2 ^ 63) (n : Nat) (input : List UInt8) :
    ∃ buf' : CharArray cap,
      read_into n length buf input = .ok (buf', (read ⟨fun _ => n, false⟩ front input).2) ∧
        buf'.bytes = (read ⟨fun _ => n, false⟩ front input).1.bytes ++ back := by
  have hfront := front.length_eq
  unfold read_into read
  rw [if_neg (Nat.not_le.mpr hlength)]
  by_cases hinput : input = []
  · rw [if_pos hinput, if_pos hinput]
    exact ⟨buf, rfl, h⟩
  · rw [if_neg hinput, if_neg hinput]
    dsimp only
    have hle := Kernel.took_le ⟨fun _ => n, false⟩ length input.length
    have hleft : (Kernel.mk (fun _ => n) false).took length input.length ≤ input.length :=
      (Nat.min_le_right _ _).trans (Nat.min_le_right _ _)
    generalize (Kernel.mk (fun _ => n) false).took length input.length = got at hle hleft
    obtain ⟨buf', hwrite, hbytes⟩ := write_eq (a := buf) [] (front.bytes.take got) (input.take got)
      (front.bytes.drop got ++ back)
      (by rw [List.nil_append, ← List.append_assoc, List.take_append_drop, h])
      (by rw [List.length_take, List.length_take]; omega)
    refine ⟨buf', ?_, ?_⟩
    · rw [show buf.write 0 (input.take got) = .ok buf' from hwrite, ok_bind]
      rfl
    · rw [hbytes, List.nil_append, List.append_assoc]

inductive Server
  /-- In the first `read_len` of a round. -/
  | readSize (result : Int) (size : CharArray 128)
  /-- In the second one. -/
  | readBody (sz : Int) (result : Int) (buf : CharArray 128)
  | accept

/-- The start of a round. -/
def Server.start : Server := .readSize 0 (.zero 128)

/-- What a step of the server does. -/
structure ServerStep where
  server : Server
  input : List UInt8
  printed : List (List UInt8)

/-- A round of the loop of `read_len`; `none`: it waits, where the `read` is not refused. -/
def readStep (n : Nat) (eof : Bool) (input : List UInt8) (length : Nat) (result : Int) (buf : CharArray 128)
    (next : Int → CharArray 128 → Server) : Except Undefined (Option ServerStep) :=
  if length < 2 ^ 63 ∧ input = [] ∧ eof = false then return none
  else do
    let (buf, got, input) ← read_into n length buf input
    return some ⟨next (toInt (result + got)) buf, input, []⟩

/-- A step of the server, where a `read` returns up to `n` bytes: one of them, or what comes behind the loops. -/
def Server.step (n : Nat) (eof : Bool) (input : List UInt8) : Server → Except Undefined (Option ServerStep)
  | .readSize result size =>
    if toSize result < (8 : Nat) then readStep n eof input 8 result size .readSize
    else do
      let str ← size.string 0
      return some ⟨.readBody (atoi str) 0 (.zero 128), input, []⟩
  | .readBody sz result buf =>
    if toSize result < toSize sz then readStep n eof input (toSize sz).toNat result buf (.readBody sz)
    else if result = -1 ∨ result = 0 then return some ⟨.accept, input, []⟩
    else do
      let str ← buf.string 0
      return some ⟨.start, input, [str]⟩
  | .accept => return none

/-! ## What one `read` takes -/

theorem took_whole (hn : 128 ≤ n) (hlength : length ≤ 128) (hpos : 0 < length) {left : Nat} (hleft : length ≤ left) :
    (Kernel.mk (fun _ => n) false).took length left = length := by
  unfold Kernel.took
  dsimp only
  omega

/-- **A whole piece** is taken by one `read`. -/
theorem readStep_whole (hn : 128 ≤ n) (eof : Bool) {piece : List UInt8} (hpos : 0 < piece.length)
    (hle : piece.length ≤ 128) (rest : List UInt8) (next : Int → CharArray 128 → Server) : ∃ buf back,
      readStep n eof (piece ++ rest) piece.length 0 (.zero 128) next =
        .ok (some ⟨next piece.length buf, rest, []⟩) ∧ buf.bytes = piece ++ back ∧
          back = List.replicate (128 - piece.length) 0 := by
  have hne : piece ++ rest ≠ [] := fun h => by
    rw [(List.append_eq_nil_iff.mp h).1] at hpos
    exact absurd hpos (Nat.lt_irrefl 0)
  have htook : (Kernel.mk (fun _ => n) false).took piece.length (piece ++ rest).length = piece.length :=
    took_whole hn hle hpos (by rw [List.length_append]; omega)
  have hzero : (CharArray.zero 128).bytes = [] ++ (List.replicate piece.length 0 ++
      List.replicate (128 - piece.length) 0) := by
    rw [List.nil_append, List.replicate_append_replicate, Nat.add_sub_cancel' hle]
    rfl
  obtain ⟨buf, hwrite, hbytes⟩ := write_eq [] _ piece _ hzero List.length_replicate.symm
  refine ⟨buf, List.replicate (128 - piece.length) 0, ?_, hbytes, rfl⟩
  have hint : toInt (0 + piece.length) = piece.length := by
    rw [Int.zero_add]
    exact Int.bmod_eq_of_le (by omega) (by omega)
  have hread : read_into n piece.length (.zero 128) (piece ++ rest) = .ok (buf, (piece.length : Int), rest) := by
    unfold read_into
    rw [if_neg (by omega), if_neg hne]
    dsimp only
    rw [htook, List.take_left, List.drop_left, show (CharArray.zero 128).write 0 piece = .ok buf from hwrite, ok_bind]
    rfl
  unfold readStep
  rw [if_neg fun h => hne h.2.1, hread, ok_bind]
  dsimp only
  rw [hint]
  rfl

/-- At the end of the file a `read` changes nothing. -/
theorem readStep_eof {result : Int} (hlength : length < 2 ^ 63) (hresult : toInt result = result)
    (next : Int → CharArray 128 → Server) :
    readStep n true [] length result buf next = .ok (some ⟨next result buf, [], []⟩) := by
  unfold readStep read_into
  rw [if_neg fun h => Bool.noConfusion h.2.2, if_neg (Nat.not_le.mpr hlength), if_pos rfl, pure_ok, ok_bind]
  dsimp only
  rw [Int.add_zero, hresult]
  rfl

/-- A negative size: the `read` fails, whatever there is to be read. -/
theorem readStep_refused (hlength : 2 ^ 63 ≤ length) (eof : Bool) (input : List UInt8)
    (next : Int → CharArray 128 → Server) :
    readStep n eof input length 0 buf next = .ok (some ⟨next (-1) buf, input, []⟩) := by
  unfold readStep read_into
  rw [if_neg fun h => Nat.not_le.mpr h.1 hlength, if_pos hlength]
  rfl

/-! ## Steps -/

theorem toSize_natCast {m : Nat} (hm : m < 2 ^ 64) : toSize m = m := Int.emod_eq_of_lt (by omega) (by omega)

/-- The server waits for what the client has not written yet. -/
theorem readStep_waits (hlength : length < 2 ^ 63) (result : Int) (next : Int → CharArray 128 → Server) :
    readStep n false [] length result buf next = .ok none := if_pos ⟨hlength, rfl, rfl⟩

theorem step_start (eof : Bool) (input : List UInt8) :
    Server.start.step n eof input = readStep n eof input 8 0 (.zero 128) .readSize := by
  have hguard : toSize 0 < (8 : Nat) := by decide
  unfold Server.step Server.start
  dsimp only
  rw [if_pos hguard]

theorem step_readBody {sz : Nat} (hpos : 0 < sz) (hsz : sz < 2 ^ 64) (eof : Bool) (input : List UInt8) :
    (Server.readBody sz 0 buf).step n eof input = readStep n eof input sz 0 buf (.readBody sz) := by
  have hsize := toSize_natCast hsz
  have hguard : toSize 0 < toSize sz := by
    rw [hsize, toSize_zero]
    exact Int.natCast_pos.mpr hpos
  unfold Server.step
  dsimp only
  rw [if_pos hguard, hsize, Int.toNat_natCast]

/-- Behind the first loop. -/
theorem step_gotSize {m : Nat} (h : StringAt buf 0 (decimal m)) (hm : m < 2 ^ 31) (eof : Bool) (input : List UInt8) :
    (Server.readSize (8 : Nat) buf).step n eof input = .ok (some ⟨.readBody m 0 (.zero 128), input, []⟩) := by
  have hguard : ¬toSize (8 : Nat) < (8 : Nat) := by decide
  unfold Server.step
  dsimp only
  rw [if_neg hguard, h.string, ok_bind, (numeral_decimal m).atoi_eq hm]
  rfl

/-- Behind the second one. -/
theorem step_gotBody {sz : Nat} (h : StringAt buf 0 str) (hpos : 0 < sz) (hsz : sz < 2 ^ 64) (eof : Bool)
    (input : List UInt8) :
    (Server.readBody sz sz buf).step n eof input = .ok (some ⟨.start, input, [str]⟩) := by
  unfold Server.step
  dsimp only
  rw [if_neg (Int.lt_irrefl _), if_neg (by omega), h.string, ok_bind]
  rfl

end Cs326.Socket
