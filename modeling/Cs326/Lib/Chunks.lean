import Cs326.Lib.CharArray

/-!
# A file in chunks

What successive calls of `fgets` read of a file: lines, and a line that has no room in the array in several pieces.
Pieces that are full come off the front (`chunks_full`), the end of a line ends a chunk (`chunks_newline`), so the lines
of a file are cut into chunks each for itself (`chunks_append`).
-/

namespace Cs326

open CharArray

namespace CharArray

variable {cap n : Nat} {a : CharArray cap} {file line front rest : List UInt8}

theorem lineOf_pos (hn : 0 < n) (hne : file ≠ []) : 0 < (lineOf n file).length := by
  obtain ⟨n, rfl⟩ : ∃ k, n = k + 1 := ⟨n - 1, by omega⟩
  cases file with
  | nil => exact absurd rfl hne
  | cons b file =>
    rw [lineOf]
    split_ifs <;> simp

/-- One call, with what it reads. -/
theorem fgets_lineOf (a : CharArray cap) (hcap : 0 < cap) (hne : file ≠ []) : ∃ a' back,
    a.fgets file = .ok (some (a', file.drop (lineOf (cap - 1) file).length)) ∧
      a'.bytes = lineOf (cap - 1) file ++ 0 :: back := by
  have hlen := a.length_eq
  have hle := lineOf_length_le (cap - 1) file
  generalize htext : lineOf (cap - 1) file = text at hle
  obtain ⟨a', hwrite, hbytes⟩ := write_eq (a := a) [] (a.bytes.take (text.length + 1)) (text ++ [0])
    (a.bytes.drop (text.length + 1)) (by rw [List.take_append_drop]; rfl)
    (by rw [List.length_append, List.length_take, List.length_singleton]; omega)
  refine ⟨a', a.bytes.drop (text.length + 1), ?_, by simpa using hbytes⟩
  unfold fgets
  rw [if_neg hne]
  dsimp only
  rw [htext, show a.write 0 (text ++ [0]) = .ok a' from hwrite]
  rfl

end CharArray

variable {n : Nat} {file line front rest : List UInt8}

/-- The texts that are read where there is room for `n + 1` bytes. -/
def chunks (n : Nat) (file : List UInt8) : List (List UInt8) :=
  if _h : file = [] then []
  else lineOf (n + 1) file :: chunks n (file.drop (lineOf (n + 1) file).length)
termination_by file.length
decreasing_by
  have hpos : 0 < (lineOf (n + 1) file).length := lineOf_pos (Nat.succ_pos n) _h
  have hfile := List.length_pos_iff.mpr _h
  rw [List.length_drop]
  omega

@[simp] theorem chunks_nil (n : Nat) : chunks n [] = [] := by
  rw [chunks, dif_pos rfl]

theorem chunks_of_ne_nil (hne : file ≠ []) :
    chunks n file = lineOf (n + 1) file :: chunks n (file.drop (lineOf (n + 1) file).length) := by
  rw [chunks, dif_neg hne]

/-- A full chunk. -/
theorem chunks_full (h10 : 10 ∉ line) (hlen : line.length = n + 1) (rest : List UInt8) :
    chunks n (line ++ rest) = line :: chunks n rest := by
  have hne : line ++ rest ≠ [] := by
    rintro h
    rw [(List.append_eq_nil_iff.mp h).1] at hlen
    cases hlen
  rw [chunks_of_ne_nil hne, lineOf_full h10 hlen, List.drop_left]

/-- The end of a line. -/
theorem chunks_newline (h10 : 10 ∉ line) (hlen : line.length ≤ n) (rest : List UInt8) :
    chunks n (line ++ 10 :: rest) = (line ++ [10]) :: chunks n rest := by
  have htake : (line ++ [10]).take (n + 1) = line ++ [10] :=
    List.take_of_length_le (by rw [List.length_append, List.length_singleton]; omega)
  rw [chunks_of_ne_nil (by simp), lineOf_newline h10, htake, List.append_cons line 10 rest, List.drop_left]

/-- The end of the file. -/
theorem chunks_last (h10 : 10 ∉ line) (hlen : line.length ≤ n + 1) (hne : line ≠ []) : chunks n line = [line] := by
  rw [chunks_of_ne_nil hne, lineOf_last h10 hlen, List.drop_length, chunks_nil]

/-- **Lines are cut into chunks each for itself.** -/
theorem chunks_append (hfront : ∀ b ∈ front.getLast?, b = 10) (rest : List UInt8) :
    chunks n (front ++ rest) = chunks n front ++ chunks n rest := by
  obtain ⟨m, hm⟩ : ∃ m, front.length ≤ m := ⟨_, Nat.le_refl _⟩
  induction m generalizing front with
  | zero =>
    rw [List.length_eq_zero_iff.mp (Nat.le_zero.mp hm), chunks_nil]
    rfl
  | succ m ih =>
    by_cases hnil : front = []
    · rw [hnil, chunks_nil]
      rfl
    · have hmem : 10 ∈ front := by
        have hlast := List.getLast?_eq_some_getLast hnil
        rw [← hfront _ hlast]
        exact List.getLast_mem hnil
      obtain ⟨line, front', rfl, h10⟩ := List.eq_append_cons_of_mem hmem
      rw [List.length_append, List.length_cons] at hm
      rcases Nat.lt_or_ge n line.length with hlt | hle
      · -- a full chunk comes off the line
        obtain ⟨full, line, rfl, hfull⟩ : ∃ full line', line = full ++ line' ∧ full.length = n + 1 :=
          ⟨line.take (n + 1), line.drop (n + 1), (List.take_append_drop _ _).symm, by rw [List.length_take]; omega⟩
        have hfull10 : 10 ∉ full := fun h => h10 (List.mem_append_left _ h)
        rw [List.length_append] at hm
        have hchunks : chunks n (line ++ 10 :: front' ++ rest) = chunks n (line ++ 10 :: front') ++ chunks n rest :=
          ih (by simpa using hfront) (by simp; omega)
        rw [show full ++ line ++ 10 :: front' = full ++ (line ++ 10 :: front') from List.append_assoc _ _ _,
          List.append_assoc, chunks_full hfull10 hfull, chunks_full hfull10 hfull, hchunks]
        rfl
      · have hchunks : chunks n (front' ++ rest) = chunks n front' ++ chunks n rest := by
          apply ih
          · intro b hb
            apply hfront b
            rw [List.getLast?_append, List.getLast?_cons, hb]
            rfl
          · omega
        rw [List.append_assoc, List.cons_append, chunks_newline h10 hle, chunks_newline h10 hle, hchunks]
        rfl

end Cs326
