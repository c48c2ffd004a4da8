import Cs326.Lib.CString

/-!
# The tokens of a line

`next_token` of `tokenizer.c` and the loop of `tokenizer` in `shell.c`. The cursor is the string it points to. The zero
that `next_token` writes behind a token is in front of the cursor from then on, so no later call reads it.
-/

namespace Cs326.Prompt

/-- `" \t\r\n"`. -/
def delimiters : List UInt8 := [32, 9, 13, 10]

/-- The two quotes, single and double. -/
def quotes : List UInt8 := [39, 34]

/-- `#`. -/
def hash : UInt8 := 35

/-- `tok_end` where `next_token` tests it. -/
def tokEnd (delim : List UInt8) (str : CString) : Nat :=
  let tok_st := str.strspn delim
  let tok_end := (str.drop tok_st).strcspn delim
  let quote_st := str.strcspn quotes
  if quote_st < tok_end then
    let offset := quote_st + 1
    let quote_end := (str.drop offset).strcspn [(str.drop quote_st).head] + offset
    (str.drop quote_end).strcspn delim + quote_end - tok_st
  else tok_end

/-- The token and the new cursor. -/
def next_token (delim : List UInt8) : Option CString → Option CString × Option CString
  | none => (none, none)
  | some str =>
    let tok_st := str.strspn delim
    let tok_end := tokEnd delim str
    if tok_end = 0 then (none, none)
    else
      let rest := str.drop (tok_st + tok_end)
      (some ((str.drop tok_st).take tok_end), if rest.head = 0 then none else some (rest.drop 1))

/-- The loop of `tokenizer`, with the number of rounds it has left. -/
def tokenLoop : Nat → Option CString → List CString
  | 0, _ => []
  | n + 1, cursor =>
    match next_token delimiters cursor with
    | (none, _) => []
    | (some tok, cursor) => if tok.head = hash then [] else tok :: tokenLoop n cursor

/-- The tokens that the loop stores, the test `i <= 5000` allowing for `5001` rounds. -/
def stored (str : CString) : List CString := tokenLoop 5001 (some str)

/-- The array `tokens` up to its first `NULL`. The `5000`th token makes `tokens[0]` `NULL`. -/
def tokens (str : CString) : List CString := if (stored str).length < 5000 then stored str else []

variable {delim : List UInt8} {str tok : CString} {cursor : Option CString} {n : Nat}

theorem head_take {s : CString} (hn : n ≠ 0) : (s.take n).head = s.head := by
  obtain ⟨k, rfl⟩ := Nat.exists_eq_succ_of_ne_zero hn
  obtain ⟨bytes, h0⟩ := s
  cases bytes <;> rfl

/-- A token that starts the string starts with the first byte of the string. -/
theorem head_next_token (hspn : str.strspn delim = 0) (ht : (next_token delim (some str)).1 = some tok) :
    tok.head = str.head := by
  unfold next_token at ht
  simp only [hspn] at ht
  split at ht
  · cases ht
  · rename_i hne
    obtain rfl := Option.some.inj ht
    rw [head_take hne]
    rfl

/-- **A line that begins with `#`** has no tokens. -/
theorem tokens_of_hash (hstr : str.head = hash) : tokens str = [] := by
  have hspn : str.strspn delimiters = 0 := by
    obtain ⟨bytes, h0⟩ := str
    cases bytes with
    | nil => rfl
    | cons b bytes =>
      obtain rfl : b = hash := hstr
      rfl
  have hstored : stored str = [] := by
    rw [stored, tokenLoop]
    split
    · rfl
    · rename_i tok cursor ht
      have htok : tok.head = str.head := head_next_token hspn (by rw [ht])
      exact if_pos (htok.trans hstr)
  rw [tokens, hstored]
  rfl

end Cs326.Prompt
