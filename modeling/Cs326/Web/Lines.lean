import Cs326.Web.Server

/-!
# The lines of a request

What the bytes on a connection are to `handle_request`, line by line. `chunk` is one call of `read_line`
(`read_line_closed`, `read_line_chunk`): the text up to a newline, at most 8192 bytes of it. `classify` is what the
tokens of that text say (`header_line_eq`). `headers` lists the lines of a request up to the first that is blank or
undefined.
-/

namespace Cs326.Web

open CharArray Text

/-! ## One line -/

/-- The text that one call of `read_line` reads, and what is left; `none`: the end of the input, or nothing in front of
a newline, which `read_line` reports in the same way. -/
def chunk (input : List UInt8) : Option (List UInt8 × List UInt8) :=
  let text := lineOf 8192 input
  if text = [10] ∨ text.length < 8192 ∧ 10 ∉ text then none else some (text, input.drop text.length)

theorem chunk_eq {input text rest : List UInt8} (h : chunk input = some (text, rest)) :
    lineOf 8192 input = text ∧ input.drop text.length = rest ∧ text ≠ [10] ∧ text.length ≤ 8192 ∧
      (text.length = 8192 ∨ 10 ∈ text) := by
  have hle := lineOf_length_le 8192 input
  unfold chunk at h
  dsimp only at h
  split_ifs at h with hend
  obtain ⟨hnewline, hline⟩ := not_or.mp hend
  cases h
  refine ⟨rfl, rfl, hnewline, hle, or_iff_not_imp_right.mpr fun h10 => ?_⟩
  exact Nat.le_antisymm hle (Nat.not_lt.mp fun hlt => hline ⟨hlt, h10⟩)

theorem chunk_lt {input text rest : List UInt8} (h : chunk input = some (text, rest)) : rest.length < input.length := by
  obtain ⟨htext, rfl, -, -, hlen⟩ := chunk_eq h
  have hpos : 0 < text.length := by
    rcases hlen with hlen | h10
    · omega
    · exact List.length_pos_of_mem h10
  have hinput : 0 < input.length := by
    apply List.length_pos_iff.mpr
    rintro rfl
    simp [← htext, lineOf] at hpos
  rw [List.length_drop]
  omega

theorem chunk_line {line rest : List UInt8} (h10 : 10 ∉ line) (hne : line ≠ []) :
    chunk (line ++ 10 :: rest) =
      some ((line ++ [10]).take 8192, (line ++ 10 :: rest).drop ((line ++ [10]).take 8192).length) := by
  have hlen : ((line ++ [10]).take 8192).length = min 8192 (line.length + 1) := by simp
  have hpos := List.length_pos_iff.mpr hne
  unfold chunk
  dsimp only
  rw [lineOf_newline h10, if_neg]
  rintro (hone | ⟨hlt, hmem⟩)
  · have hone := congrArg List.length hone
    rw [hlen, List.length_singleton] at hone
    omega
  · rw [hlen] at hlt
    rw [List.take_of_length_le (by simp; omega)] at hmem
    simp at hmem

variable {env : Env} {cap n : Nat} {buf : CharArray cap} {header : CharArray 8192}
  {front input text rest s : List UInt8} {ts : List (List UInt8)}

/-- What `read_line` returns for a text. -/
def read_returns (env : Env) (total n : Nat) (text : List UInt8) : Int :=
  if 10 ∈ text then (total + text.length - 1 : Nat)
  else if text.length = n then (total + n : Nat)
  else if env.read_fails then -1 else 0

theorem read_returns_cons {b : UInt8} {total : Nat} (hb : b ≠ 10) :
    read_returns env total (n + 1) (b :: text) = read_returns env (total + 1) n text := by
  unfold read_returns
  simp only [List.mem_cons, Ne.symm hb, false_or, List.length_cons, Nat.add_right_cancel_iff]
  split_ifs <;> omega

/-- What `read_line` returns where `old` was in the buffer: a newline there is taken for one that is read. -/
def read_returns_over (env : Env) (total n : Nat) (old text : List UInt8) : Int :=
  if 10 ∉ text ∧ old[text.length]? = some 10 then (total + text.length : Nat) else read_returns env total n text

theorem read_returns_over_cons {b c : UInt8} {total : Nat} {old : List UInt8} (hb : b ≠ 10) :
    read_returns_over env total (n + 1) (c :: old) (b :: text) = read_returns_over env (total + 1) n old text := by
  unfold read_returns_over
  rw [read_returns_cons hb]
  simp only [List.mem_cons, Ne.symm hb, false_or, List.length_cons, List.getElem?_cons_succ]
  split_ifs <;> omega

theorem read_returns_over_zero (env : Env) (total n k : Nat) (text : List UInt8) :
    read_returns_over env total n (List.replicate k 0) text = read_returns env total n text := by
  apply if_neg
  intro h
  have hmem := List.eq_of_mem_replicate (List.mem_of_getElem? h.2)
  exact absurd hmem (by decide)

/-- The loop of `read_line`, with room for the bytes `old`. -/
theorem read_loop_over (env : Env) (buf : CharArray cap) (front old input : List UInt8)
    (hbuf : buf.bytes = front ++ old) :
    let text := lineOf old.length input
    ∃ buf' : CharArray cap, read_loop env old.length front.length buf input =
        .ok (buf', read_returns_over env front.length old.length old text, input.drop text.length) ∧
      buf'.bytes = front ++ (text ++ old.drop text.length) := by
  induction old generalizing front buf input with
  | nil =>
    refine ⟨buf, ?_, by simpa [lineOf] using hbuf⟩
    simp [read_loop, read_returns_over, read_returns, lineOf]
  | cons c old ih =>
    cases input with
    | nil =>
      refine ⟨buf, ?_, by simpa [lineOf] using hbuf⟩
      have hget := get_eq front old hbuf
      rw [List.length_cons, read_loop]
      simp only [read, pure_ok, ok_bind, hget]
      by_cases hc : c = 10
      · simp [read_returns_over, lineOf, hc]
      · cases hfails : env.read_fails <;> simp [read_returns_over, read_returns, lineOf, hc, hfails]
    | cons b input =>
      obtain ⟨buf₁, hwrite, hbuf₁⟩ := write_eq front [c] [b] old hbuf rfl
      have hget := get_eq front old hbuf₁
      rw [List.length_cons, read_loop]
      simp only [read, hwrite, pure_ok, ok_bind, hget]
      by_cases hb : b = 10
      · subst hb
        refine ⟨buf₁, ?_, ?_⟩
        · simp [read_returns_over, read_returns, lineOf]
        · simpa [lineOf] using hbuf₁
      · obtain ⟨buf', hloop, hbuf'⟩ := ih buf₁ (front ++ [b]) input (by simpa using hbuf₁)
        have hline : lineOf (old.length + 1) (b :: input) = b :: lineOf old.length input := if_neg hb
        refine ⟨buf', ?_, ?_⟩
        · rw [if_neg hb, if_neg (by decide), if_neg (by decide)]
          simp only [List.length_append, List.length_singleton] at hloop
          rw [hloop, hline, read_returns_over_cons hb, List.length_cons, List.drop_succ_cons]
        · rw [hbuf', hline]
          simp

/-- The loop of `read_line`, with room for `n` zeros. -/
theorem read_loop_eq (env : Env) (buf : CharArray cap) (front input : List UInt8)
    (hbuf : buf.bytes = front ++ List.replicate n 0) :
    ∃ buf' : CharArray cap, read_loop env n front.length buf input =
        .ok (buf', read_returns env front.length n (lineOf n input), input.drop (lineOf n input).length) ∧
      buf'.bytes = front ++ (lineOf n input ++ List.replicate (n - (lineOf n input).length) 0) := by
  obtain ⟨buf', hloop, hbuf'⟩ := read_loop_over env buf front _ input hbuf
  rw [List.length_replicate] at hloop hbuf'
  rw [read_returns_over_zero] at hloop
  rw [List.drop_replicate] at hbuf'
  exact ⟨buf', hloop, hbuf'⟩

theorem read_returns_closed (env : Env) (h : chunk input = none) :
    read_returns env 0 8192 (lineOf 8192 input) = -1 ∨ read_returns env 0 8192 (lineOf 8192 input) = 0 := by
  have hend : lineOf 8192 input = [10] ∨ (lineOf 8192 input).length < 8192 ∧ 10 ∉ lineOf 8192 input := by
    by_contra hne
    cases (if_neg hne).symm.trans h
  rcases hend with hnewline | ⟨hlt, hline⟩
  · right
    rw [hnewline]
    rfl
  · unfold read_returns
    rw [if_neg hline, if_neg (Nat.ne_of_lt hlt)]
    cases env.read_fails <;> simp

theorem read_returns_chunk (env : Env) (h : chunk input = some (text, rest)) : 0 < read_returns env 0 8192 text := by
  obtain ⟨-, -, hnewline, -, hlen⟩ := chunk_eq h
  unfold read_returns
  split_ifs with h10 hfull hfails
  · have hone : text.length ≠ 1 := by
      intro hone
      obtain ⟨b, rfl⟩ := List.length_eq_one_iff.mp hone
      exact hnewline (by rw [List.mem_singleton.mp h10])
    have hpos := List.length_pos_of_mem h10
    omega
  · omega
  · exact absurd (hlen.resolve_right h10) hfull
  · exact absurd (hlen.resolve_right h10) hfull

/-- The end of the input. -/
theorem read_line_closed (env : Env) (h : chunk input = none) :
    ∃ (header : CharArray 8192) (ret : Int) (rest : List UInt8),
      read_line env (.zero 8192) 8192 input = .ok (header, ret, rest) ∧ (ret = -1 ∨ ret = 0) := by
  obtain ⟨header, hread, -⟩ := read_loop_eq env (CharArray.zero 8192) [] input (n := 8192) rfl
  exact ⟨header, _, _, hread, read_returns_closed env h⟩

/-- **A line is read.** -/
theorem read_line_chunk (env : Env) (h : chunk input = some (text, rest)) : ∃ (header : CharArray 8192) (ret : Int),
    read_line env (.zero 8192) 8192 input = .ok (header, ret, rest) ∧ 0 < ret ∧
      header.bytes = text ++ List.replicate (8192 - text.length) 0 := by
  obtain ⟨header, hread, hbytes⟩ := read_loop_eq env (CharArray.zero 8192) [] input (n := 8192) rfl
  have hret := read_returns_chunk env h
  obtain ⟨rfl, rfl, -⟩ := chunk_eq h
  exact ⟨header, _, hread, hret, hbytes⟩

/-! ## The string of a line -/

/-- The bytes in front of the first zero. -/
def cstring (text : List UInt8) : List UInt8 := text.takeWhile fun b => b != 0

theorem cstring_cons {b : UInt8} (hb : b ≠ 0) (text : List UInt8) : cstring (b :: text) = b :: cstring text :=
  List.takeWhile_cons_of_pos (by simpa using hb)

/-- A text that is followed by zeros, or has one. -/
theorem exists_cstring (h : 0 < n ∨ 0 ∈ text) : ∃ rest, text ++ List.replicate n 0 = cstring text ++ 0 :: rest := by
  induction text with
  | nil =>
    obtain ⟨n, rfl⟩ : ∃ k, n = k + 1 := ⟨n - 1, by simp at h; omega⟩
    exact ⟨_, rfl⟩
  | cons b text ih =>
    by_cases hb : b = 0
    · subst hb
      exact ⟨_, rfl⟩
    · obtain ⟨rest, hrest⟩ := ih (h.imp_right fun hm => (List.mem_cons.mp hm).resolve_left (Ne.symm hb))
      exact ⟨rest, by rw [List.cons_append, hrest, cstring_cons hb]; rfl⟩

theorem cstring_append_of_not_mem (h0 : 0 ∉ text) (s : List UInt8) : cstring (text ++ s) = text ++ cstring s := by
  refine List.takeWhile_append_of_pos fun b hb => ?_
  have hne : b ≠ 0 := fun e => h0 (e ▸ hb)
  simpa using hne

theorem cstring_eq_self (h0 : 0 ∉ text) : cstring text = text := by
  have happend := cstring_append_of_not_mem h0 []
  rwa [List.append_nil, show cstring [] = [] from rfl, List.append_nil] at happend

theorem cstring_append_of_mem (h0 : 0 ∈ text) (s : List UInt8) : cstring (text ++ s) = cstring text := by
  induction text with
  | nil => cases h0
  | cons b text ih =>
    by_cases hb : b = 0
    · subst hb
      rfl
    · rw [List.cons_append, cstring_cons hb, cstring_cons hb, ih ((List.mem_cons.mp h0).resolve_left (Ne.symm hb))]

/-! ## The tokens of a line -/

/-- What the tokens of a line say; `none`: `strcpy` from `NULL`. -/
def HeaderLine.ofTokens : List (List UInt8) → Option HeaderLine
  | [] => some .blank
  | [t] => if t = GET then none else some .other
  | t :: u :: _ => if t = GET then some (.get u) else some .other

/-- The tokens with an end in front of the end of the buffer. -/
def closedTokens (text : List UInt8) : List (List UInt8) :=
  tokens delimiters (closed (fun b => delimiters.contains b) text)

/-- What a line is to `handle_request`; `none`: undefined. Without a zero behind the text, `LOG` and the scan for a
token that has no end in the buffer run over its end. -/
def classify (debug : Bool) (text : List UInt8) : Option HeaderLine :=
  if text.length < 8192 ∨ 0 ∈ text then HeaderLine.ofTokens (tokens delimiters (cstring text))
  else if debug = true ∨ closedTokens text = [] then none
  else HeaderLine.ofTokens (closedTokens text)

theorem zero_not_mem_delimiters : 0 ∉ delimiters := by decide

/-- The tokens of a line whose first token is `t`, wherever the tokens to come are found one by one. -/
theorem header_tokens_cons {t : List UInt8} {P : CharArray 8192 → Option Nat → List (List UInt8) → Prop}
    (hnil : ∀ {a ptr}, P a ptr [] → next_token a ptr delimiters = .ok (a, none, none) ∨
      next_token a ptr delimiters = .error .overrun)
    (hcons : ∀ {a ptr t ts}, P a ptr (t :: ts) → ∃ a' ptr' q,
      next_token a ptr delimiters = .ok (a', ptr', some q) ∧ StringAt a' q t ∧ P a' ptr' ts)
    (h : P header (some 0) (t :: ts)) : (header_tokens header).toOption = HeaderLine.ofTokens (t :: ts) := by
  obtain ⟨header₁, next_tok, tok, hnext, htok, hcur⟩ := hcons h
  unfold header_tokens
  simp only [hnext, htok.string, ok_bind]
  by_cases ht : t = GET
  · rw [if_pos ht]
    cases ts with
    | nil =>
      rcases hnil hcur with hnull | hover
      · rw [hnull]
        exact (if_pos ht).symm
      · rw [hover]
        exact (if_pos ht).symm
    | cons u ts =>
      obtain ⟨header₂, next_tok', tok', hnext', htok', -⟩ := hcons hcur
      simp only [hnext', htok'.string, ok_bind]
      exact (if_pos ht).symm
  · rw [if_neg ht]
    cases ts with
    | nil => exact (if_neg ht).symm
    | cons u ts => exact (if_neg ht).symm

/-- The tokens of a string. -/
theorem header_tokens_string (h : Cursor delimiters header (some 0) ts) :
    (header_tokens header).toOption = HeaderLine.ofTokens ts := by
  cases ts with
  | nil =>
    rw [header_tokens, next_token_nil zero_not_mem_delimiters h]
    rfl
  | cons t ts =>
    apply header_tokens_cons _ _ h
    · intro a ptr hcur
      exact .inl (next_token_nil zero_not_mem_delimiters hcur)
    · intro a ptr t ts hcur
      exact next_token_cons zero_not_mem_delimiters hcur

/-- The tokens of a full array without a zero. -/
theorem header_tokens_unended (h : Unended delimiters header 0 ts) :
    (header_tokens header).toOption = if ts = [] then none else HeaderLine.ofTokens ts := by
  cases ts with
  | nil =>
    rw [header_tokens, next_token_unended_nil h]
    rfl
  | cons t ts =>
    rw [if_neg (List.cons_ne_nil t ts)]
    apply header_tokens_cons (P := fun a ptr ts => ∃ p, ptr = some p ∧ Unended delimiters a p ts) _ _ ⟨0, rfl, h⟩
    · rintro a _ ⟨p, rfl, hcur⟩
      exact .inr (next_token_unended_nil hcur)
    · rintro a _ t ts ⟨p, rfl, hcur⟩
      obtain ⟨a', p', q, hnext, htok, hrest⟩ := next_token_unended_cons zero_not_mem_delimiters hcur
      exact ⟨a', some p', q, hnext, htok, p', rfl, hrest⟩

/-- **A line is what its text says.** -/
theorem header_line_eq (hbytes : header.bytes = text ++ List.replicate (8192 - text.length) 0) :
    (header_line env header).toOption = classify env.debug text := by
  unfold header_line classify
  by_cases hterm : text.length < 8192 ∨ 0 ∈ text
  · rw [if_pos hterm]
    have hs : StringAt header 0 (cstring text) := by
      refine ⟨fun hm => by simpa using List.mem_takeWhile_imp hm, ?_⟩
      rw [List.drop_zero, hbytes]
      exact exists_cstring (hterm.imp_left Nat.sub_pos_of_lt)
    have hlog : (header_tokens header).toOption = HeaderLine.ofTokens (tokens delimiters (cstring text)) :=
      header_tokens_string ⟨_, hs, rfl⟩
    cases env.debug with
    | false => exact hlog
    | true =>
      simp only [hs.string, ok_bind, if_true]
      exact hlog
  · rw [if_neg hterm]
    obtain ⟨hlen, hz⟩ := not_or.mp hterm
    have hfull : header.bytes = text := by
      rw [hbytes, Nat.sub_eq_zero_of_le (Nat.not_lt.mp hlen)]
      simp
    cases env.debug with
    | true =>
      have hover : header.string 0 = .error .overrun := by
        unfold CharArray.string CharArray.strlen
        rw [scan_overrun fun b hb => ?_]
        · rfl
        · rw [List.drop_zero, hfull] at hb
          have hne : b ≠ 0 := fun e => hz (e ▸ hb)
          simpa using hne
      simp only [hover, error_bind, if_true, true_or]
      rfl
    | false =>
      have hun : Unended delimiters header 0 (closedTokens text) := by
        refine ⟨?_, ?_⟩ <;> rw [List.drop_zero, hfull]
        · exact hz
        · rfl
      simpa using header_tokens_unended hun

/-! ## The lines of a request -/

/-- The tokens of the lines up to the first that is blank or undefined. -/
def headers (debug : Bool) (input : List UInt8) : List (Option HeaderLine) :=
  match _h : chunk input with
  | none => []
  | some (text, rest) =>
    match classify debug text with
    | some (.get target) => some (.get target) :: headers debug rest
    | some .other => some .other :: headers debug rest
    | last => [last]
termination_by input.length
decreasing_by all_goals exact chunk_lt _h

section

variable {line : List UInt8} {debug : Bool}

theorem headers_nil (h : chunk input = none) : headers debug input = [] := by
  rw [headers, h]

theorem headers_cons (h : chunk input = some (text, rest)) : headers debug input =
    match classify debug text with
    | some (.get target) => some (.get target) :: headers debug rest
    | some .other => some .other :: headers debug rest
    | last => [last] := by
  rw [headers, h]

/-- A delimiter at the end. -/
theorem tokens_append {b : UInt8} (hb : delimiters.contains b = true) (s : List UInt8) :
    tokens delimiters (s ++ [b]) = tokens delimiters s := by
  unfold tokens
  rw [pieces_append_delim hb, pieces_nil, List.append_nil]

theorem tokens_cstring_newline (s : List UInt8) :
    tokens delimiters (cstring (s ++ [10])) = tokens delimiters (cstring s) := by
  by_cases h0 : 0 ∈ s
  · rw [cstring_append_of_mem h0]
  · rw [cstring_append_of_not_mem h0, cstring_eq_self h0]
    exact tokens_append rfl s

/-- A line with room for itself and its zero. -/
def ShortLine (line : List UInt8) : Prop := 10 ∉ line ∧ 0 ∉ line ∧ line ≠ [] ∧ line.length < 8191

instance (line : List UInt8) : Decidable (ShortLine line) := inferInstanceAs (Decidable (_ ∧ _ ∧ _ ∧ _))

theorem classify_line (h : ShortLine line) :
    classify debug (line ++ [10]) = HeaderLine.ofTokens (tokens delimiters line) := by
  obtain ⟨h10, h0, hne, hlen⟩ := h
  unfold classify
  rw [if_pos (.inl (by simp; omega)), cstring_eq_self (by simpa using h0), tokens_append rfl]

theorem headers_line (h : ShortLine line) (rest : List UInt8) :
    headers debug (line ++ 10 :: rest) = match HeaderLine.ofTokens (tokens delimiters line) with
      | some (.get target) => some (.get target) :: headers debug rest
      | some .other => some .other :: headers debug rest
      | last => [last] := by
  have htext : (line ++ [10]).take 8192 = line ++ [10] := by
    apply List.take_of_length_le
    have hlen := h.2.2.2
    rw [List.length_append, List.length_singleton]
    omega
  have hrest : (line ++ 10 :: rest).drop (line ++ [10]).length = rest := by
    rw [List.append_cons line 10 rest, List.drop_left]
  rw [headers, chunk_line h.1 h.2.2.1, htext, hrest]
  simp only [classify_line h]

theorem headers_get {target : List UInt8} (h : ShortLine line)
    (hget : HeaderLine.ofTokens (tokens delimiters line) = some (.get target)) (rest : List UInt8) :
    headers debug (line ++ 10 :: rest) = some (.get target) :: headers debug rest := by
  rw [headers_line h, hget]

theorem headers_other (h : ShortLine line) (hother : HeaderLine.ofTokens (tokens delimiters line) = some .other)
    (rest : List UInt8) : headers debug (line ++ 10 :: rest) = some .other :: headers debug rest := by
  rw [headers_line h, hother]

/-- The end of a request. -/
theorem headers_blank (rest : List UInt8) : headers debug (13 :: 10 :: rest) = [some .blank] := by
  have hblank : HeaderLine.ofTokens (tokens delimiters [13]) = some .blank := by decide
  have hcr : ShortLine [13] := by decide
  exact (headers_line hcr rest).trans (by rw [hblank])

end

end Cs326.Web
