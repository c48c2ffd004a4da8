import Cs326.Web.Request
import Mathlib.Logic.Relation

/-!
# The end of a header

Whether there is a zero in the buffer that `read_line` has filled, over all rounds of `handle_request`. `texts` lists
what the rounds read; the buffer is filled to its end by a text of 8192 bytes, and then the zero has to be one of them
(`headers_terminated_iff`).
-/

namespace Cs326.Web

open CharArray Text

variable {env : Env} {header path path' : CharArray 8192} {input rest text : List UInt8}

/-! ## The rounds -/

/-- One round of the loop leads to the next: `path`, and the input that is left. -/
def Again (env : Env) (s t : CharArray 8192 × List UInt8) : Prop := header_round env s.1 s.2 = .ok (.again t.1 t.2)

/-- Whenever `read_line` returns a positive count to `handle_request`, there is a zero in `header`, and what is done
with `header` stays inside. A connection gets to one `handle_request` only. -/
def HeadersTerminated (env : Env) (input : List UInt8) : Prop :=
  ∀ path rest, Relation.ReflTransGen (Again env) (.zero 8192, input) (path, rest) →
    ∀ (header : CharArray 8192) (read_sz : Int) (rest' : List UInt8),
      read_line env (.zero 8192) 8192 rest = .ok (header, read_sz, rest') → 0 < read_sz →
        0 ∈ header.bytes ∧ header_line env header ≠ .error .overrun

/-- The texts that are read, up to the first whose tokens end the request or are undefined. -/
def texts (debug : Bool) (input : List UInt8) : List (List UInt8) :=
  match _h : chunk input with
  | none => []
  | some (text, rest) =>
    match classify debug text with
    | some (.get _) => text :: texts debug rest
    | some .other => text :: texts debug rest
    | _ => [text]
termination_by input.length
decreasing_by all_goals exact chunk_lt _h

/-- A line is read in each round. -/
theorem Again.texts_eq (h : Again env (path, input) (path', rest)) :
    ∃ text, chunk input = some (text, rest) ∧ texts env.debug input = text :: texts env.debug rest := by
  change header_round env path input = .ok (.again path' rest) at h
  cases hchunk : chunk input with
  | none =>
    obtain ⟨ret, rest', hround, -⟩ := header_round_closed env path hchunk
    cases h.symm.trans hround
  | some line =>
    obtain ⟨text, rest'⟩ := line
    have hround := header_round_line env path hchunk
    rw [texts, hchunk]
    dsimp only
    split at hround
    · obtain ⟨e, hround⟩ := hround
      cases h.symm.trans hround
    · rename_i target hget
      obtain ⟨path₂, hround, -⟩ := hround
      cases h.symm.trans hround
      exact ⟨text, rfl, by rw [hget]⟩
    · rename_i hother
      cases h.symm.trans hround
      exact ⟨text, rfl, by rw [hother]⟩
    · cases h.symm.trans hround

/-- What is left in a round is read from then on. -/
theorem texts_suffix {s t : CharArray 8192 × List UInt8} (h : Relation.ReflTransGen (Again env) s t) :
    texts env.debug t.2 <:+ texts env.debug s.2 := by
  induction h with
  | refl => exact List.suffix_refl _
  | tail _ hstep ih =>
    obtain ⟨text, -, htexts⟩ := hstep.texts_eq
    rw [htexts] at ih
    exact (List.suffix_cons _ _).trans ih

/-- **Each text is read in some round.** -/
theorem exists_round (path : CharArray 8192) (htext : text ∈ texts env.debug input) :
    ∃ path' input' rest, Relation.ReflTransGen (Again env) (path, input) (path', input') ∧
      chunk input' = some (text, rest) := by
  induction input using texts.induct env.debug generalizing path with
  | case1 input h =>
    rw [texts, h] at htext
    cases htext
  | case2 input line rest h target hget ih =>
    rw [texts, h] at htext
    simp only [hget] at htext
    rcases List.mem_cons.mp htext with rfl | htext
    · exact ⟨path, input, rest, .refl, h⟩
    · have hround := header_round_line env path h
      rw [hget] at hround
      obtain ⟨path₁, hround, -⟩ := hround
      have hagain : Again env (path, input) (path₁, rest) := hround
      obtain ⟨path', input', rest', hrun, hchunk⟩ := ih path₁ htext
      exact ⟨path', input', rest', hrun.head hagain, hchunk⟩
  | case3 input line rest h hother ih =>
    rw [texts, h] at htext
    simp only [hother] at htext
    rcases List.mem_cons.mp htext with rfl | htext
    · exact ⟨path, input, rest, .refl, h⟩
    · have hround := header_round_line env path h
      rw [hother] at hround
      have hagain : Again env (path, input) (path, rest) := hround
      obtain ⟨path', input', rest', hrun, hchunk⟩ := ih path htext
      exact ⟨path', input', rest', hrun.head hagain, hchunk⟩
  | case4 input line rest h hget hother =>
    rw [texts, h] at htext
    have hone : text = line := by
      cases hline : classify env.debug line with
      | none => simpa [hline] using htext
      | some l =>
        cases l with
        | get target => exact absurd hline (hget target)
        | other => exact absurd hline hother
        | blank => simpa [hline] using htext
    exact ⟨path, input, rest, .refl, hone ▸ h⟩

theorem mem_texts (h : chunk input = some (text, rest)) (debug : Bool) : text ∈ texts debug input := by
  rw [texts, h]
  dsimp only
  split
  · exact List.mem_cons_self
  · exact List.mem_cons_self
  · exact List.mem_singleton_self _

/-! ## One header -/

/-- A positive count is a line. -/
theorem read_line_positive {read_sz : Int} (h : read_line env (.zero 8192) 8192 input = .ok (header, read_sz, rest))
    (hpos : 0 < read_sz) :
    ∃ text, chunk input = some (text, rest) ∧ header.bytes = text ++ List.replicate (8192 - text.length) 0 := by
  cases hchunk : chunk input with
  | none =>
    obtain ⟨header', ret, rest', hread, hret⟩ := read_line_closed env hchunk
    cases h.symm.trans hread
    omega
  | some line =>
    obtain ⟨text, rest'⟩ := line
    obtain ⟨header', ret, hread, -, hbytes⟩ := read_line_chunk env hchunk
    cases h.symm.trans hread
    exact ⟨text, rfl, hbytes⟩

theorem zero_mem_header (htext : text.length ≤ 8192) :
    0 ∈ text ++ List.replicate (8192 - text.length) (0 : UInt8) ↔ text.length < 8192 ∨ 0 ∈ text := by
  rw [List.mem_append, List.mem_replicate, or_comm]
  have hpos : 8192 - text.length ≠ 0 ↔ text.length < 8192 := by omega
  rw [hpos, and_iff_left rfl]

/-- The tokens of a string are found inside the buffer. -/
theorem header_tokens_inside {s : List UInt8} (hs : StringAt header 0 s) : header_tokens header ≠ .error .overrun := by
  have hcur : Cursor delimiters header (some 0) (tokens delimiters s) := ⟨s, hs, rfl⟩
  unfold header_tokens
  cases hts : tokens delimiters s with
  | nil =>
    rw [hts] at hcur
    rw [next_token_nil zero_not_mem_delimiters hcur]
    exact nofun
  | cons t ts =>
    rw [hts] at hcur
    obtain ⟨header₁, next_tok, tok, hnext, htok, hcur₁⟩ := next_token_cons zero_not_mem_delimiters hcur
    simp only [hnext, htok.string, ok_bind]
    split_ifs with hget
    · cases ts with
      | nil =>
        rw [next_token_nil zero_not_mem_delimiters hcur₁]
        exact nofun
      | cons u ts =>
        obtain ⟨header₂, next_tok', tok', hnext', htok', -⟩ := next_token_cons zero_not_mem_delimiters hcur₁
        simp only [hnext', htok'.string, ok_bind]
        exact nofun
    · exact nofun

/-- **With a zero in it, a header is read inside the buffer.** -/
theorem header_line_inside (h0 : 0 ∈ header.bytes) : header_line env header ≠ .error .overrun := by
  have hs : StringAt header 0 (cstring header.bytes) := by
    obtain ⟨rest, hrest⟩ := exists_cstring (n := 0) (.inr h0)
    refine ⟨fun hm => by simpa using List.mem_takeWhile_imp hm, rest, ?_⟩
    simpa using hrest
  unfold header_line
  cases env.debug with
  | false => exact header_tokens_inside hs
  | true =>
    simp only [hs.string, ok_bind, if_true]
    exact header_tokens_inside hs

/-! ## All headers -/

/-- A text that fills the buffer. -/
theorem HeadersTerminated.of_mem (h : HeadersTerminated env input) (htext : text ∈ texts env.debug input) :
    text.length < 8192 ∨ 0 ∈ text := by
  obtain ⟨path, input', rest, hrun, hchunk⟩ := exists_round (.zero 8192) htext
  obtain ⟨header, ret, hread, hret, hbytes⟩ := read_line_chunk env hchunk
  obtain ⟨h0, -⟩ := h path input' hrun header ret rest hread hret
  rw [hbytes] at h0
  exact (zero_mem_header (chunk_eq hchunk).2.2.2.1).mp h0

/-- **Headers are terminated** if and only if no text of 8192 bytes is read without a zero in it. -/
theorem headers_terminated_iff (env : Env) (input : List UInt8) :
    HeadersTerminated env input ↔ ∀ text ∈ texts env.debug input, text.length < 8192 ∨ 0 ∈ text := by
  constructor
  · intro h text htext
    exact h.of_mem htext
  · intro h path input' hrun header ret rest hread hpos
    obtain ⟨text, hchunk, hbytes⟩ := read_line_positive hread hpos
    have hmem := (texts_suffix hrun).subset (mem_texts hchunk env.debug)
    have h0 : 0 ∈ header.bytes := by
      rw [hbytes]
      exact (zero_mem_header (chunk_eq hchunk).2.2.2.1).mpr (h text hmem)
    exact ⟨h0, header_line_inside h0⟩

/-- A line of 8191 bytes leaves no zero in the buffer. -/
theorem full_header_not_terminated : ¬HeadersTerminated .empty_directory (List.replicate 8191 97 ++ [10]) := by
  intro h
  have h10 : 10 ∉ List.replicate 8191 (97 : UInt8) := fun hm => absurd (List.eq_of_mem_replicate hm) (by decide)
  have hne : List.replicate 8191 (97 : UInt8) ≠ [] := List.replicate_succ_ne_nil
  have htake : (List.replicate 8191 (97 : UInt8) ++ [10]).take 8192 = List.replicate 8191 97 ++ [10] :=
    List.take_of_length_le (by rw [List.length_append, List.length_replicate]; decide)
  have hchunk : chunk (List.replicate 8191 97 ++ [10]) = some (_, _) := chunk_line h10 hne
  rw [htake] at hchunk
  rcases h.of_mem (mem_texts hchunk _) with hlt | h0
  · rw [List.length_append, List.length_replicate] at hlt
    exact absurd hlt (by decide)
  · rcases List.mem_append.mp h0 with h0 | h0
    · exact absurd (List.eq_of_mem_replicate h0) (by decide)
    · exact absurd h0 (by decide)

end Cs326.Web
