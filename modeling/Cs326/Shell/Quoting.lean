import Cs326.Lib.Quotes
import Cs326.Shell.InPlace

/-!
# Quotes and the tokenizer

The words of a string are its pieces between the delimiters outside of quotes (`words`). `next_token` keeps the quoted
section together that begins in the word, but it tells whether one does by comparing `quote_st`, which counts from the
cursor, with `tok_end`, which counts from the token; and behind the end of that section it looks for a delimiter
without regard to quotes. So a word with delimiters is returned whole only if all of them are in its first section, and
no more delimiters are passed over in front of the word than there are bytes in the section in front of its first
delimiter (`Kept`).
-/

namespace Cs326.Prompt

def isDelimiter (b : UInt8) : Bool := delimiters.contains b

def isQuote (b : UInt8) : Bool := quotes.contains b

/-- Calls of `next_token` until it returns `NULL`. -/
inductive Tokenizes (delim : List UInt8) : Option CString → List CString → Prop
  | done {cursor cursor' : Option CString} : next_token delim cursor = (none, cursor') → Tokenizes delim cursor []
  | token {cursor cursor' : Option CString} {tok : CString} {toks : List CString} :
      next_token delim cursor = (some tok, cursor') → Tokenizes delim cursor' toks →
      Tokenizes delim cursor (tok :: toks)

/-- The maximal non-empty pieces between the delimiters outside of quotes. -/
def words (str : CString) : List (List UInt8) := quotedPieces isDelimiter isQuote str.bytes

/-- The words, each with the number of delimiters that `next_token` passes over in front of it. -/
def wordsWithGaps (str : CString) : List (Nat × List UInt8) := quotedCuts isDelimiter isQuote str.bytes

/-- The word has no delimiters, or they are all in its first quoted section, which has at least `n` bytes in front of
them. -/
def Kept (n : Nat) (w : List UInt8) : Prop :=
  (∀ b ∈ w, isDelimiter b = false) ∨
  ∃ x o y z, w = x ++ o :: (y ++ o :: z) ∧ (∀ b ∈ x, isQuote b = false) ∧ isQuote o = true ∧ o ∉ y ∧
    (∀ b ∈ z, isDelimiter b = false) ∧ n ≤ (y.takeWhile fun b => !isDelimiter b).length

variable {str : CString} {d w x y z r : List UInt8} {o c : UInt8} {toks : List CString} {n : Nat}

theorem isQuote_of_delimiter (b : UInt8) (hb : isDelimiter b = true) : isQuote b = false := by
  simp only [isDelimiter, delimiters, List.contains_cons, List.contains_nil, Bool.or_false, Bool.or_eq_true,
    beq_iff_eq] at hb
  rcases hb with rfl | rfl | rfl | rfl <;> rfl

theorem isDelimiter_of_quote (ho : isQuote o = true) : isDelimiter o = false :=
  Bool.eq_false_iff.mpr fun hd => by rw [isQuote_of_delimiter o hd] at ho; cases ho

/-! ## The end of a token -/

/-- The bytes in front of the first delimiter. -/
theorem takeWhile_eq_iff (hr : ∀ b ∈ r.head?, isDelimiter b = true) :
    ((z ++ r).takeWhile fun b => !isDelimiter b).length = z.length ↔ ∀ b ∈ z, isDelimiter b = false := by
  constructor
  · intro hlen b hb
    obtain ⟨t, ht⟩ : ((z ++ r).takeWhile fun b => !isDelimiter b) <+: z ++ r := List.takeWhile_prefix _
    obtain ⟨heq, _⟩ := List.append_inj ht hlen
    have hmem : b ∈ (z ++ r).takeWhile fun b => !isDelimiter b := by
      rw [heq]
      exact hb
    simpa using List.mem_takeWhile_imp hmem
  · intro hz
    rw [takeWhile_delims (p := fun b => !isDelimiter b) (fun b hb => by simp [hz b hb])
      fun b hb => by simp [hr b hb]]

/-- The first delimiter of a word that has one, if it has none outside of its first section. -/
theorem length_of_section (hx : ∀ b ∈ x, isDelimiter b = false) (ho : isQuote o = true)
    (hz : ∀ b ∈ z, isDelimiter b = false) (hw : ¬∀ b ∈ x ++ o :: (y ++ o :: z), isDelimiter b = false)
    (r : List UInt8) : (((x ++ o :: (y ++ o :: z)) ++ r).takeWhile fun b => !isDelimiter b).length =
      x.length + 1 + (y.takeWhile fun b => !isDelimiter b).length := by
  have hod := isDelimiter_of_quote ho
  have hy : ¬∀ b ∈ y, (!isDelimiter b) = true := by
    intro hy
    apply hw
    intro b hb
    simp only [List.mem_append, List.mem_cons] at hb
    rcases hb with hb | rfl | hb | rfl | hb
    · exact hx b hb
    · exact hod
    · simpa using hy b hb
    · exact hod
    · exact hz b hb
  have hyle : (y.takeWhile fun b => !isDelimiter b).length ≠ y.length := fun hlen =>
    hy (List.takeWhile_eq_self_iff.mp ((List.takeWhile_prefix _).eq_of_length hlen))
  rw [List.append_assoc, List.takeWhile_append_of_pos fun b hb => by simp [hx b hb], List.length_append,
    List.cons_append, List.takeWhile_cons, hod, List.append_assoc, List.takeWhile_append, if_neg hyle]
  simp only [Bool.not_false, if_true, List.length_cons]
  omega

section

variable (hd : ∀ b ∈ d, isDelimiter b = true)

include hd

/-- The two scans in front of a word. -/
theorem scans_eq (hstr : str.bytes = d ++ w) (hw : ∀ b ∈ w.head?, isDelimiter b = false) :
    str.strspn delimiters = d.length ∧ (str.drop d.length).bytes = w ∧
      str.strcspn quotes = d.length + (w.takeWhile fun b => !isQuote b).length := by
  refine ⟨?_, ?_, ?_⟩
  · rw [CString.strspn, hstr]
    exact congrArg List.length (takeWhile_delims (p := isDelimiter) hd hw)
  · show str.bytes.drop d.length = w
    rw [hstr, List.drop_left]
  · rw [CString.strcspn, hstr, List.takeWhile_append_of_pos, List.length_append]
    · rfl
    · intro b hb
      simpa [isQuote] using isQuote_of_delimiter b (hd b hb)

/-- **The end of a token that begins in front of a quoted section.** -/
theorem tokEnd_section (hx : ∀ b ∈ x, isQuote b = false) (hx' : ∀ b ∈ x, isDelimiter b = false)
    (ho : isQuote o = true) (hy : o ∉ y) (hstr : str.bytes = d ++ ((x ++ o :: (y ++ o :: z)) ++ r)) :
    tokEnd delimiters str =
      if d.length + x.length < (((x ++ o :: (y ++ o :: z)) ++ r).takeWhile fun b => !isDelimiter b).length then
        x.length + y.length + 2 + ((z ++ r).takeWhile fun b => !isDelimiter b).length
      else (((x ++ o :: (y ++ o :: z)) ++ r).takeWhile fun b => !isDelimiter b).length := by
  have hod := isDelimiter_of_quote ho
  obtain ⟨hspn, hdrop, hquotes⟩ := scans_eq hd hstr (by
    intro b hb
    cases x with
    | nil =>
      obtain rfl : o = b := by simpa using hb
      exact hod
    | cons a x =>
      obtain rfl : a = b := by simpa using hb
      exact hx' _ List.mem_cons_self)
  have hfirst : (((x ++ o :: (y ++ o :: z)) ++ r).takeWhile fun b => !isQuote b) = x := by
    rw [List.append_assoc]
    exact takeWhile_delims (p := fun b => !isQuote b) (fun b hb => by simp [hx b hb]) (by simp [ho])
  rw [hfirst] at hquotes
  -- what is left of the string at the quote, behind it, and at the quote that closes the section
  have hat : (str.drop (d.length + x.length)).bytes = o :: (y ++ o :: (z ++ r)) := by
    simp [CString.drop, hstr, List.drop_append]
  have hbehind : (str.drop (d.length + x.length + 1)).bytes = y ++ o :: (z ++ r) := by
    show str.bytes.drop (d.length + x.length + 1) = _
    rw [← List.drop_drop, show str.bytes.drop (d.length + x.length) = _ from hat, List.drop_one, List.tail_cons]
  have hclose : (str.drop (y.length + (d.length + x.length + 1))).bytes = o :: (z ++ r) := by
    show str.bytes.drop (y.length + (d.length + x.length + 1)) = _
    rw [Nat.add_comm, ← List.drop_drop, show str.bytes.drop (d.length + x.length + 1) = _ from hbehind, List.drop_left]
  have hhead : (str.drop (d.length + x.length)).head = o := by rw [CString.head, hat]; rfl
  have hend : (str.drop (d.length + x.length + 1)).strcspn [o] = y.length := by
    rw [CString.strcspn, hbehind]
    exact congrArg List.length (takeWhile_delims (p := fun b => !([o].contains b))
      (fun b hb => by
        have hne : b ≠ o := fun e => hy (e ▸ hb)
        simpa using hne) (by simp))
  have hdel : (str.drop (y.length + (d.length + x.length + 1))).strcspn delimiters =
      1 + ((z ++ r).takeWhile fun b => !isDelimiter b).length := by
    rw [CString.strcspn, hclose, List.takeWhile_cons]
    have hod' : delimiters.contains o = false := hod
    rw [hod']
    simp [isDelimiter, Nat.add_comm]
  unfold tokEnd
  dsimp only
  rw [hspn, hquotes, CString.strcspn, hdrop, hhead, hend, hdel]
  show (if _ then _ else _) = _
  congr 1
  omega

/-- The end of a token without quotes. -/
theorem tokEnd_plain (hw : ∀ b ∈ w, isQuote b = false) (hw' : ∀ b ∈ w, isDelimiter b = false) (hne : w ≠ [])
    (hr : ∀ b ∈ r.head?, isDelimiter b = true) (hstr : str.bytes = d ++ (w ++ r)) :
    tokEnd delimiters str = w.length := by
  obtain ⟨b, u, rfl⟩ := List.exists_cons_of_ne_nil hne
  obtain ⟨hspn, hdrop, hquotes⟩ := scans_eq hd hstr (by simpa using hw' b List.mem_cons_self)
  have hlen : (str.drop d.length).strcspn delimiters = (b :: u).length := by
    rw [CString.strcspn, hdrop]
    exact (takeWhile_eq_iff hr).mpr hw'
  have hle : (b :: u).length ≤ (((b :: u) ++ r).takeWhile fun b => !isQuote b).length := by
    rw [List.takeWhile_append_of_pos fun b hb => by simp [hw b hb], List.length_append]
    omega
  unfold tokEnd
  dsimp only
  rw [hspn, hlen, hquotes, if_neg (by omega)]

/-- **A token is the word** it begins with exactly if the word is kept. -/
theorem tokEnd_eq_iff (hw : Word isDelimiter isQuote w) (hr : ∀ b ∈ r.head?, isDelimiter b = true)
    (hstr : str.bytes = d ++ (w ++ r)) : tokEnd delimiters str = w.length ↔ Kept d.length w := by
  by_cases hquote : ∃ b ∈ w, isQuote b = true
  · by_cases hplain : ∀ b ∈ w, isDelimiter b = false
    · -- both scans stop behind the word
      refine iff_of_true ?_ (.inl hplain)
      obtain ⟨x, o, y, z, rfl, hx, ho, hy, _⟩ := hw.balanced.exists_section hquote
      have hz : ∀ b ∈ z, isDelimiter b = false := fun b hb => hplain b (by simp [hb])
      rw [tokEnd_section hd hx (hw.plain_prefix hx) ho hy hstr, (takeWhile_eq_iff hr).mpr hplain,
        (takeWhile_eq_iff hr).mpr hz]
      split
      · simp only [List.length_append, List.length_cons]
        omega
      · rfl
    · have hlt := mt (takeWhile_eq_iff hr).mp hplain
      constructor
      · intro heq
        obtain ⟨x, o, y, z, rfl, hx, ho, hy, _⟩ := hw.balanced.exists_section hquote
        have hx' := hw.plain_prefix hx
        rw [tokEnd_section hd hx hx' ho hy hstr] at heq
        split at heq
        · rename_i htaken
          have hz : ∀ b ∈ z, isDelimiter b = false := by
            apply (takeWhile_eq_iff hr).mp
            simp only [List.length_append, List.length_cons] at heq
            omega
          refine .inr ⟨x, o, y, z, rfl, hx, ho, hy, hz, ?_⟩
          rw [length_of_section hx' ho hz hplain r] at htaken
          omega
        · exact absurd heq hlt
      · rintro (hplain' | ⟨x, o, y, z, rfl, hx, ho, hy, hz, hn⟩)
        · exact absurd hplain' hplain
        · have hx' := hw.plain_prefix hx
          rw [tokEnd_section hd hx hx' ho hy hstr, length_of_section hx' ho hz hplain r, if_pos (by omega),
            (takeWhile_eq_iff hr).mpr hz]
          simp only [List.length_append, List.length_cons]
          omega
  · have hplain : ∀ b ∈ w, isQuote b = false := fun b hb => Bool.eq_false_iff.mpr fun h => hquote ⟨b, hb, h⟩
    have hw' : ∀ b ∈ w, isDelimiter b = false := by
      rw [← List.append_nil w] at hw
      exact hw.plain_prefix hplain
    exact iff_of_true (tokEnd_plain hd hplain hw' hw.ne_nil hr hstr) (.inl hw')

/-! ## The calls -/

/-- Delimiters alone are no token. -/
theorem next_token_delims (hstr : str.bytes = d) : next_token delimiters (some str) = (none, none) := by
  obtain ⟨hspn, hdrop, hquotes⟩ := scans_eq (w := []) hd (by rw [hstr, List.append_nil]) (by simp)
  have hlen : (str.drop d.length).strcspn delimiters = 0 := by
    rw [CString.strcspn, hdrop]
    rfl
  have hend : tokEnd delimiters str = 0 := by
    unfold tokEnd
    dsimp only
    rw [hspn, hlen]
    rfl
  exact if_pos hend

/-- A token that is the word it begins with was kept. -/
theorem Kept.of_next_token {tok : CString} {cursor : Option CString} (hw : Word isDelimiter isQuote w)
    (hr : ∀ b ∈ r.head?, isDelimiter b = true) (hstr : str.bytes = d ++ (w ++ r))
    (hnext : next_token delimiters (some str) = (some tok, cursor)) (htok : tok.bytes = w) : Kept d.length w := by
  apply (tokEnd_eq_iff hd hw hr hstr).mp
  have hle := InPlace.tokEnd_le delimiters str
  have hspn := (scans_eq hd hstr (hw.head?_append r)).1
  rw [hspn, CString.length, hstr, List.length_append] at hle
  unfold next_token at hnext
  dsimp only at hnext
  split at hnext
  · cases hnext
  · obtain ⟨htok', _⟩ := Prod.mk.inj hnext
    obtain rfl := Option.some.inj htok'
    have hlen : ((str.bytes.drop (str.strspn delimiters)).take (tokEnd delimiters str)).length = w.length :=
      congrArg List.length htok
    rw [hspn, hstr, List.drop_left, List.length_take] at hlen
    omega

/-- **One call** returns a word that is kept, and moves the cursor behind the delimiter at its end. -/
theorem next_token_of_kept (hw : Word isDelimiter isQuote w) (hr : ∀ b ∈ r.head?, isDelimiter b = true)
    (hstr : str.bytes = d ++ (w ++ r)) (hk : Kept d.length w) : ∃ tok cursor,
    next_token delimiters (some str) = (some tok, cursor) ∧ tok.bytes = w ∧
    cursor.map CString.bytes = r.tail? := by
  have hend := (tokEnd_eq_iff hd hw hr hstr).mpr hk
  have hspn := (scans_eq hd hstr (hw.head?_append r)).1
  have hrest : str.bytes.drop (d.length + w.length) = r := by
    rw [← List.drop_drop, hstr, List.drop_left, List.drop_left]
  unfold next_token
  dsimp only
  rw [hend, hspn, if_neg (mt List.length_eq_zero_iff.mp hw.ne_nil)]
  refine ⟨_, _, rfl, ?_, ?_⟩
  · show (str.bytes.drop d.length).take w.length = w
    rw [hstr, List.drop_left, List.take_left]
  · have hhead : (str.drop (d.length + w.length)).head = r.headD 0 := congrArg (List.headD · 0) hrest
    cases r with
    | nil =>
      rw [if_pos (show (str.drop (d.length + w.length)).head = 0 from hhead)]
      rfl
    | cons c r =>
      have hc : c ≠ 0 := fun e => str.nonzero (by rw [hstr, e]; simp)
      rw [if_neg (fun e => hc (hhead.symm.trans e)), Option.map_some]
      exact congrArg some (congrArg (List.drop 1) hrest)

end

/-- **Quotes.** On a string whose quoted sections are closed the calls return its words exactly if every word is
kept. -/
theorem respects_quotes (hbal : Balanced isQuote str.bytes) :
    (∃ toks, Tokenizes delimiters (some str) toks ∧ toks.map CString.bytes = words str) ↔
      ∀ e ∈ wordsWithGaps str, Kept e.1 e.2 := by
  -- by induction on the length of the string, the words being read off from the front
  induction hlen : str.bytes.length using Nat.strong_induction_on generalizing str with
  | _ n ih =>
    have hcut := quotedCut isQuote_of_delimiter hbal
    unfold words wordsWithGaps
    generalize hb : str.bytes = bytes at *
    generalize quotedPieces isDelimiter isQuote bytes = ws at hcut ⊢
    generalize quotedCuts isDelimiter isQuote bytes = es at hcut ⊢
    cases hcut with
    | none hd =>
      exact iff_of_true ⟨[], .done (next_token_delims hd hb), rfl⟩ (by simp)
    | @last d t hd ht =>
      have hstr : str.bytes = d ++ (t ++ []) := by rw [hb, List.append_nil]
      rw [List.forall_mem_singleton]
      constructor
      · rintro ⟨toks, htoks, hmap⟩
        cases htoks with
        | done => cases hmap
        | token hnext _ => exact .of_next_token hd ht (by simp) hstr hnext (List.cons.inj hmap).1
      · intro hk
        obtain ⟨tok, cursor, hnext, htok, hcursor⟩ := next_token_of_kept hd ht (by simp) hstr hk
        obtain rfl := Option.map_eq_none_iff.mp hcursor
        exact ⟨[tok], .token hnext (.done rfl), by rw [List.map_singleton, htok]⟩
    | @more d t c r hd ht hc hr =>
      have hhead : ∀ b ∈ (c :: r).head?, isDelimiter b = true := by simpa using hc
      rw [List.forall_mem_cons]
      constructor
      · rintro ⟨toks, htoks, hmap⟩
        cases htoks with
        | done => cases hmap
        | @token _ cursor' tok toks hnext htoks =>
          have hk := Kept.of_next_token hd ht hhead hb hnext (List.cons.inj hmap).1
          obtain ⟨tok', cursor, hnext', _, hcursor⟩ := next_token_of_kept hd ht hhead hb hk
          obtain ⟨_, rfl⟩ := Prod.mk.inj (hnext.symm.trans hnext')
          obtain ⟨str', rfl, rfl⟩ := Option.map_eq_some_iff.mp hcursor
          refine ⟨hk, (ih _ ?_ hr rfl).mp ⟨toks, htoks, (List.cons.inj hmap).2⟩⟩
          simp only [List.length_append, List.length_cons] at hlen
          omega
      · rintro ⟨hk, hall⟩
        obtain ⟨tok, cursor, hnext, htok, hcursor⟩ := next_token_of_kept hd ht hhead hb hk
        obtain ⟨str', rfl, rfl⟩ := Option.map_eq_some_iff.mp hcursor
        simp only [List.length_append, List.length_cons] at hlen
        obtain ⟨toks, htoks, hmap⟩ := (ih _ (by omega) hr rfl).mpr hall
        exact ⟨tok :: toks, .token hnext htoks, by rw [List.map_cons, htok, hmap]; rfl⟩

/-- The line `echo "a b"`. -/
theorem respects_quotes_echo : ∃ toks,
    Tokenizes delimiters (some (literal ['e', 'c', 'h', 'o', ' ', '"', 'a', ' ', 'b', '"'])) toks ∧
    toks.map CString.bytes = [chars ['e', 'c', 'h', 'o'], chars ['"', 'a', ' ', 'b', '"']] := by
  have hwords : words (literal ['e', 'c', 'h', 'o', ' ', '"', 'a', ' ', 'b', '"']) =
      [chars ['e', 'c', 'h', 'o'], chars ['"', 'a', ' ', 'b', '"']] := by decide
  have hgaps : wordsWithGaps (literal ['e', 'c', 'h', 'o', ' ', '"', 'a', ' ', 'b', '"']) =
      [(0, chars ['e', 'c', 'h', 'o']), (0, chars ['"', 'a', ' ', 'b', '"'])] := by decide +kernel
  rw [← hwords]
  apply (respects_quotes (by decide)).mpr
  rw [hgaps, List.forall_mem_cons, List.forall_mem_singleton]
  exact ⟨.inl (by simp [isDelimiter, delimiters, chars]),
    .inr ⟨[], 34, chars ['a', ' ', 'b'], [], rfl, nofun, rfl, by decide, nofun, Nat.zero_le _⟩⟩

/-- With two blanks in front of it, `"a b"` is cut at the blank in it. -/
theorem quotes_not_respected : ¬∀ str : CString, Balanced isQuote str.bytes →
    ∃ toks, Tokenizes delimiters (some str) toks ∧ toks.map CString.bytes = words str := by
  intro hall
  obtain ⟨toks, htoks, hmap⟩ := hall (literal [' ', ' ', '"', 'a', ' ', 'b', '"']) (by decide)
  rw [show words (literal [' ', ' ', '"', 'a', ' ', 'b', '"']) = [chars ['"', 'a', ' ', 'b', '"']] by decide] at hmap
  cases htoks with
  | done => cases hmap
  | token hnext _ =>
    have hfirst : (next_token delimiters (some (literal [' ', ' ', '"', 'a', ' ', 'b', '"']))).1 =
        some (literal ['"', 'a']) := by decide
    rw [hnext] at hfirst
    obtain rfl := Option.some.inj hfirst
    exact absurd (List.cons.inj hmap).1 (by decide)

end Cs326.Prompt
