import Cs326.Lib.CString
import Cs326.Text.NextToken

/-!
# The lookup of a key

`getNextTok` of `inspector.c`: it takes tokens up to and including the key, at most 10001 of them, then `nextTok` more,
and returns the one behind. Where the tokens do not reach so far during the search, `strcmp` is called with `NULL`.

What the calls of `next_token` supply is a parameter of the lookup's rules (`Supplies`), so that they hold for a string
and for an array without a zero: as long as there are tokens the lookup ends at the one at `place` (`lookup_some`), and
where they run out it fails as the calls do (`search_end`, `skip_end`). For a string this gives the condition under
which the lookup is right (`getNextTok_iff`).
-/

namespace Cs326.Inspector

open CharArray Text

variable {cap : Nat}

/-- `strcmp(tok, str) == 0`. -/
def sameTok (buff : CharArray cap) (tok : Option Nat) (str : CString) : Except Undefined Bool :=
  match tok with
  | none => .error .null
  | some q => do return (← buff.string q) == str.bytes

/-- The `while` loop that looks for `str`, with the number of rounds left. -/
def search (sep str : CString) : Nat → CharArray cap → Option Nat → Except Undefined (CharArray cap × Option Nat)
  | 0, buff, string => return (buff, string)
  | i + 1, buff, string => do
    let (buff, string, curr_tok) ← next_token buff string sep.bytes
    if ← sameTok buff curr_tok str then return (buff, string)
    else search sep str i buff string

/-- The loop over the next tokens. -/
def skip (sep : CString) : Nat → CharArray cap → Option Nat → Except Undefined (CharArray cap × Option Nat)
  | 0, buff, string => return (buff, string)
  | j + 1, buff, string => do
    let (buff, string, _) ← next_token buff string sep.bytes
    skip sep j buff string

/-- `"NONE"`: the first token is wanted. -/
def none_key : CString := literal ['N', 'O', 'N', 'E']

/-- The rounds of the search, `i <= 10000`. -/
def rounds : Nat := 10001

/-- The buffer after the call, and the token returned. -/
def getNextTok (buff : CharArray cap) (sep str : CString) (nextTok : Nat) :
    Except Undefined (CharArray cap × Option Nat) :=
  if str = none_key then do
    let (buff, _, curr_tok) ← next_token buff (some 0) sep.bytes
    return (buff, curr_tok)
  else do
    let (buff, string) ← search sep str rounds buff (some 0)
    let (buff, string) ← skip sep nextTok buff string
    let (buff, _, curr_tok) ← next_token buff string sep.bytes
    return (buff, curr_tok)

/-! ## Tokens -/

/-- The number of tokens that a search of `n` rounds takes from `ts`. -/
def taken (str : CString) (n : Nat) (ts : List (List UInt8)) : Nat := min (ts.idxOf str.bytes + 1) n

/-- The number of tokens in front of the one that is returned. -/
def place (str : CString) (k : Nat) (ts : List (List UInt8)) : Nat :=
  if str = none_key then 0 else taken str rounds ts + k

/-- In `s` the first of the tokens stands at `q`, and the others come behind it. -/
def Stands (sep : CString) (s : List UInt8) (q : Nat) : List (List UInt8) → Prop
  | [] => False
  | t :: ts => t <+: s.drop q ∧ tokens sep.bytes (s.drop (q + t.length)) = ts

/-- Token number `n` of `s` stands at `q`, and there is a string of it. -/
def TokenAt (sep : CString) (s : List UInt8) (n : Nat) (a : CharArray cap) (q : Nat) : Prop :=
  ∃ t ts, (tokens sep.bytes s).drop n = t :: ts ∧ StringAt a q t ∧ Stands sep s q (t :: ts)

/-- A pointer to token number `n`, or `NULL` if there is none. -/
def Gets (sep : CString) (s : List UInt8) (n : Nat) (a : CharArray cap) : Option Nat → Prop
  | none => (tokens sep.bytes s).length ≤ n
  | some q => TokenAt sep s n a q

/-- The call returns the token number `k` behind the first one that is `str`, counted from 0, or `NULL`. -/
def LooksUp (buff : CharArray cap) (s : List UInt8) (sep str : CString) (k : Nat) : Prop :=
  ∃ buff' r, getNextTok buff sep str k = .ok (buff', r) ∧
    Gets sep s ((tokens sep.bytes s).idxOf str.bytes + 1 + k) buff' r

/-! ## What the calls supply -/

variable {sep str : CString} {buff : CharArray cap} {ts : List (List UInt8)} {ptr : Option Nat} {n k : Nat}

/-- Where `T` holds, the next call returns the first of the tokens, at a place of which `Q` holds. -/
structure Supplies (sep : CString) (T : CharArray cap → Option Nat → List (List UInt8) → Prop)
    (Q : Nat → List (List UInt8) → Prop) : Prop where
  next : ∀ {a ptr t ts}, T a ptr (t :: ts) → ∃ a' ptr' q, next_token a ptr sep.bytes = .ok (a', ptr', some q) ∧
    StringAt a' q t ∧ Q q (t :: ts) ∧ T a' ptr' ts

theorem sameTok_eq {q : Nat} {t : List UInt8} (h : StringAt buff q t) :
    sameTok buff (some q) str = .ok (t == str.bytes) := by
  simp only [sameTok, h.string, ok_bind, pure_ok]

theorem taken_cons_self (str : CString) (n : Nat) (ts : List (List UInt8)) :
    taken str (n + 1) (str.bytes :: ts) = 1 := by
  rw [taken, List.idxOf_cons_self]
  omega

theorem taken_cons_of_ne {t : List UInt8} (hne : t ≠ str.bytes) (n : Nat) (ts : List (List UInt8)) :
    taken str (n + 1) (t :: ts) = taken str n ts + 1 := by
  rw [taken, List.idxOf_cons, beq_false_of_ne hne]
  exact Nat.add_min_add_right _ _ _

section Supplies

variable {T : CharArray cap → Option Nat → List (List UInt8) → Prop} {Q : Nat → List (List UInt8) → Prop}
  (hT : Supplies sep T Q)

include hT

/-- The search takes the tokens up to the key, if there are so many. -/
theorem search_eq (str : CString) (n : Nat) (h : T buff ptr ts) (hn : taken str n ts ≤ ts.length) : ∃ buff' ptr',
    search sep str n buff ptr = .ok (buff', ptr') ∧ T buff' ptr' (ts.drop (taken str n ts)) := by
  induction n generalizing buff ptr ts with
  | zero => exact ⟨buff, ptr, rfl, by rwa [taken, Nat.min_zero]⟩
  | succ n ih =>
    cases ts with
    | nil => simp [taken] at hn
    | cons t ts =>
      obtain ⟨a, ptr', q, hnext, htok, -, hrest⟩ := hT.next h
      by_cases ht : t = str.bytes
      · subst ht
        refine ⟨a, ptr', ?_, by rwa [taken_cons_self]⟩
        simp only [search, hnext, sameTok_eq htok, ok_bind, beq_self_eq_true, if_true, pure_ok]
      · rw [taken_cons_of_ne ht] at hn ⊢
        obtain ⟨a', ptr'', hsearch, hT'⟩ := ih hrest (Nat.le_of_succ_le_succ hn)
        refine ⟨a', ptr'', ?_, hT'⟩
        simp only [search, hnext, sameTok_eq htok, ok_bind, beq_false_of_ne ht, Bool.false_eq_true, if_false, hsearch]

/-- Where the tokens run out, the search fails. -/
theorem search_end {e : Undefined} (str : CString) (n : Nat)
    (hend : ∀ {a ptr} n, T a ptr [] → search sep str (n + 1) a ptr = .error e) (h : T buff ptr ts)
    (hn : ts.length < taken str n ts) : search sep str n buff ptr = .error e := by
  induction n generalizing buff ptr ts with
  | zero => simp [taken] at hn
  | succ n ih =>
    cases ts with
    | nil => exact hend n h
    | cons t ts =>
      obtain ⟨a, ptr', q, hnext, htok, -, hrest⟩ := hT.next h
      by_cases ht : t = str.bytes
      · subst ht
        rw [taken_cons_self, List.length_cons] at hn
        omega
      · rw [taken_cons_of_ne ht] at hn
        simp only [search, hnext, sameTok_eq htok, ok_bind, beq_false_of_ne ht, Bool.false_eq_true, if_false]
        exact ih hrest (Nat.lt_of_succ_lt_succ hn)

/-- The tokens run out behind the key. -/
theorem skip_end {e : Undefined} (hend : ∀ {a ptr} n, T a ptr [] → skip sep (n + 1) a ptr = .error e)
    (h : T buff ptr ts) (hk : ts.length < k) : skip sep k buff ptr = .error e := by
  induction k generalizing buff ptr ts with
  | zero => exact absurd hk (Nat.not_lt_zero _)
  | succ k ih =>
    cases ts with
    | nil => exact hend k h
    | cons t ts =>
      obtain ⟨a, ptr', q, hnext, -, -, hrest⟩ := hT.next h
      simp only [skip, hnext, ok_bind]
      exact ih hrest (Nat.lt_of_succ_lt_succ hk)

theorem skip_eq (h : T buff ptr ts) (hk : k ≤ ts.length) : ∃ buff' ptr',
    skip sep k buff ptr = .ok (buff', ptr') ∧ T buff' ptr' (ts.drop k) := by
  induction k generalizing buff ptr ts with
  | zero => exact ⟨buff, ptr, rfl, h⟩
  | succ k ih =>
    cases ts with
    | nil => simp at hk
    | cons t ts =>
      obtain ⟨a, ptr', q, hnext, -, -, hrest⟩ := hT.next h
      obtain ⟨a', ptr'', hskip, hT'⟩ := ih hrest (Nat.le_of_succ_le_succ hk)
      exact ⟨a', ptr'', by simp only [skip, hnext, ok_bind, hskip], hT'⟩

omit hT in
/-- A supply of more tokens supplies those at the front. -/
theorem Supplies.front (h : Supplies sep T Q) : Supplies sep (fun a ptr ts => ∃ us, T a ptr (ts ++ us))
    (fun q ts => ∃ us, Q q (ts ++ us)) := by
  refine ⟨fun {a ptr t ts} hmore => ?_⟩
  obtain ⟨us, hmore⟩ := hmore
  obtain ⟨a', ptr', q, hnext, htok, hq, hrest⟩ := h.next hmore
  exact ⟨a', ptr', q, hnext, htok, ⟨us, hq⟩, us, hrest⟩

/-- **The lookup comes to the token at `place`**, if there are so many. -/
theorem lookup_some (h : T buff (some 0) ts) (hk : place str k ts < ts.length) : ∃ buff' q t us,
    getNextTok buff sep str k = .ok (buff', some q) ∧ ts.drop (place str k ts) = t :: us ∧ StringAt buff' q t ∧
    Q q (t :: us) := by
  unfold getNextTok
  unfold place at hk ⊢
  split_ifs at hk ⊢ with hkey
  · cases ts with
    | nil => cases hk
    | cons t ts =>
      obtain ⟨a, ptr', q, hnext, htok, hq, -⟩ := hT.next h
      exact ⟨a, q, t, ts, by simp only [hnext, ok_bind, pure_ok], rfl, htok, hq⟩
  · obtain ⟨a, ptr, hsearch, hT₁⟩ := search_eq hT str rounds h (by omega)
    obtain ⟨a', ptr', hskip, hT₂⟩ := skip_eq hT (k := k) hT₁ (by rw [List.length_drop]; omega)
    rw [List.drop_drop] at hT₂
    cases hdrop : ts.drop (taken str rounds ts + k) with
    | nil => exact absurd (List.drop_eq_nil_iff.mp hdrop) (by omega)
    | cons t us =>
      rw [hdrop] at hT₂
      obtain ⟨a'', ptr'', q, hnext, htok, hq, -⟩ := hT.next hT₂
      refine ⟨a'', q, t, us, ?_, rfl, htok, hq⟩
      simp only [hsearch, hskip, hnext, ok_bind, pure_ok]

end Supplies

/-! ## Strings -/

section Strings

variable {s : List UInt8}

/-- From `ptr` on the string is as it was, and `ts` are the tokens to come. -/
def Coming (sep : CString) (s : List UInt8) (a : CharArray cap) : Option Nat → List (List UInt8) → Prop
  | none, ts => ts = []
  | some p, ts => StringAt a p (s.drop p) ∧ tokens sep.bytes (s.drop p) = ts

theorem supplies_string (sep : CString) (s : List UInt8) :
    Supplies sep (Coming sep s : CharArray cap → Option Nat → List (List UInt8) → Prop) (Stands sep s) := by
  refine ⟨fun {a ptr t ts} h => ?_⟩
  cases ptr with
  | none => cases h
  | some p =>
    obtain ⟨hs, hts⟩ := h
    obtain ⟨a', ptr', d, hnext, htok, hcases⟩ := next_token_some sep.nonzero hs hts
    refine ⟨a', ptr', p + d.length, hnext, htok, ?_⟩
    rcases hcases with ⟨hlast, -, rfl, rfl⟩ | ⟨c, r, hmore, hc, rfl, -, hr, rfl⟩
    · have hq : s.drop (p + d.length) = t := by rw [← List.drop_drop, hlast, List.drop_left]
      refine ⟨⟨hq ▸ List.prefix_rfl, ?_⟩, rfl⟩
      rw [← List.drop_drop, hq, List.drop_length]
      exact pieces_nil
    · have hq : s.drop (p + d.length) = t ++ c :: r := by rw [← List.drop_drop, hmore, List.drop_left]
      have hend : s.drop (p + d.length + t.length) = c :: r := by rw [← List.drop_drop, hq, List.drop_left]
      have hrest : s.drop (p + d.length + t.length + 1) = r := by
        rw [← List.drop_drop, hend, List.drop_succ_cons, List.drop_zero]
      refine ⟨⟨⟨c :: r, hq.symm⟩, ?_⟩, by rwa [hrest], by rw [hrest]⟩
      rw [hend]
      exact pieces_cons_delim hc r

theorem Coming.null (h : Coming sep s buff ptr []) : next_token buff ptr sep.bytes = .ok (buff, none, none) := by
  apply next_token_nil sep.nonzero
  cases ptr with
  | none => rfl
  | some p => exact ⟨s.drop p, h.1, h.2⟩

/-- `strcmp` of `NULL`. -/
theorem Coming.search_null (n : Nat) (h : Coming sep s buff ptr []) :
    search sep str (n + 1) buff ptr = .error .null := by
  simp only [search, h.null, ok_bind, sameTok, error_bind]

theorem Coming.skip (h : Coming sep s buff ptr ts) (k : Nat) : ∃ buff' ptr',
    skip sep k buff ptr = .ok (buff', ptr') ∧ Coming sep s buff' ptr' (ts.drop k) := by
  induction k generalizing buff ptr ts with
  | zero => exact ⟨buff, ptr, rfl, h⟩
  | succ k ih =>
    cases ts with
    | nil =>
      have hnone : Coming sep s buff none [] := rfl
      obtain ⟨a', ptr', hskip, hT⟩ := ih hnone
      rw [List.drop_nil] at hT
      exact ⟨a', ptr', by simp only [Inspector.skip, h.null, ok_bind, hskip], hT⟩
    | cons t ts =>
      obtain ⟨a, ptr', q, hnext, -, -, hrest⟩ := (supplies_string sep s).next h
      obtain ⟨a', ptr'', hskip, hT⟩ := ih hrest
      exact ⟨a', ptr'', by simp only [Inspector.skip, hnext, ok_bind, hskip], hT⟩

theorem coming_start (hs : StringAt buff 0 s) : Coming sep s buff (some 0) (tokens sep.bytes s) := ⟨hs, rfl⟩

/-- Where the string has fewer tokens than the search takes, `NULL` is dereferenced. -/
theorem lookup_null (hs : StringAt buff 0 s) (hkey : str ≠ none_key)
    (h : (tokens sep.bytes s).length < taken str rounds (tokens sep.bytes s)) :
    getNextTok buff sep str k = .error .null := by
  have hsearch := search_end (supplies_string sep s) str rounds Coming.search_null (coming_start hs) h
  simp only [getNextTok, if_neg hkey, hsearch, error_bind]

/-- **The lookup in a string** gets the token at `place`. -/
theorem lookup_string (hs : StringAt buff 0 s)
    (h : str = none_key ∨ taken str rounds (tokens sep.bytes s) ≤ (tokens sep.bytes s).length) : ∃ buff' r,
    getNextTok buff sep str k = .ok (buff', r) ∧ Gets sep s (place str k (tokens sep.bytes s)) buff' r := by
  have hstart : Coming sep s buff (some 0) (tokens sep.bytes s) := coming_start hs
  by_cases hk : place str k (tokens sep.bytes s) < (tokens sep.bytes s).length
  · obtain ⟨buff', q, t, us, hget, hdrop, htok, hq⟩ := lookup_some (supplies_string sep s) hstart hk
    exact ⟨buff', some q, hget, t, us, hdrop, htok, hq⟩
  -- the tokens run out behind the key
  unfold place at hk ⊢
  unfold getNextTok
  split_ifs at hk ⊢ with hkey
  · have hnil : tokens sep.bytes s = [] := List.length_eq_zero_iff.mp (by omega)
    rw [hnil] at hstart
    refine ⟨buff, none, ?_, by simp [Gets, hnil]⟩
    simp only [hstart.null, ok_bind, pure_ok]
  · obtain ⟨a, ptr, hsearch, hT₁⟩ := search_eq (supplies_string sep s) str rounds hstart (h.resolve_left hkey)
    obtain ⟨a', ptr', hskip, hT₂⟩ := hT₁.skip k
    rw [List.drop_drop, List.drop_eq_nil_iff.mpr (by omega)] at hT₂
    refine ⟨a', none, ?_, Nat.le_of_not_lt hk⟩
    simp only [hsearch, hskip, hT₂.null, ok_bind, pure_ok]

end Strings

/-! ## The lookup of a key -/

section

variable {s : List UInt8} {a : CharArray cap} {q m : Nat}

theorem TokenAt.lt (h : TokenAt sep s n a q) : n < (tokens sep.bytes s).length := by
  obtain ⟨t, ts, hn, -⟩ := h
  have hlen := congrArg List.length hn
  rw [List.length_drop, List.length_cons] at hlen
  omega

/-- A pointer to a token tells its number. -/
theorem TokenAt.unique (h : TokenAt sep s n a q) (h' : TokenAt sep s m a q) : n = m := by
  obtain ⟨t, ts, hn, htok, -, hts⟩ := h
  obtain ⟨t', ts', hm, htok', -, hts'⟩ := h'
  obtain rfl : t = t' := by simpa using htok.string.symm.trans htok'.string
  have hlen := congrArg List.length hn
  have hlen' := congrArg List.length hm
  rw [← hts.symm.trans hts'] at hlen'
  simp only [List.length_drop, List.length_cons] at hlen hlen'
  omega

theorem mem_take_iff (t : List UInt8) (ts : List (List UInt8)) (n : Nat) :
    t ∈ ts.take n ↔ ts.idxOf t < n ∧ ts.idxOf t < ts.length := by
  constructor
  · intro h
    have hmem := List.mem_of_mem_take h
    exact ⟨(List.mem_take_iff_idxOf_lt hmem).mp h, List.idxOf_lt_length_iff.mpr hmem⟩
  · intro h
    exact (List.mem_take_iff_idxOf_lt (List.idxOf_lt_length_iff.mp h.2)).mpr h.1

/-- **The lookup is right** if and only if the key is one of the first 10001 tokens, or there are at least so many
tokens and none behind them at the number that is looked for. -/
theorem getNextTok_iff (hs : StringAt buff 0 s) (hkey : str ≠ none_key) (k : Nat) :
    LooksUp buff s sep str k ↔ str.bytes ∈ (tokens sep.bytes s).take 10001 ∨
      10001 ≤ (tokens sep.bytes s).length ∧ (tokens sep.bytes s).length ≤ 10001 + k := by
  have hmem := mem_take_iff str.bytes (tokens sep.bytes s) 10001
  by_cases hnull : (tokens sep.bytes s).length < taken str rounds (tokens sep.bytes s)
  · have hfail : ¬LooksUp buff s sep str k := by
      intro h
      obtain ⟨buff', r, hget, -⟩ := h
      cases hget.symm.trans (lookup_null hs hkey hnull)
    unfold taken rounds at hnull
    rw [hmem]
    exact iff_of_false hfail (by omega)
  obtain ⟨buff', r, hget, hgets⟩ := lookup_string (k := k) hs (.inr (Nat.le_of_not_lt hnull))
  have hlooks : LooksUp buff s sep str k ↔ Gets sep s ((tokens sep.bytes s).idxOf str.bytes + 1 + k) buff' r := by
    constructor
    · intro h
      obtain ⟨_, _, hget', h⟩ := h
      cases hget.symm.trans hget'
      exact h
    · exact fun h => ⟨buff', r, hget, h⟩
  rw [hlooks, hmem]
  rw [place, if_neg hkey] at hgets
  unfold taken rounds at hgets hnull
  by_cases hidx : (tokens sep.bytes s).idxOf str.bytes < 10001
  · rw [Nat.min_eq_left (by omega)] at hgets hnull
    exact iff_of_true hgets (.inl ⟨hidx, by omega⟩)
  · rw [Nat.min_eq_right (by omega)] at hgets hnull
    -- the search has stopped in front of the key
    cases r with
    | none =>
      have hend : (tokens sep.bytes s).length ≤ 10001 + k := hgets
      refine iff_of_true ?_ (.inr ⟨Nat.le_of_not_lt hnull, hend⟩)
      show (tokens sep.bytes s).length ≤ _
      omega
    | some q =>
      have hlt : 10001 + k < (tokens sep.bytes s).length := hgets.lt
      refine iff_of_false (fun h => ?_) (by omega)
      have hsame := TokenAt.unique hgets h
      omega

/-- The token behind `b` in `"a b c"`. -/
theorem key_found : LooksUp (⟨chars ['a', ' ', 'b', ' ', 'c'] ++ [0], rfl⟩ : CharArray 6)
    (chars ['a', ' ', 'b', ' ', 'c']) (literal [' ']) (literal ['b']) 0 :=
  (getNextTok_iff ⟨by decide, [], rfl⟩ (by decide) 0).mpr (.inl (by decide))

/-- A key that does not occur: `strcmp(NULL, "b")`. -/
theorem missing_key_null : StringAt (⟨chars ['a'] ++ [0], rfl⟩ : CharArray 2) 0 (chars ['a']) ∧
    getNextTok (⟨chars ['a'] ++ [0], rfl⟩ : CharArray 2) (literal [' ']) (literal ['b']) 0 = .error .null ∧
    ¬LooksUp (⟨chars ['a'] ++ [0], rfl⟩ : CharArray 2) (chars ['a']) (literal [' ']) (literal ['b']) 0 := by
  have hs : StringAt (⟨chars ['a'] ++ [0], rfl⟩ : CharArray 2) 0 (chars ['a']) := ⟨by decide, [], rfl⟩
  have hnull : getNextTok (⟨chars ['a'] ++ [0], rfl⟩ : CharArray 2) (literal [' ']) (literal ['b']) 0 = .error .null :=
    lookup_null hs (by decide) (by decide)
  refine ⟨hs, hnull, fun h => ?_⟩
  obtain ⟨_, _, hget, -⟩ := h
  cases hnull.symm.trans hget

end

end Cs326.Inspector
