import Cs326.Lib.CharArray
import Cs326.Lib.Tokens

/-!
# The tokenizer

`next_token` of `www.c`, `file_format.c` and `inspector.c`, which are the same. It works in place: behind each token it
puts a zero and moves the cursor past it. `Cursor delim a ptr ts` says that the tokens still to come are `ts`; each call
returns the first of them as a string and goes on to the others (`next_token_cons`), and once there are none it returns
`NULL` (`next_token_nil`).
-/

namespace Cs326.Text

open CharArray

variable {cap : Nat} {a : CharArray cap} {delim s t : List UInt8} {ts : List (List UInt8)} {ptr : Option Nat} {p : Nat}

/-- The array and `*str_ptr` after the call, and the token returned; `none` is `NULL`. -/
def next_token (a : CharArray cap) (str_ptr : Option Nat) (delim : List UInt8) :
    Except Undefined (CharArray cap × Option Nat × Option Nat) :=
  match str_ptr with
  | none => return (a, none, none)
  | some str => do
    let tok_start ← a.strspn str delim
    let tok_end ← a.strcspn (str + tok_start) delim
    if tok_end = 0 then return (a, none, none)
    else
      let current_ptr := str + tok_start
      let str := str + tok_start + tok_end
      if (← a.get str) = 0 then return (a, none, some current_ptr)
      else
        let a ← a.write str [0]
        return (a, some (str + 1), some current_ptr)

/-! ## The tokens to come -/

/-- The tokens of a string. -/
def tokens (delim s : List UInt8) : List (List UInt8) := pieces (fun b => delim.contains b) s

/-- The cursor stands before the tokens `ts`. -/
def Cursor (delim : List UInt8) (a : CharArray cap) (ptr : Option Nat) (ts : List (List UInt8)) : Prop :=
  match ptr with
  | none => ts = []
  | some p => ∃ s, StringAt a p s ∧ tokens delim s = ts

section

variable {d r : List UInt8} {c : UInt8}

/-- The two scans, over delimiters and over what is none. -/
theorem scans (h0 : 0 ∉ delim) (h : a.bytes.drop p = d ++ (t ++ c :: r)) (hd : ∀ b ∈ d, delim.contains b = true)
    (ht : ∀ b ∈ t, delim.contains b = false) (ht0 : 0 ∉ t) (hc : c = 0 ∨ delim.contains c = true)
    (hne : t = [] → c = 0) :
    a.strspn p delim = .ok d.length ∧ a.strcspn (p + d.length) delim = .ok t.length := by
  constructor
  · cases t with
    | nil =>
      obtain rfl := hne rfl
      exact scan_eq h hd (by simpa using h0)
    | cons b t => exact scan_eq h hd (ht b List.mem_cons_self)
  · have hdrop : a.bytes.drop (p + d.length) = t ++ c :: r := by rw [← List.drop_drop, h, List.drop_left]
    refine scan_eq hdrop (fun b hb => ?_) ?_
    · have hb0 : b ≠ 0 := fun e => ht0 (e ▸ hb)
      rw [ht b hb]
      simpa using hb0
    · rcases hc with rfl | hc
      · rfl
      · rw [hc]
        simp

/-- The token in front of a delimiter. -/
theorem next_token_more (h0 : 0 ∉ delim) (h : a.bytes.drop p = d ++ (t ++ c :: r))
    (hd : ∀ b ∈ d, delim.contains b = true) (ht : Piece (fun b => delim.contains b) t) (ht0 : 0 ∉ t)
    (hc : delim.contains c = true) :
    ∃ a', next_token a (some p) delim = .ok (a', some (p + d.length + t.length + 1), some (p + d.length)) ∧
      StringAt a' (p + d.length) t ∧ a'.bytes.drop (p + d.length + t.length + 1) = r ∧
      a'.bytes = a.bytes.set (p + d.length + t.length) 0 := by
  obtain ⟨hspn, hcspn⟩ := scans h0 h hd ht.2 ht0 (.inr hc) fun h => absurd h ht.1
  have hc0 : c ≠ 0 := by
    rintro rfl
    exact h0 (by simpa using hc)
  have hlen := congrArg List.length h
  simp only [List.length_drop, a.length_eq, List.length_append, List.length_cons] at hlen
  obtain ⟨front, back, hbytes, rfl, hback⟩ := exists_split a (p := p) (by omega)
  obtain rfl := h.symm.trans hback
  have hsplit : a.bytes = (front ++ d ++ t) ++ c :: r := by rw [hbytes, List.append_assoc, List.append_assoc]
  have hget := get_eq _ r hsplit
  -- the delimiter behind the token makes way for a zero
  obtain ⟨a', hwrite, hbytes'⟩ := write_eq (front ++ d ++ t) [c] [0] r hsplit rfl
  simp only [List.length_append] at hget hwrite
  refine ⟨a', ?_, ?_, ?_, ?_⟩
  · unfold next_token
    simp only [hspn, hcspn, hget, hwrite, ok_bind, if_neg (mt List.length_eq_zero_iff.mp ht.1)]
    exact if_neg hc0
  · simpa using StringAt.of_eq (a := a') (front ++ d) r (by simpa using hbytes') ht0
  · have hend : a'.bytes = (front ++ d ++ t ++ [0]) ++ r := by simpa using hbytes'
    rw [hend, List.drop_left' (by simp [Nat.add_assoc])]
  · rw [hbytes', hsplit, List.set_append_right _ _ (by simp [Nat.add_assoc]), List.length_append, List.length_append,
      Nat.sub_self]
    rfl

/-- Without a zero and without a delimiter behind the token, the scans run over the end. -/
theorem next_token_overrun (h : a.bytes.drop p = d ++ t)
    (hd : ∀ b ∈ d, delim.contains b = true) (ht : ∀ b ∈ t, delim.contains b = false) (ht0 : 0 ∉ t) :
    next_token a (some p) delim = .error .overrun := by
  unfold next_token
  cases t with
  | nil =>
    have hspn : a.strspn p delim = .error .overrun := scan_overrun (by simpa [h] using hd)
    simp only [hspn, error_bind]
  | cons b t =>
    have hspn : a.strspn p delim = .ok d.length := scan_eq h hd (ht b List.mem_cons_self)
    have hdrop : a.bytes.drop (p + d.length) = b :: t := by rw [← List.drop_drop, h, List.drop_left]
    have hcspn : a.strcspn (p + d.length) delim = .error .overrun := by
      refine scan_overrun fun x hx => ?_
      rw [hdrop] at hx
      have hx0 : x ≠ 0 := fun e => ht0 (e ▸ hx)
      rw [ht x hx]
      simpa using hx0
    simp only [hspn, hcspn, ok_bind, error_bind]

end

/-- No tokens are left. -/
theorem next_token_nil (h0 : 0 ∉ delim) (h : Cursor delim a ptr []) : next_token a ptr delim = .ok (a, none, none) := by
  cases ptr with
  | none => rfl
  | some p =>
    obtain ⟨s, ⟨hs0, rest, hs⟩, ht⟩ := h
    have hd : ∀ b ∈ s, delim.contains b = true := by
      have hcut := cut_pieces (fun b => delim.contains b) s
      rw [show pieces _ s = [] from ht] at hcut
      cases hcut with
      | none hd => exact hd
    obtain ⟨hspn, hcspn⟩ := scans (t := []) h0 hs hd (by simp) (by simp) (.inl rfl) fun _ => rfl
    unfold next_token
    simp only [hspn, hcspn, ok_bind]
    rfl

/-- **One token.** At the end of the string nothing is written; behind every other token the delimiter makes way for a
zero, and the cursor moves past it. -/
theorem next_token_some (h0 : 0 ∉ delim) (hs : StringAt a p s) (ht : tokens delim s = t :: ts) : ∃ a' ptr' d,
    next_token a (some p) delim = .ok (a', ptr', some (p + d.length)) ∧ StringAt a' (p + d.length) t ∧
    (s = d ++ t ∧ a' = a ∧ ptr' = none ∧ ts = [] ∨
      ∃ c r, s = d ++ (t ++ c :: r) ∧ delim.contains c = true ∧ ptr' = some (p + d.length + t.length + 1) ∧
        a'.bytes = a.bytes.set (p + d.length + t.length) 0 ∧ StringAt a' (p + d.length + t.length + 1) r ∧
        tokens delim r = ts) := by
  have ⟨hs0, rest, hbytes⟩ := hs
  have hcut := cut_pieces (fun b => delim.contains b) s
  rw [show pieces _ s = t :: ts from ht] at hcut
  cases hcut with
  | @last d _ hd hpiece =>
    have ht0 : 0 ∉ t := fun hm => hs0 (List.mem_append_right _ hm)
    rw [List.append_assoc] at hbytes
    obtain ⟨hspn, hcspn⟩ := scans h0 hbytes hd hpiece.2 ht0 (.inl rfl) fun h => absurd h hpiece.1
    have htok : StringAt a (p + d.length) t := hs.drop
    have hend : StringAt a (p + d.length + t.length) [] := StringAt.drop (by simpa using htok)
    refine ⟨a, none, d, ?_, htok, .inl ⟨rfl, rfl, rfl, rfl⟩⟩
    unfold next_token
    simp only [hspn, hcspn, hend.get, ok_bind, if_neg (mt List.length_eq_zero_iff.mp hpiece.1)]
    rfl
  | @more d _ c r hd hpiece hc =>
    have ht0 : 0 ∉ t := fun hm => hs0 (by simp [hm])
    have hr0 : 0 ∉ r := fun hm => hs0 (by simp [hm])
    obtain ⟨a', hnext, htok, hrest, hset⟩ :=
      next_token_more (r := r ++ 0 :: rest) h0 (by simpa using hbytes) hd hpiece ht0 hc
    exact ⟨a', _, d, hnext, htok, .inr ⟨c, r, rfl, hc, rfl, hset, ⟨hr0, rest, hrest⟩, rfl⟩⟩

theorem next_token_cons (h0 : 0 ∉ delim) (h : Cursor delim a ptr (t :: ts)) : ∃ a' ptr' q,
    next_token a ptr delim = .ok (a', ptr', some q) ∧ StringAt a' q t ∧ Cursor delim a' ptr' ts := by
  cases ptr with
  | none => cases h
  | some p =>
    obtain ⟨s, hs, ht⟩ := h
    obtain ⟨a', ptr', d, hnext, htok, ⟨_, _, rfl, rfl⟩ | ⟨c, r, _, _, rfl, _, hr, hts⟩⟩ := next_token_some h0 hs ht
    · exact ⟨a', none, _, hnext, htok, rfl⟩
    · exact ⟨a', _, _, hnext, htok, r, hr, hts⟩

/-! ## An array without a zero -/

/-- There is no zero from `a + p` on, and `ts` are the tokens with an end. -/
def Unended (delim : List UInt8) (a : CharArray cap) (p : Nat) (ts : List (List UInt8)) : Prop :=
  0 ∉ a.bytes.drop p ∧ tokens delim (closed (fun b => delim.contains b) (a.bytes.drop p)) = ts

/-- The search for a token that does not end runs over the array. -/
theorem next_token_unended_nil (h : Unended delim a p []) : next_token a (some p) delim = .error .overrun := by
  obtain ⟨hz, hts⟩ := h
  have hcut := cut_pieces (fun b => delim.contains b) (a.bytes.drop p)
  generalize hs : a.bytes.drop p = s at hcut hz hts
  generalize pieces _ s = us at hcut
  cases hcut with
  | none hd => exact next_token_overrun (t := []) (by simpa using hs) hd (by simp) (by simp)
  | last hd ht => exact next_token_overrun hs hd ht.2 fun hm => hz (List.mem_append_right _ hm)
  | more hd ht hc =>
    rw [← List.append_assoc, closed_append_cons hc, List.append_assoc] at hts
    rw [tokens, pieces_append_delims hd, ht.pieces_cons hc] at hts
    cases hts

theorem next_token_unended_cons (h0 : 0 ∉ delim) (h : Unended delim a p (t :: ts)) : ∃ a' p' q,
    next_token a (some p) delim = .ok (a', some p', some q) ∧ StringAt a' q t ∧ Unended delim a' p' ts := by
  obtain ⟨hz, hts⟩ := h
  have hcut := cut_pieces (fun b => delim.contains b) (a.bytes.drop p)
  generalize hs : a.bytes.drop p = s at hcut hz hts
  generalize pieces _ s = us at hcut
  cases hcut with
  | none hd =>
    have hclosed := closed_append (t := []) hd (by simp)
    rw [List.append_nil] at hclosed
    rw [hclosed, tokens, pieces_delims hd] at hts
    cases hts
  | last hd ht =>
    rw [closed_append hd ht.2, tokens, pieces_delims hd] at hts
    cases hts
  | @more d u c r hd hu hc =>
    rw [← List.append_assoc, closed_append_cons hc, List.append_assoc] at hts
    rw [tokens, pieces_append_delims hd, hu.pieces_cons hc] at hts
    cases hts
    obtain ⟨a', hnext, htok, hrest, _⟩ := next_token_more h0 hs hd hu (fun hm => hz (by simp [hm])) hc
    exact ⟨a', _, _, hnext, htok, by rw [hrest]; exact fun hm => hz (by simp [hm]), by rw [hrest]; rfl⟩

end Cs326.Text
