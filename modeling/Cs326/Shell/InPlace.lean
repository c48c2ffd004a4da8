import Cs326.Shell.Tokenizer
import Cs326.Text.Splitting

/-!
# The tokenizer of the shell, in place

`next_token` of `tokenizer.c` on the memory that it works in. On a string it does what `Prompt.next_token` does on
values (`next_token_refines`), so the zeros it leaves behind are read by no later call. Where there are no quotes it is
the `next_token` of `www.c` (`extends_plain`).
-/

namespace Cs326.Prompt.InPlace

open CharArray

variable {cap : Nat} {a a' : CharArray cap} {delim s : List UInt8} {p : Nat} {str : CString} {ptr' : Option Nat}
  {qs : List Nat}

/-- `tok_end` where `next_token` tests it, from the first values of `tok_st` and `tok_end`. -/
def tokEnd (a : CharArray cap) (str : Nat) (delim : List UInt8) (tok_st tok_end : Nat) :
    Except Cs326.Undefined Nat := do
  let quote_st ← a.strcspn str quotes
  let offset := quote_st + 1
  if quote_st < tok_end then do
    let quote ← a.get (str + quote_st)
    let quote_end := (← a.strcspn (str + offset) [quote]) + offset
    -- the delimiters are no quotes, so `quote_end` is not in front of `tok_st`
    return (← a.strcspn (str + quote_end) delim) + quote_end - tok_st
  else return tok_end

/-- The array and `*str_ptr` after the call, and the token returned; `none` is `NULL`. -/
def next_token (a : CharArray cap) (str_ptr : Option Nat) (delim : List UInt8) :
    Except Cs326.Undefined (CharArray cap × Option Nat × Option Nat) :=
  match str_ptr with
  | none => return (a, none, none)
  | some str => do
    let tok_st ← a.strspn str delim
    let tok_end ← tokEnd a str delim tok_st (← a.strcspn (str + tok_st) delim)
    if tok_end = 0 then return (a, none, none)
    else
      let current_ptr := str + tok_st
      let str := str + tok_st + tok_end
      if (← a.get str) = 0 then return (a, none, some current_ptr)
      else
        let a ← a.write str [0]
        return (a, some (str + 1), some current_ptr)

/-- The pointer, where it is not `NULL`, points to the string. -/
def Shows (a : CharArray cap) : Option Nat → Option CString → Prop := Option.Rel fun q c => StringAt a q c.bytes

/-! ## The refinement -/

/-- A scan from a place in the string. -/
theorem strcspn_eq (hs : StringAt a p str.bytes) {k : Nat} (hk : k ≤ str.length) (set : List UInt8) :
    a.strcspn (p + k) set = .ok ((str.drop k).strcspn set) :=
  (hs.drop_le hk).strcspn

theorem strspn_le (str : CString) (set : List UInt8) : str.strspn set ≤ str.length :=
  (List.takeWhile_prefix _).length_le

theorem strcspn_le {k : Nat} (hk : k ≤ str.length) (set : List UInt8) :
    k + (str.drop k).strcspn set ≤ str.length := by
  have hle : (str.drop k).strcspn set ≤ (str.drop k).length := (List.takeWhile_prefix _).length_le
  rw [CString.length_drop] at hle
  omega

/-- The token ends in the string. -/
theorem tokEnd_le (delim : List UInt8) (str : CString) : str.strspn delim + Prompt.tokEnd delim str ≤ str.length := by
  have hspn := strspn_le str delim
  have hcspn := strcspn_le hspn delim
  unfold Prompt.tokEnd
  dsimp only
  split
  · have hquote : str.strcspn quotes + 1 ≤ str.length := by omega
    have hend := strcspn_le hquote [(str.drop (str.strcspn quotes)).head]
    have hdel := strcspn_le hend delim
    rw [Nat.add_comm (str.strcspn quotes + 1)] at hdel
    omega
  · exact hcspn

theorem tokEnd_eq (hs : StringAt a p str.bytes) :
    tokEnd a p delim (str.strspn delim) ((str.drop (str.strspn delim)).strcspn delim) =
      .ok (Prompt.tokEnd delim str) := by
  have hcspn := strcspn_le (strspn_le str delim) delim
  have hquotes : a.strcspn p quotes = .ok (str.strcspn quotes) := hs.strcspn
  unfold tokEnd Prompt.tokEnd
  dsimp only
  rw [hquotes, ok_bind]
  split
  · have hquote : str.strcspn quotes < str.length := by omega
    have hget : a.get (p + str.strcspn quotes) = .ok (str.drop (str.strcspn quotes)).head := (hs.drop_le hquote.le).get
    have hend := strcspn_le (k := str.strcspn quotes + 1) hquote [(str.drop (str.strcspn quotes)).head]
    rw [Nat.add_comm] at hend
    rw [hget, ok_bind, strcspn_eq hs hquote, ok_bind, strcspn_eq hs hend]
    rfl
  · rfl

/-- **The refinement.** On a string, a call returns the token that `Prompt.next_token` returns, and leaves the cursor at
the string that it leaves. -/
theorem next_token_refines (h0 : 0 ∉ delim) (hs : StringAt a p str.bytes) : ∃ a' ptr' q,
    next_token a (some p) delim = .ok (a', ptr', q) ∧
    Shows a' q (Prompt.next_token delim (some str)).1 ∧ Shows a' ptr' (Prompt.next_token delim (some str)).2 := by
  have hspn : a.strspn p delim = .ok (str.strspn delim) := hs.strspn h0
  have hle := tokEnd_le delim str
  unfold next_token Prompt.next_token
  dsimp only
  rw [hspn, ok_bind, strcspn_eq hs (strspn_le str delim), ok_bind, tokEnd_eq hs, ok_bind]
  generalize str.strspn delim = tok_st at hle ⊢
  generalize Prompt.tokEnd delim str = tok_end at hle ⊢
  split
  · exact ⟨a, none, none, rfl, .none, .none⟩
  · have hget : a.get (p + tok_st + tok_end) = .ok (str.drop (tok_st + tok_end)).head := by
      rw [Nat.add_assoc]
      exact (hs.drop_le hle).get
    have htok := hs.drop_le (k := tok_st) (by show tok_st ≤ str.length; omega)
    have hsplit : (str.bytes.drop tok_st).take tok_end ++ str.bytes.drop (tok_st + tok_end) =
        str.bytes.drop tok_st := by
      rw [← List.drop_drop, List.take_append_drop]
    have hlen : ((str.bytes.drop tok_st).take tok_end).length = tok_end := by
      rw [List.length_take, List.length_drop]
      exact Nat.min_eq_left (by show tok_end ≤ str.length - tok_st; omega)
    rw [hget, ok_bind]
    cases hrest : str.bytes.drop (tok_st + tok_end) with
    | nil =>
      have hhead : (str.drop (tok_st + tok_end)).head = 0 := congrArg (List.headD · 0) hrest
      rw [hrest, List.append_nil] at hsplit
      rw [← hsplit] at htok
      rw [if_pos hhead, if_pos hhead]
      exact ⟨a, none, _, rfl, .some htok, .none⟩
    | cons c r =>
      have hhead : (str.drop (tok_st + tok_end)).head = c := congrArg (List.headD · 0) hrest
      have hc0 : c ≠ 0 := by
        rintro rfl
        exact str.nonzero (List.mem_of_mem_drop (hrest ▸ List.mem_cons_self))
      rw [hrest] at hsplit
      rw [← hsplit] at htok
      obtain ⟨a', hwrite, htok', hr⟩ := htok.cut
      rw [hlen] at hwrite hr
      have hdrop : ((str.drop (tok_st + tok_end)).drop 1).bytes = r := congrArg (List.drop 1) hrest
      rw [if_neg (hhead ▸ hc0), if_neg (hhead ▸ hc0), hwrite, ok_bind]
      exact ⟨a', _, _, rfl, .some htok', .some (hdrop ▸ hr)⟩

/-! ## Strings without quotes -/

/-- Without a quote in the string, one call does what that of `www.c` does. -/
theorem next_token_eq (h0 : 0 ∉ delim) (hs : StringAt a p s) (hq : ∀ b ∈ s, b ∉ quotes) :
    next_token a (some p) delim = Text.next_token a (some p) delim := by
  have hquotes : a.strcspn p quotes = .ok s.length := by
    rw [hs.strcspn, List.takeWhile_eq_self_iff.mpr (by simpa using hq)]
  have hspn := hs.strspn h0
  have hle : (s.takeWhile fun b => delim.contains b).length ≤ s.length := (List.takeWhile_prefix _).length_le
  have hcspn : a.strcspn (p + _) delim = .ok _ := (hs.drop_le hle).strcspn
  generalize hm : ((s.drop _).takeWhile _).length = m at hcspn
  have hmle : m ≤ s.length := by
    rw [← hm]
    exact (List.takeWhile_prefix _).length_le.trans (by simp)
  unfold next_token Text.next_token tokEnd
  simp only [hspn, hcspn, hquotes, ok_bind, if_neg (Nat.not_lt.mpr hmle)]
  rfl

/-- A call that returns a token. -/
def Call (delim : List UInt8) (st : CharArray cap × Option Nat) (qs : List Nat) (st' : CharArray cap × Option Nat) :
    Prop :=
  ∃ q, qs = [q] ∧ next_token st.1 st.2 delim = .ok (st'.1, st'.2, some q)

/-- The calls from the string at `p` on have returned the tokens at `qs`. -/
def Calls (delim : List UInt8) (a : CharArray cap) (p : Nat) (qs : List Nat) (a' : CharArray cap) (ptr' : Option Nat) :
    Prop :=
  Run (Call delim) (a, some p) qs (a', ptr')

/-- After any number of calls the string at the cursor is the end of the string at the start, so it has no quotes
either. -/
theorem next_token_eq_of_calls (h0 : 0 ∉ delim) (hs : StringAt a p s) (hq : ∀ b ∈ s, b ∉ quotes)
    (hr : Text.Calls delim a p qs a' ptr') : next_token a' ptr' delim = Text.next_token a' ptr' delim := by
  obtain ⟨done, todo, hsp⟩ := hr.splits h0 hs
  cases hsp.ahead with
  | done => rfl
  | more hsplit hu _ => exact next_token_eq h0 hu fun b hb => hq b (hsplit ▸ List.mem_append_right _ hb)

/-- **The extension.** On a string without quotes the calls of `next_token` in the shell go as those in `www.c` do: the
same calls can be made, each with the same array, cursor and token, up to the `NULL` at the end. -/
theorem extends_plain (h0 : 0 ∉ delim) (hs : StringAt a p s) (hq : ∀ b ∈ s, b ∉ quotes) (qs : List Nat)
    (a' : CharArray cap) (ptr' : Option Nat) :
    (Calls delim a p qs a' ptr' ↔ Text.Calls delim a p qs a' ptr') ∧
    (Text.Calls delim a p qs a' ptr' → next_token a' ptr' delim = Text.next_token a' ptr' delim) := by
  refine ⟨⟨fun hr => ?_, fun hr => ?_⟩, next_token_eq_of_calls h0 hs hq⟩
  · refine Run.invariant (s := (a, some p)) (t := (a', ptr')) (I := fun qs st => Text.Calls delim a p qs st.1 st.2)
      .nil ?_ hr
    rintro qs ⟨a₁, ptr₁⟩ _ ⟨a₂, ptr₂⟩ hrun ⟨q, rfl, hcall⟩
    exact hrun.snoc ⟨q, rfl, (next_token_eq_of_calls h0 hs hq hrun).symm.trans hcall⟩
  · refine (Run.invariant (s := (a, some p)) (t := (a', ptr'))
      (I := fun qs st => Text.Calls delim a p qs st.1 st.2 ∧ Calls delim a p qs st.1 st.2) ⟨.nil, .nil⟩ ?_ hr).2
    rintro qs ⟨a₁, ptr₁⟩ _ ⟨a₂, ptr₂⟩ ⟨hrun, hrun'⟩ hcall
    refine ⟨hrun.snoc hcall, ?_⟩
    obtain ⟨q, rfl, hcall⟩ := hcall
    exact hrun'.snoc ⟨q, rfl, (next_token_eq_of_calls h0 hs hq hrun).trans hcall⟩

/-- The first call on the string `a b`. -/
theorem extends_plain_two : next_token (⟨[97, 32, 98, 0], rfl⟩ : CharArray 4) (some 0) [32] =
    .ok (⟨[97, 0, 98, 0], rfl⟩, some 2, some 0) := by
  have h0 : (0 : UInt8) ∉ [32] := by decide
  have hs : StringAt (⟨[97, 32, 98, 0], rfl⟩ : CharArray 4) 0 [97, 32, 98] := ⟨by decide, [], rfl⟩
  exact ((extends_plain h0 hs (by simp [quotes]) [] _ _).2 .nil).trans rfl

end Cs326.Prompt.InPlace
