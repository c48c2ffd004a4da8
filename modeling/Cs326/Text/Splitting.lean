import Cs326.Lib.Run
import Cs326.Text.NextToken
import Mathlib.Data.List.Forall2

/-!
# Splitting a string

`next_token` called again and again from the start of a string (`Call`). The calls return the tokens of the string one
by one, and then `NULL`. In front of the cursor the array is the string with a zero in the place of the delimiter behind
each token; from the cursor on it is as it was. So a token that has been returned stays as it is.
-/

namespace Cs326.Text

open CharArray

variable {cap : Nat} {a a' : CharArray cap} {delim s t : List UInt8} {ts : List (List UInt8)} {ptr' : Option Nat}
  {p : Nat} {qs : List Nat}

/-- A call that returns a token. -/
def Call (delim : List UInt8) (st : CharArray cap × Option Nat) (qs : List Nat) (st' : CharArray cap × Option Nat) :
    Prop :=
  ∃ q, qs = [q] ∧ next_token st.1 st.2 delim = .ok (st'.1, st'.2, some q)

/-- The calls from the string at `p` on have returned the tokens at `qs`. -/
def Calls (delim : List UInt8) (a : CharArray cap) (p : Nat) (qs : List Nat) (a' : CharArray cap) (ptr' : Option Nat) :
    Prop :=
  Run (Call delim) (a, some p) qs (a', ptr')

/-- The cursor stands before the tokens `todo` of `s`, which starts at `p`, and behind what ends at the places
`ends`. -/
inductive Ahead (delim s : List UInt8) (p : Nat) (a : CharArray cap) (ends : List Nat) :
    Option Nat → List (List UInt8) → Prop
  | done : Ahead delim s p a ends none []
  | more {v u : List UInt8} : s = v ++ u → StringAt a (p + v.length) u → (∀ e ∈ ends, e < p + v.length) →
      Ahead delim s p a ends (some (p + v.length)) (tokens delim u)

/-- Where the tokens at `qs` end. -/
def ends (qs : List Nat) (ts : List (List UInt8)) : List Nat := List.zipWith (fun q t => q + t.length) qs ts

/-- The array `a'` is `a` with zeros at those of the places `ends` that are in the string `s` at `p`, where `a` has
delimiters. -/
def Changed (delim s : List UInt8) (p : Nat) (a a' : CharArray cap) (ends : List Nat) : Prop :=
  ∀ i, a'.bytes[i]? = a.bytes[i]? ∨
    i ∈ ends ∧ i < p + s.length ∧ a'.bytes[i]? = some 0 ∧ ∃ c, a.bytes[i]? = some c ∧ delim.contains c = true

/-- After the calls: the tokens returned are strings in the array, the others are still to come. -/
structure Splits (delim s : List UInt8) (p : Nat) (a : CharArray cap) (qs : List Nat) (a' : CharArray cap)
    (ptr' : Option Nat) (done todo : List (List UInt8)) : Prop where
  split : tokens delim s = done ++ todo
  returned : List.Forall₂ (StringAt a') qs done
  changed : Changed delim s p a a' (ends qs done)
  ahead : Ahead delim s p a' (ends qs done) ptr' todo

/-! ## One call -/

theorem ends_append (h : qs.length = ts.length) (q : Nat) (t : List UInt8) :
    ends (qs ++ [q]) (ts ++ [t]) = ends qs ts ++ [q + t.length] :=
  List.zipWith_append h

/-- A byte behind the ends of the tokens does not matter. -/
theorem forall₂_set {e : Nat} {b : UInt8} (h : List.Forall₂ (StringAt a) qs ts) (hlt : ∀ i ∈ ends qs ts, i < e)
    (hset : a'.bytes = a.bytes.set e b) : List.Forall₂ (StringAt a') qs ts := by
  induction h with
  | nil => exact .nil
  | cons hs _ ih =>
    rw [ends, List.zipWith_cons_cons, List.forall_mem_cons] at hlt
    exact .cons (hs.set hlt.1 hset) (ih hlt.2)

namespace Splits

variable {a₁ : CharArray cap} {done todo : List (List UInt8)}

theorem start (hs : StringAt a p s) : Splits delim s p a [] a (some p) [] (tokens delim s) where
  split := rfl
  returned := .nil
  changed _ := .inl rfl
  ahead := .more (List.nil_append s).symm hs fun _ he => absurd he List.not_mem_nil

/-- Without tokens to come the call returns `NULL`. -/
theorem null (h0 : 0 ∉ delim) (h : Splits delim s p a qs a₁ ptr' done []) :
    next_token a₁ ptr' delim = .ok (a₁, none, none) := by
  apply next_token_nil h0
  obtain ⟨_, _, _, hahead⟩ := h
  generalize htodo : ([] : List (List UInt8)) = todo at hahead
  cases hahead with
  | done => rfl
  | more _ hu _ => exact ⟨_, hu, rfl⟩

/-- The place behind the next token: it has not been changed, and it is a delimiter. -/
theorem delimiter {v d t r : List UInt8} {c : UInt8} (hch : Changed delim s p a a₁ (ends qs done))
    (hlt : ∀ e ∈ ends qs done, e < p + v.length) (hu : StringAt a₁ (p + v.length) (d ++ (t ++ c :: r))) :
    a.bytes[p + v.length + d.length + t.length]? = some c := by
  obtain ⟨_, rest, hrest⟩ := hu
  have hget : a₁.bytes[p + v.length + d.length + t.length]? = some c := by
    have hdrop : (a₁.bytes.drop (p + v.length))[d.length + t.length]? = some c := by
      rw [hrest]
      simp
    rwa [List.getElem?_drop, ← Nat.add_assoc] at hdrop
  rcases hch (p + v.length + d.length + t.length) with heq | ⟨hmem, _⟩
  · rw [← heq, hget]
  · exact absurd (hlt _ hmem) (by omega)

/-- **One call** returns the next token. -/
theorem call (h0 : 0 ∉ delim) (h : Splits delim s p a qs a₁ ptr' done (t :: todo)) : ∃ a₂ ptr₂ q,
    next_token a₁ ptr' delim = .ok (a₂, ptr₂, some q) ∧
    Splits delim s p a (qs ++ [q]) a₂ ptr₂ (done ++ [t]) todo := by
  obtain ⟨htokens, hret, hch, hahead⟩ := h
  have hlen := hret.length_eq
  generalize htodo : t :: todo = us at hahead
  cases hahead with
  | done => cases htodo
  | @more v u hsu hu hlt =>
    obtain ⟨a₂, ptr₂, d, hnext, htok, hcases⟩ := next_token_some h0 hu htodo.symm
    refine ⟨a₂, ptr₂, p + v.length + d.length, hnext, ?_⟩
    have htokens' : tokens delim s = (done ++ [t]) ++ todo := by simpa using htokens
    rcases hcases with ⟨_, rfl, rfl, rfl⟩ | ⟨c, r, rfl, hc, rfl, hset, hr, rfl⟩
    · refine ⟨htokens', List.rel_append hret (.cons htok .nil), fun i => ?_, .done⟩
      rw [ends_append hlen]
      exact (hch i).imp_right fun ⟨hmem, hi⟩ => ⟨List.mem_append_left _ hmem, hi⟩
    · have hdelim := delimiter hch hlt hu
      have hbound := hu.lt
      have hret' : List.Forall₂ (StringAt a₂) qs done := forall₂_set hret (fun i hi => by have := hlt i hi; omega) hset
      refine ⟨htokens', List.rel_append hret' (.cons htok .nil), fun i => ?_, ?_⟩
      · rw [ends_append hlen, hset]
        by_cases hi : i = p + v.length + d.length + t.length
        · right
          subst hi
          simp only [List.length_append, List.length_cons] at hbound
          refine ⟨by simp, by simp [hsu]; omega, List.getElem?_set_self (by rw [a₁.length_eq]; omega), c, hdelim, hc⟩
        · rw [List.getElem?_set_ne (Ne.symm hi)]
          exact (hch i).imp_right fun ⟨hmem, hi⟩ => ⟨List.mem_append_left _ hmem, hi⟩
      · have hv : p + v.length + d.length + t.length + 1 = p + (v ++ (d ++ (t ++ [c]))).length := by
          simp only [List.length_append, List.length_singleton]
          omega
        rw [hv] at hr ⊢
        refine .more (by simp [hsu]) hr fun e he => ?_
        rw [ends_append hlen, List.mem_append, List.mem_singleton] at he
        rcases he with he | rfl
        · have := hlt e he
          omega
        · omega

end Splits

/-! ## All calls -/

/-- **Any number of calls** from the start of the string. -/
theorem Calls.splits (h0 : 0 ∉ delim) (hs : StringAt a p s) (hr : Calls delim a p qs a' ptr') :
    ∃ done todo, Splits delim s p a qs a' ptr' done todo := by
  refine Run.invariant (R := Call delim) (s := (a, some p)) (t := (a', ptr'))
    (I := fun qs st => ∃ done todo, Splits delim s p a qs st.1 st.2 done todo) ⟨_, _, .start hs⟩ ?_ hr
  rintro qs ⟨a₁, ptr₁⟩ _ ⟨a₂, ptr₂⟩ ⟨done, todo, hsp⟩ ⟨q, rfl, hcall⟩
  cases todo with
  | nil => cases hcall.symm.trans (hsp.null h0)
  | cons t todo =>
    obtain ⟨a₃, ptr₃, q', hnext, hsp'⟩ := hsp.call h0
    obtain ⟨rfl, rfl, rfl⟩ : a₂ = a₃ ∧ ptr₂ = ptr₃ ∧ q = q' := by simpa using hcall.symm.trans hnext
    exact ⟨_, _, hsp'⟩

/-- After `n` calls. -/
theorem exists_calls (h0 : 0 ∉ delim) (hs : StringAt a p s) {n : Nat} (hn : n ≤ (tokens delim s).length) :
    ∃ qs a' ptr', qs.length = n ∧ Calls delim a p qs a' ptr' := by
  induction n with
  | zero => exact ⟨[], a, some p, rfl, .nil⟩
  | succ n ih =>
    obtain ⟨qs, a', ptr', hlen, hr⟩ := ih (by omega)
    obtain ⟨done, todo, hsp⟩ := hr.splits h0 hs
    have htokens := congrArg List.length hsp.split
    rw [List.length_append, ← hsp.returned.length_eq, hlen] at htokens
    cases todo with
    | nil => exact absurd hn (by rw [htokens]; simp)
    | cons t todo =>
      obtain ⟨a₂, ptr₂, q, hnext, _⟩ := hsp.call h0
      exact ⟨qs ++ [q], a₂, ptr₂, by simp [hlen], hr.snoc ⟨q, rfl, hnext⟩⟩

/-- **Splitting.** Calls from the start of a string come to a `NULL`. However many there have been, the array then holds
the tokens returned so far, which are the first ones of the string; it differs from what it was only in zeros for the
delimiters behind them; and the next call returns `NULL` exactly if all tokens have been returned. -/
theorem splitting (h0 : 0 ∉ delim) (hs : StringAt a p s) :
    (∃ qs a' ptr', Calls delim a p qs a' ptr' ∧ next_token a' ptr' delim = .ok (a', none, none)) ∧
    ∀ qs a' ptr', Calls delim a p qs a' ptr' →
      List.Forall₂ (StringAt a') qs ((tokens delim s).take qs.length) ∧
      Changed delim s p a a' (ends qs (tokens delim s)) ∧
      (next_token a' ptr' delim = .ok (a', none, none) ↔ qs.length = (tokens delim s).length) := by
  constructor
  · obtain ⟨qs, a', ptr', hlen, hr⟩ := exists_calls h0 hs le_rfl
    obtain ⟨done, todo, hsp⟩ := hr.splits h0 hs
    have htokens := congrArg List.length hsp.split
    rw [List.length_append, ← hsp.returned.length_eq, hlen] at htokens
    obtain rfl : todo = [] := List.length_eq_zero_iff.mp (by omega)
    exact ⟨qs, a', ptr', hr, hsp.null h0⟩
  · intro qs a' ptr' hr
    obtain ⟨done, todo, hsp⟩ := hr.splits h0 hs
    have hlen := hsp.returned.length_eq
    have hends : ends qs (tokens delim s) = ends qs done := by
      rw [ends, hsp.split, ← List.append_nil qs, List.zipWith_append hlen]
      simp [ends]
    refine ⟨?_, hends ▸ hsp.changed, ?_⟩
    · rw [hsp.split, hlen, List.take_left]
      exact hsp.returned
    · rw [hsp.split, List.length_append, hlen]
      cases todo with
      | nil => simpa using hsp.null h0
      | cons t todo =>
        obtain ⟨a₂, ptr₂, q, hnext, _⟩ := hsp.call h0
        rw [hnext]
        simp

/-- The string `a b`. -/
theorem splitting_two : ∃ qs ptr', ∃ a' : CharArray 4, Calls [32] (⟨[97, 32, 98, 0], rfl⟩ : CharArray 4) 0 qs a' ptr' ∧
    next_token a' ptr' [32] = .ok (a', none, none) ∧ List.Forall₂ (StringAt a') qs [[97], [98]] := by
  have hs : StringAt (⟨[97, 32, 98, 0], rfl⟩ : CharArray 4) 0 [97, 32, 98] := ⟨by decide, [], rfl⟩
  have h0 : (0 : UInt8) ∉ [32] := by decide
  obtain ⟨⟨qs, a', ptr', hr, hnull⟩, hall⟩ := splitting h0 hs
  obtain ⟨hret, _, hend⟩ := hall qs a' ptr' hr
  rw [hend.mp hnull] at hret
  exact ⟨qs, ptr', a', hr, hnull, hret⟩

end Cs326.Text
