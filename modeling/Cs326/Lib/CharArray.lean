import Cs326.Lib.Fallible
import Mathlib.Data.List.TakeWhile

/-!
# Character arrays

A `char[cap]` and the functions of `string.h` that work in place. An access past the end of the array and the use of a
null pointer are errors. A scan stops at the first byte that is not accepted (`scan_eq`) or runs over the end
(`scan_overrun`). `StringAt a p s`: the string `s`, with its zero, starts at `p`; then the array is read as that string
(`StringAt.string`).
-/

namespace Cs326

/-- What C leaves undefined. -/
inductive Undefined
  | overrun
  | null
  | uninitialised
  deriving DecidableEq, Repr

structure CharArray (cap : Nat) where
  bytes : List UInt8
  length_eq : bytes.length = cap
  deriving DecidableEq

namespace CharArray

variable {cap : Nat}

/-- `char a[cap] = { 0 }`. -/
def zero (cap : Nat) : CharArray cap := ⟨List.replicate cap 0, List.length_replicate⟩

section Functions

variable (a : CharArray cap) (p : Nat)

/-- `a[p]`. -/
def get : Except Undefined UInt8 :=
  match a.bytes[p]? with
  | some b => .ok b
  | none => .error .overrun

/-- The bytes `bs` are stored from `a + p` on. -/
def write (bs : List UInt8) : Except Undefined (CharArray cap) :=
  if h : p + bs.length ≤ cap then
    .ok ⟨a.bytes.take p ++ (bs ++ a.bytes.drop (p + bs.length)), by
      have := a.length_eq
      simp only [List.length_append, List.length_take, List.length_drop]
      omega⟩
  else .error .overrun

/-- The number of bytes from `a + p` on before the first one that is not accepted. -/
def scan (accept : UInt8 → Bool) : Except Undefined Nat :=
  let n := ((a.bytes.drop p).takeWhile accept).length
  if p + n < cap then .ok n else .error .overrun

def strspn (set : List UInt8) : Except Undefined Nat := a.scan p set.contains

def strcspn (set : List UInt8) : Except Undefined Nat := a.scan p fun b => b != 0 && !set.contains b

def strlen : Except Undefined Nat := a.scan p fun b => b != 0

/-- The string at `a + p`, for the functions that read it as a whole. -/
def string : Except Undefined (List UInt8) := do return (a.bytes.drop p).take (← a.strlen p)

/-- `strcpy(a + p, s)`. -/
def strcpy (s : List UInt8) : Except Undefined (CharArray cap) := a.write p (s ++ [0])

end Functions

/-! ## Strings in arrays -/

theorem takeWhile_stop {α : Type*} {f : α → Bool} {l r : List α} (hl : ∀ x ∈ l, f x = true)
    (hr : ∀ x ∈ r.head?, f x = false) : (l ++ r).takeWhile f = l := by
  rw [List.takeWhile_append_of_pos hl]
  cases r with
  | nil => simp
  | cons x r =>
    rw [List.takeWhile_cons, hr x rfl]
    simp

theorem takeWhile_congr {α : Type*} {f g : α → Bool} {l : List α} (h : ∀ x ∈ l, f x = g x) :
    l.takeWhile f = l.takeWhile g := by
  induction l with
  | nil => rfl
  | cons x l ih =>
    rw [List.forall_mem_cons] at h
    rw [List.takeWhile_cons, List.takeWhile_cons, h.1, ih h.2]

/-- A scan stops at the first byte that is not accepted. -/
theorem scan_eq {a : CharArray cap} {p : Nat} {accept : UInt8 → Bool} {l r : List UInt8} {x : UInt8}
    (h : a.bytes.drop p = l ++ x :: r) (hl : ∀ b ∈ l, accept b = true) (hx : accept x = false) :
    a.scan p accept = .ok l.length := by
  have hlen := congrArg List.length h
  rw [List.length_drop, a.length_eq, List.length_append, List.length_cons] at hlen
  unfold CharArray.scan
  dsimp only
  rw [h, takeWhile_stop hl (by simpa using hx), if_pos (by omega)]

/-- A scan that accepts all there is runs over the end. -/
theorem scan_overrun {a : CharArray cap} {p : Nat} {accept : UInt8 → Bool}
    (h : ∀ b ∈ a.bytes.drop p, accept b = true) : a.scan p accept = .error .overrun := by
  unfold CharArray.scan
  dsimp only
  rw [List.takeWhile_eq_self_iff.mpr h, List.length_drop, a.length_eq, if_neg (by omega)]

/-- The string `s` with its zero is at `a + p`. -/
def StringAt (a : CharArray cap) (p : Nat) (s : List UInt8) : Prop := 0 ∉ s ∧ ∃ rest, a.bytes.drop p = s ++ 0 :: rest

namespace StringAt

variable {a a' : CharArray cap} {p : Nat} {s t : List UInt8}

theorem lt (h : StringAt a p s) : p + s.length < cap := by
  obtain ⟨_, rest, hrest⟩ := h
  have hlen := congrArg List.length hrest
  rw [List.length_drop, a.length_eq, List.length_append, List.length_cons] at hlen
  omega

theorem strlen (h : StringAt a p s) : a.strlen p = .ok s.length := by
  obtain ⟨h0, rest, hrest⟩ := h
  refine scan_eq hrest (fun b hb => ?_) rfl
  have hne : b ≠ 0 := fun e => h0 (e ▸ hb)
  simpa using hne

theorem string (h : StringAt a p s) : a.string p = .ok s := by
  unfold CharArray.string
  rw [h.strlen, ok_bind]
  obtain ⟨_, rest, hrest⟩ := h
  rw [hrest, List.take_left]
  rfl

/-- The end of a string is a string. -/
theorem drop (h : StringAt a p (s ++ t)) : StringAt a (p + s.length) t := by
  obtain ⟨h0, rest, hrest⟩ := h
  refine ⟨fun hm => h0 (List.mem_append_right _ hm), rest, ?_⟩
  rw [← List.drop_drop, hrest, List.append_assoc, List.drop_left]

theorem drop_le {k : Nat} (h : StringAt a p s) (hk : k ≤ s.length) : StringAt a (p + k) (s.drop k) := by
  have hsplit : s.take k ++ s.drop k = s := List.take_append_drop k s
  rw [← hsplit] at h
  simpa [hk] using h.drop

theorem get (h : StringAt a p s) : a.get p = .ok (s.headD 0) := by
  obtain ⟨_, rest, hrest⟩ := h
  have hget : a.bytes[p]? = (s ++ 0 :: rest)[0]? := by rw [← hrest, List.getElem?_drop, Nat.add_zero]
  unfold CharArray.get
  rw [hget]
  cases s <;> rfl

/-- The first byte that is not accepted is the zero, or in front of it. -/
theorem scan {accept : UInt8 → Bool} (h : StringAt a p s) (h0 : accept 0 = false) :
    a.scan p accept = .ok (s.takeWhile accept).length := by
  obtain ⟨_, rest, hrest⟩ := h
  rw [← List.takeWhile_append_dropWhile (p := accept) (l := s), List.append_assoc] at hrest
  have hacc : ∀ b ∈ s.takeWhile accept, accept b = true := fun b hb => List.mem_takeWhile_imp hb
  cases hdrop : s.dropWhile accept with
  | nil =>
    rw [hdrop] at hrest
    exact scan_eq hrest hacc h0
  | cons b r =>
    rw [hdrop] at hrest
    have hb := List.head_dropWhile_not accept (l := s) (by simp [hdrop])
    exact scan_eq hrest hacc (by simpa [hdrop] using hb)

theorem strspn {set : List UInt8} (h : StringAt a p s) (h0 : 0 ∉ set) :
    a.strspn p set = .ok (s.takeWhile fun b => set.contains b).length :=
  h.scan (by simpa using h0)

theorem strcspn {set : List UInt8} (h : StringAt a p s) :
    a.strcspn p set = .ok (s.takeWhile fun b => !set.contains b).length := by
  have hsame : (s.takeWhile fun b => b != 0 && !set.contains b) = s.takeWhile fun b => !set.contains b := by
    refine takeWhile_congr fun b hb => ?_
    have hne : b ≠ 0 := fun e => h.1 (e ▸ hb)
    simp [hne]
  rw [← hsame]
  exact h.scan rfl

/-- A byte behind the string does not matter. -/
theorem set {i : Nat} {b : UInt8} (h : StringAt a p s) (hlt : p + s.length < i)
    (hbytes : a'.bytes = a.bytes.set i b) : StringAt a' p s := by
  obtain ⟨h0, rest, hrest⟩ := h
  obtain ⟨k, rfl⟩ : ∃ k, i = p + (s.length + 1 + k) := ⟨i - p - s.length - 1, by omega⟩
  refine ⟨h0, rest.set k b, ?_⟩
  rw [hbytes, List.drop_set, if_neg (by omega), hrest, Nat.add_sub_cancel_left, List.set_append_right _ _ (by omega),
    show s.length + 1 + k - s.length = k + 1 by omega, List.set_cons_succ]

end StringAt

variable {a : CharArray cap} {p : Nat} {s t r front old back : List UInt8} {c : UInt8}

/-- What is written replaces what was there. -/
theorem write_eq (front old bs back : List UInt8) (h : a.bytes = front ++ (old ++ back))
    (hlen : bs.length = old.length) :
    ∃ a', a.write front.length bs = .ok a' ∧ a'.bytes = front ++ (bs ++ back) := by
  have hcap := a.length_eq
  rw [h, List.length_append, List.length_append, ← hlen] at hcap
  refine ⟨_, dif_pos (by omega), ?_⟩
  show a.bytes.take front.length ++ (bs ++ a.bytes.drop (front.length + bs.length)) = _
  rw [h, List.take_left, ← List.drop_drop, List.drop_left, hlen, List.drop_left]

theorem get_eq {b : UInt8} (front back : List UInt8) (h : a.bytes = front ++ b :: back) :
    a.get front.length = .ok b := by
  unfold get
  rw [h, List.getElem?_append_right (Nat.le_refl _), Nat.sub_self]
  rfl

/-- The array before and behind a place in it. -/
theorem exists_split (a : CharArray cap) (hp : p ≤ cap) : ∃ front back, a.bytes = front ++ back ∧ front.length = p ∧
    a.bytes.drop p = back := by
  refine ⟨a.bytes.take p, a.bytes.drop p, (List.take_append_drop p a.bytes).symm, ?_, rfl⟩
  rw [List.length_take, a.length_eq]
  omega

theorem StringAt.of_eq (front back : List UInt8) (h : a.bytes = front ++ (s ++ 0 :: back)) (h0 : 0 ∉ s) :
    StringAt a front.length s :=
  ⟨h0, back, by rw [h, List.drop_left]⟩

/-- A zero in the middle of a string makes two of it. -/
theorem StringAt.cut (h : StringAt a p (t ++ c :: r)) : ∃ a', a.write (p + t.length) [0] = .ok a' ∧ StringAt a' p t ∧
    StringAt a' (p + t.length + 1) r := by
  have hlt := h.lt
  obtain ⟨h0, rest, hrest⟩ := h
  obtain ⟨front, back, hbytes, rfl, hback⟩ := exists_split a (p := p) (by omega)
  obtain rfl := hrest.symm.trans hback
  obtain ⟨a', hwrite, hbytes'⟩ := write_eq (a := a) (front ++ t) [c] [0] (r ++ 0 :: rest) (by simpa using hbytes) rfl
  rw [List.length_append] at hwrite
  have ht0 : 0 ∉ t := fun hm => h0 (List.mem_append_left _ hm)
  have hr0 : 0 ∉ r := fun hm => h0 (List.mem_append_right _ (List.mem_cons_of_mem _ hm))
  have hlen : (front ++ (t ++ [0])).length = front.length + t.length + 1 := by simp [Nat.add_assoc]
  refine ⟨a', hwrite, .of_eq front (r ++ 0 :: rest) (by simpa using hbytes') ht0, ?_⟩
  rw [← hlen]
  exact .of_eq _ rest (by simpa using hbytes') hr0

/-- **What is copied is there**, behind what was there before. -/
theorem strcpy_eq (a : CharArray cap) (hlt : p + s.length < cap) (h0 : 0 ∉ s) :
    ∃ a', a.strcpy p s = .ok a' ∧ StringAt a' p s ∧ a'.bytes.take p = a.bytes.take p := by
  obtain ⟨front, back, hbytes, rfl, _⟩ := exists_split a (p := p) (by omega)
  have hcap := a.length_eq
  rw [hbytes, List.length_append] at hcap
  obtain ⟨a', hwrite, hbytes'⟩ := write_eq (a := a) front (back.take (s.length + 1)) (s ++ [0])
    (back.drop (s.length + 1)) (by rw [List.take_append_drop, hbytes])
    (by rw [List.length_append, List.length_take, List.length_singleton]; omega)
  refine ⟨a', hwrite, StringAt.of_eq front (back.drop (s.length + 1)) (by simpa using hbytes') h0, ?_⟩
  rw [hbytes', hbytes, List.take_left, List.take_left]

/-- `strcat`. -/
theorem StringAt.strcat (h : StringAt a 0 s) (hlt : s.length + t.length < cap) (h0 : 0 ∉ t) :
    ∃ a', a.strcpy s.length t = .ok a' ∧ StringAt a' 0 (s ++ t) := by
  obtain ⟨hs0, rest, hrest⟩ := h
  rw [List.drop_zero] at hrest
  obtain ⟨a', hcopy, ⟨-, rest', hrest'⟩, htake⟩ := a.strcpy_eq hlt h0
  refine ⟨a', hcopy, fun hm => (List.mem_append.mp hm).elim hs0 h0, rest', ?_⟩
  rw [List.drop_zero, ← List.take_append_drop s.length a'.bytes, htake, hrest', hrest, List.take_left]
  exact (List.append_assoc _ _ _).symm

/-! ## Lines of a file -/

/-- The bytes that `fgets` reads where it has room for `n`. -/
def lineOf : Nat → List UInt8 → List UInt8
  | 0, _ => []
  | _ + 1, [] => []
  | n + 1, b :: bs => if b = 10 then [b] else b :: lineOf n bs

/-- `fgets(a, cap, fp)` where `file` is left to read: the array and what is left then; `none`: `NULL`. -/
def fgets (a : CharArray cap) (file : List UInt8) : Except Undefined (Option (CharArray cap × List UInt8)) :=
  if file = [] then return none
  else do
    let text := lineOf (cap - 1) file
    let a ← a.write 0 (text ++ [0])
    return some (a, file.drop text.length)

/-- A line with its newline, or the last line of a file without one. -/
inductive IsLine : List UInt8 → List UInt8 → Prop
  | newline {line rest : List UInt8} : 10 ∉ line → IsLine (line ++ [10]) rest
  | last {line : List UInt8} : 10 ∉ line → line ≠ [] → IsLine line []

variable {text rest line : List UInt8} {n : Nat}

theorem IsLine.ne_nil (h : IsLine text rest) : text ≠ [] := by
  cases h with
  | newline => simp
  | last _ hne => exact hne

theorem lineOf_length_le (n : Nat) (file : List UInt8) : (lineOf n file).length ≤ n := by
  induction n generalizing file with
  | zero => exact Nat.le_refl _
  | succ n ih =>
    cases file with
    | nil => exact Nat.zero_le _
    | cons b file =>
      rw [lineOf]
      split
      · simp
      · exact Nat.succ_le_succ (ih file)

theorem lineOf_newline (hline : 10 ∉ line) (n : Nat) (rest : List UInt8) :
    lineOf n (line ++ 10 :: rest) = (line ++ [10]).take n := by
  induction line generalizing n with
  | nil => cases n <;> simp [lineOf]
  | cons b line ih =>
    rw [List.mem_cons, not_or] at hline
    cases n with
    | zero => rfl
    | succ n =>
      rw [List.cons_append, lineOf, if_neg (Ne.symm hline.1), ih hline.2, List.cons_append, List.take_succ_cons]

theorem lineOf_take (hline : 10 ∉ line) (n : Nat) : lineOf n line = line.take n := by
  induction line generalizing n with
  | nil => cases n <;> rfl
  | cons b line ih =>
    rw [List.mem_cons, not_or] at hline
    cases n with
    | zero => rfl
    | succ n => rw [lineOf, if_neg (Ne.symm hline.1), ih hline.2, List.take_succ_cons]

theorem lineOf_last (hline : 10 ∉ line) (hn : line.length ≤ n) : lineOf n line = line := by
  rw [lineOf_take hline, List.take_of_length_le hn]

/-- As much as there is room for. -/
theorem lineOf_full (hline : 10 ∉ line) (hn : line.length = n) (rest : List UInt8) :
    lineOf n (line ++ rest) = line := by
  induction line generalizing n with
  | nil =>
    subst hn
    rfl
  | cons b line ih =>
    subst hn
    rw [List.mem_cons, not_or] at hline
    rw [List.cons_append, List.length_cons, lineOf, if_neg (Ne.symm hline.1), ih hline.2 rfl]

/-- The first chunk of a line. -/
theorem IsLine.lineOf_take (h : IsLine text rest) (n : Nat) : lineOf n (text ++ rest) = text.take n := by
  cases h with
  | newline hline => rw [List.append_assoc, List.singleton_append, lineOf_newline hline]
  | last hline _ => rw [List.append_nil, CharArray.lineOf_take hline]

theorem lineOf_eq (h : IsLine text rest) (hn : text.length ≤ n) : lineOf n (text ++ rest) = text := by
  rw [h.lineOf_take, List.take_of_length_le hn]

/-- **`fgets` reads one line.** -/
theorem fgets_eq (h : IsLine text rest) (hlt : text.length < cap) : ∃ a' back,
    a.fgets (text ++ rest) = .ok (some (a', rest)) ∧ a'.bytes = text ++ 0 :: back := by
  have hlen := a.length_eq
  obtain ⟨a', hwrite, hbytes⟩ := write_eq (a := a) [] (a.bytes.take (text.length + 1)) (text ++ [0])
    (a.bytes.drop (text.length + 1)) (by rw [List.take_append_drop]; rfl)
    (by rw [List.length_append, List.length_take, List.length_singleton]; omega)
  refine ⟨a', a.bytes.drop (text.length + 1), ?_, by simpa using hbytes⟩
  have hline : lineOf (cap - 1) (text ++ rest) = text := lineOf_eq h (by omega)
  unfold fgets
  rw [if_neg (by simp [h.ne_nil])]
  dsimp only
  rw [hline, show a.write 0 (text ++ [0]) = .ok a' from hwrite, List.drop_left]
  rfl

end CharArray

end Cs326
