import Mathlib.Data.List.DropRight
import Mathlib.Data.List.TakeWhile

/-!
# Pieces of a text

The pieces of a list between delimiters: the maximal non-empty stretches without one. A list is delimiters, or starts
with delimiters, a piece and the end or one more delimiter (`Cut`, `cut_pieces`), so the pieces can be read off from the
front. `closed p s` is the list up to its last delimiter; its pieces stay whatever comes behind the list
(`pieces_append_closed`).
-/

namespace Cs326

variable {α : Type*} {p : α → Bool} {s t d r : List α} {c : α} {ts : List (List α)}

def pieces (p : α → Bool) (s : List α) : List (List α) := (s.splitOnP p).filter fun t => !t.isEmpty

/-- Non-empty and without a delimiter. -/
def Piece (p : α → Bool) (t : List α) : Prop := t ≠ [] ∧ ∀ c ∈ t, p c = false

@[simp] theorem pieces_nil : pieces p [] = [] := by simp [pieces, List.splitOnP_nil]

theorem pieces_append_delim (hc : p c = true) (s r : List α) : pieces p (s ++ c :: r) = pieces p s ++ pieces p r := by
  unfold pieces
  rw [List.splitOnP_append_cons s r hc, List.filter_append]

theorem pieces_cons_delim (hc : p c = true) (r : List α) : pieces p (c :: r) = pieces p r := by
  simpa using pieces_append_delim hc [] r

/-- Delimiters at the front are passed over. -/
theorem pieces_append_delims (hd : ∀ c ∈ d, p c = true) (s : List α) : pieces p (d ++ s) = pieces p s := by
  induction d with
  | nil => rfl
  | cons c d ih =>
    rw [List.cons_append, pieces_cons_delim (hd c List.mem_cons_self)]
    exact ih fun c hc => hd c (List.mem_cons_of_mem _ hc)

theorem pieces_delims (hd : ∀ c ∈ d, p c = true) : pieces p d = [] := by
  simpa using pieces_append_delims hd []

theorem Piece.pieces (ht : Piece p t) : pieces p t = [t] := by
  unfold Cs326.pieces
  rw [List.splitOnP_eq_singleton ht.2]
  simp [ht.1]

/-- The piece in front of a delimiter. -/
theorem Piece.pieces_cons (ht : Piece p t) (hc : p c = true) (r : List α) :
    Cs326.pieces p (t ++ c :: r) = t :: Cs326.pieces p r := by
  rw [pieces_append_delim hc, ht.pieces]
  rfl

/-- The piece in front of delimiters. -/
theorem Piece.pieces_append (ht : Piece p t) (hd : ∀ c ∈ d, p c = true) (hne : d ≠ []) (s : List α) :
    Cs326.pieces p (t ++ (d ++ s)) = t :: Cs326.pieces p s := by
  cases d with
  | nil => exact absurd rfl hne
  | cons c d =>
    obtain ⟨hc, hd⟩ := List.forall_mem_cons.mp hd
    rw [List.cons_append, ht.pieces_cons hc, pieces_append_delims hd]

/-- The last piece. -/
theorem Piece.pieces_end (ht : Piece p t) (hd : ∀ c ∈ d, p c = true) : Cs326.pieces p (t ++ d) = [t] := by
  by_cases hne : d = []
  · rw [hne, List.append_nil, ht.pieces]
  · simpa using ht.pieces_append hd hne []

/-- Pieces with the delimiter in front of each of them. -/
theorem pieces_append_flatMap {β : Type*} {f : β → List α} {l : List β} (hc : p c = true)
    (hf : ∀ x ∈ l, Piece p (f x)) (s : List α) :
    pieces p (s ++ l.flatMap fun x => c :: f x) = pieces p s ++ l.map f := by
  induction l generalizing s with
  | nil => simp
  | cons x l ih =>
    rw [List.forall_mem_cons] at hf
    rw [List.flatMap_cons, ← List.append_assoc, ih hf.2, pieces_append_delim hc, hf.1.pieces, List.append_assoc]
    rfl

/-- The pieces of lines, which all end with a delimiter. -/
theorem pieces_flatMap {β : Type*} {f : β → List α} (hc : p c = true) (l : List β) :
    pieces p (l.flatMap fun x => f x ++ [c]) = l.flatMap fun x => pieces p (f x) := by
  induction l with
  | nil => rw [List.flatMap_nil, List.flatMap_nil, pieces_nil]
  | cons x l ih =>
    rw [List.flatMap_cons, List.flatMap_cons, List.append_assoc, List.singleton_append, pieces_append_delim hc, ih]

/-- The pieces behind one more element: a piece ends where a delimiter follows it. -/
theorem length_pieces_cons_cons (p : α → Bool) (b c : α) (s : List α) : (pieces p (b :: c :: s)).length =
    (if p b = false ∧ p c = true then 1 else 0) + (pieces p (c :: s)).length := by
  by_cases hb : p b = true
  · rw [pieces_cons_delim hb, if_neg (by simp [hb]), Nat.zero_add]
  rw [Bool.not_eq_true] at hb
  by_cases hc : p c = true
  · have hpiece : Piece p [b] := ⟨List.cons_ne_nil _ _, by simpa using hb⟩
    rw [if_pos ⟨hb, hc⟩, ← List.singleton_append, hpiece.pieces_cons hc, pieces_cons_delim hc, List.length_cons,
      Nat.add_comm]
  · -- `b` is the front of the piece that starts with `c`
    rw [if_neg fun h => hc h.2, Nat.zero_add]
    obtain ⟨t, ts, hts⟩ := List.exists_cons_of_ne_nil (List.splitOnP_ne_nil p s)
    unfold pieces
    rw [List.splitOnP_cons_eq_if_modifyHead, List.splitOnP_cons_eq_if_modifyHead, if_neg hc, if_neg (by simp [hb]), hts]
    simp

theorem piece_of_all (hne : t ≠ []) (h : t.all (fun c => !p c) = true) : Piece p t :=
  ⟨hne, fun c hc => by simpa using List.all_eq_true.mp h c hc⟩

/-- How a list starts. -/
inductive Cut (p : α → Bool) : List α → List (List α) → Prop
  | none {d : List α} : (∀ c ∈ d, p c = true) → Cut p d []
  | last {d t : List α} : (∀ c ∈ d, p c = true) → Piece p t → Cut p (d ++ t) [t]
  | more {d t : List α} {c : α} {r : List α} : (∀ c ∈ d, p c = true) → Piece p t → p c = true →
      Cut p (d ++ (t ++ c :: r)) (t :: pieces p r)

theorem Cut.cons (hc : p c = true) (h : Cut p s ts) : Cut p (c :: s) ts := by
  cases h with
  | none hd => exact .none (List.forall_mem_cons.mpr ⟨hc, hd⟩)
  | last hd ht => exact .last (List.forall_mem_cons.mpr ⟨hc, hd⟩) ht
  | more hd ht hb => exact .more (List.forall_mem_cons.mpr ⟨hc, hd⟩) ht hb

/-- **Every list is cut into its pieces.** -/
theorem cut_pieces (p : α → Bool) (s : List α) : Cut p s (pieces p s) := by
  induction s with
  | nil =>
    rw [pieces_nil]
    exact .none (by simp)
  | cons b s ih =>
    by_cases hb : p b = true
    · rw [pieces_cons_delim hb]
      exact ih.cons hb
    · -- the piece that starts with `b`
      have hsplit : b :: s = (b :: s.takeWhile fun c => !p c) ++ s.dropWhile fun c => !p c := by
        rw [List.cons_append, List.takeWhile_append_dropWhile]
      have ht : Piece p (b :: s.takeWhile fun c => !p c) := by
        refine ⟨List.cons_ne_nil _ _, List.forall_mem_cons.mpr ⟨by simpa using hb, fun c hc => ?_⟩⟩
        simpa using List.mem_takeWhile_imp hc
      rw [hsplit]
      cases hrest : s.dropWhile fun c => !p c with
      | nil =>
        rw [List.append_nil, ht.pieces]
        exact .last (d := []) (by simp) ht
      | cons c r =>
        have hc : p c = true := by
          have hhead := List.head_dropWhile_not (fun c => !p c) (l := s) (by simp [hrest])
          simpa [hrest] using hhead
        rw [ht.pieces_cons hc]
        exact .more (d := []) (by simp) ht hc

/-- The pieces, each with the number of delimiters passed over in front of it; the one right behind a piece ends it and
is not counted. -/
def cuts (p : α → Bool) (s : List α) : List (Nat × List α) :=
  let r := s.dropWhile p
  let t := r.takeWhile fun c => !p c
  if _h : t = [] then []
  else ((s.takeWhile p).length, t) :: cuts p ((r.dropWhile fun c => !p c).drop 1)
termination_by s.length
decreasing_by
  have hpos : 0 < ((s.dropWhile p).takeWhile fun c => !p c).length := List.length_pos_iff.mpr _h
  have hsplit := congrArg List.length (List.takeWhile_append_dropWhile (p := p) (l := s))
  have hsplit' := congrArg List.length (List.takeWhile_append_dropWhile (p := fun c => !p c) (l := s.dropWhile p))
  rw [List.length_append] at hsplit hsplit'
  show (((s.dropWhile p).dropWhile fun c => !p c).drop 1).length < s.length
  rw [List.length_drop]
  omega

section

variable (hd : ∀ c ∈ d, p c = true)

include hd

theorem dropWhile_delims (h : ∀ c ∈ s.head?, p c = false) : (d ++ s).dropWhile p = s := by
  rw [List.dropWhile_append_of_pos hd]
  cases s with
  | nil => rfl
  | cons c s => rw [List.dropWhile_cons, h c rfl]; rfl

theorem takeWhile_delims (h : ∀ c ∈ s.head?, p c = false) : (d ++ s).takeWhile p = d := by
  rw [List.takeWhile_append_of_pos hd]
  cases s with
  | nil => simp
  | cons c s => rw [List.takeWhile_cons, h c rfl]; simp

theorem cuts_delims : cuts p d = [] := by
  have hdrop := dropWhile_delims (s := []) hd (by simp)
  rw [List.append_nil] at hdrop
  rw [cuts, hdrop]
  rfl

theorem Piece.cuts_end (ht : Piece p t) : cuts p (d ++ t) = [(d.length, t)] := by
  have hhead : ∀ c ∈ t.head?, p c = false := fun c hc => ht.2 c (List.mem_of_mem_head? hc)
  have htake : (t.takeWhile fun c => !p c) = t := List.takeWhile_eq_self_iff.mpr fun c hc => by simp [ht.2 c hc]
  have hdrop : (t.dropWhile fun c => !p c) = [] := List.dropWhile_eq_nil_iff.mpr fun c hc => by simp [ht.2 c hc]
  rw [cuts, dropWhile_delims hd hhead, takeWhile_delims hd hhead, htake, hdrop, dif_neg ht.1, List.drop_nil,
    cuts_delims (d := []) (by simp)]

theorem Piece.cuts_cons (ht : Piece p t) (hc : p c = true) (r : List α) :
    cuts p (d ++ (t ++ c :: r)) = (d.length, t) :: cuts p r := by
  have hhead : ∀ b ∈ (t ++ c :: r).head?, p b = false := by
    obtain ⟨b, u, rfl⟩ := List.exists_cons_of_ne_nil ht.1
    simpa using ht.2 b List.mem_cons_self
  have hnot : ∀ b ∈ t, (!p b) = true := fun b hb => by simp [ht.2 b hb]
  have htake : ((t ++ c :: r).takeWhile fun b => !p b) = t :=
    takeWhile_delims (p := fun b => !p b) hnot (by simp [hc])
  have hdrop : ((t ++ c :: r).dropWhile fun b => !p b) = c :: r :=
    dropWhile_delims (p := fun b => !p b) hnot (by simp [hc])
  rw [cuts, dropWhile_delims hd hhead, takeWhile_delims hd hhead, htake, hdrop, dif_neg ht.1]
  rfl

end

/-- A piece is a stretch of the list. -/
theorem infix_of_mem_pieces (ht : t ∈ pieces p s) : t <:+: s := by
  obtain ⟨n, hn⟩ : ∃ n, s.length ≤ n := ⟨_, Nat.le_refl _⟩
  induction n generalizing s with
  | zero =>
    obtain rfl := List.length_eq_zero_iff.mp (Nat.le_zero.mp hn)
    simp at ht
  | succ n ih =>
    have hcut := cut_pieces p s
    generalize pieces p s = ts at hcut ht
    cases hcut with
    | none hd => simp at ht
    | @last d u hd hu =>
      obtain rfl := List.mem_singleton.mp ht
      exact List.infix_append_of_infix_right (List.infix_refl _)
    | @more d u c r hd hu hc =>
      rcases List.mem_cons.mp ht with rfl | ht
      · exact ⟨d, c :: r, by simp⟩
      · have hlen : r.length ≤ n := by
          simp only [List.length_append, List.length_cons] at hn
          omega
        obtain ⟨x, y, hxy⟩ := ih ht hlen
        exact ⟨d ++ (u ++ c :: x), y, by simp [← hxy]⟩

/-- Two pieces and what stands between them. -/
theorem length_of_pieces {u : List α} (h : pieces p s = t :: u :: ts) : t.length + u.length < s.length := by
  have hcut := cut_pieces p s
  rw [h] at hcut
  generalize hpieces : u :: ts = us at hcut
  cases hcut with
  | last => cases hpieces
  | @more d _ c r hd ht hc =>
    have hu : u ∈ pieces p r := hpieces ▸ List.mem_cons_self
    have hle := (infix_of_mem_pieces hu).length_le
    simp only [List.length_append, List.length_cons]
    omega

/-! ## Up to the last delimiter -/

/-- The list up to its last delimiter. -/
def closed (p : α → Bool) (s : List α) : List α := s.rdropWhile fun c => !p c

theorem closed_prefix (p : α → Bool) (s : List α) : closed p s <+: s := List.rdropWhile_prefix _ s

/-- It ends with a delimiter. -/
theorem closed_eq (p : α → Bool) (s : List α) : closed p s = [] ∨ ∃ d c, closed p s = d ++ [c] ∧ p c = true := by
  refine (List.eq_nil_or_concat' (closed p s)).imp_right fun ⟨d, c, h⟩ => ⟨d, c, h, ?_⟩
  have hlast := List.rdropWhile_last_not (fun c => !p c) s
  rw [show s.rdropWhile (fun c => !p c) = d ++ [c] from h] at hlast
  simpa using hlast (by simp)

theorem closed_append_cons (hc : p c = true) (s r : List α) : closed p (s ++ c :: r) = s ++ c :: closed p r := by
  unfold closed List.rdropWhile
  rw [List.reverse_append, List.reverse_cons, List.append_assoc, List.dropWhile_append]
  split
  · rename_i h
    rw [List.isEmpty_iff.mp h]
    simp [hc]
  · simp

theorem closed_append (hd : ∀ c ∈ d, p c = true) (ht : ∀ c ∈ t, p c = false) : closed p (d ++ t) = d := by
  rcases List.eq_nil_or_concat' d with rfl | ⟨d, c, rfl⟩
  · exact List.rdropWhile_eq_nil_iff.mpr fun c hc => by simp [ht c hc]
  · have hnil : closed p t = [] := List.rdropWhile_eq_nil_iff.mpr fun c hc => by simp [ht c hc]
    rw [List.append_assoc, List.singleton_append, closed_append_cons (hd c (by simp)), hnil]

theorem closed_append_of_none (ht : ∀ c ∈ t, p c = false) (s : List α) : closed p (s ++ t) = closed p s := by
  unfold closed List.rdropWhile
  rw [List.reverse_append, List.dropWhile_append_of_pos]
  intro c hc
  rw [ht c (List.mem_reverse.mp hc)]
  rfl

/-- What comes behind a list does not change the pieces up to its last delimiter. -/
theorem pieces_append_closed (p : α → Bool) (s r : List α) : ∃ ts, pieces p (s ++ r) = pieces p (closed p s) ++ ts := by
  obtain ⟨u, hu⟩ := closed_prefix p s
  rcases closed_eq p s with hnil | ⟨d, c, hclosed, hc⟩
  · exact ⟨_, by rw [hnil, pieces_nil, List.nil_append]⟩
  · refine ⟨pieces p (u ++ r), ?_⟩
    have hend : pieces p (d ++ [c]) = pieces p d := by rw [pieces_append_delim hc, pieces_nil, List.append_nil]
    rw [hclosed] at hu ⊢
    rw [← hu, hend, List.append_assoc, List.append_assoc, List.singleton_append, pieces_append_delim hc]

/-- The same, up to the last delimiter of the whole. -/
theorem pieces_closed_append (p : α → Bool) (s r : List α) :
    ∃ ts, pieces p (closed p (s ++ r)) = pieces p (closed p s) ++ ts := by
  by_cases hr : ∀ c ∈ r, p c = false
  · exact ⟨[], by rw [closed_append_of_none hr, List.append_nil]⟩
  · simp only [not_forall, Bool.not_eq_false] at hr
    obtain ⟨c, hmem, hc⟩ := hr
    obtain ⟨u, v, rfl⟩ := List.append_of_mem hmem
    obtain ⟨ts, hts⟩ := pieces_append_closed p s (u ++ c :: closed p v)
    exact ⟨ts, by rw [← List.append_assoc, closed_append_cons hc, List.append_assoc, hts]⟩

end Cs326
