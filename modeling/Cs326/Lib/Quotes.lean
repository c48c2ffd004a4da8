import Cs326.Lib.Tokens

/-!
# Quoted sections

A quote opens a section of a list, and the next one like it closes the section; the other quotes in between count for
nothing. `marked q none s` is the list with each element marked whether it stands outside of all sections. Its pieces
between the delimiters outside are the words of the list (`quotedPieces`), each of which has its sections closed
(`Word`), so the words can be read off from the front as pieces are (`QuotedCut`, `quotedCut`).
-/

namespace Cs326

variable {α : Type*} [DecidableEq α] {p q : α → Bool} {o : Option α} {s t d r : List α} {c : α}

/-- The quote that is open behind `c`. -/
def quoteStep (q : α → Bool) : Option α → α → Option α
  | none, c => if q c then some c else none
  | some o, c => if c = o then none else some o

/-- The quote that is open behind the list. -/
def openQuote (q : α → Bool) (o : Option α) (s : List α) : Option α := s.foldl (quoteStep q) o

/-- Every section is closed. -/
def Balanced (q : α → Bool) (s : List α) : Prop := openQuote q none s = none

instance (q : α → Bool) (s : List α) : Decidable (Balanced q s) := inferInstanceAs (Decidable (_ = _))

/-- The elements, each with whether no quote is open in front of it. -/
def marked (q : α → Bool) : Option α → List α → List (α × Bool)
  | _, [] => []
  | o, c :: s => (c, o.isNone) :: marked q (quoteStep q o c) s

/-- A delimiter outside of quotes. -/
def bare (p : α → Bool) (x : α × Bool) : Bool := x.2 && p x.1

def quotedPieces (p q : α → Bool) (s : List α) : List (List α) :=
  (pieces (bare p) (marked q none s)).map fun t => t.map Prod.fst

/-- The words with the numbers of delimiters in front of them, counted as in `cuts`. -/
def quotedCuts (p q : α → Bool) (s : List α) : List (Nat × List α) :=
  (cuts (bare p) (marked q none s)).map fun e => (e.1, e.2.map Prod.fst)

/-- Non-empty, with closed sections and no delimiter outside of them. -/
structure Word (p q : α → Bool) (t : List α) : Prop where
  ne_nil : t ≠ []
  balanced : Balanced q t
  inside : ∀ x ∈ marked q none t, bare p x = false

/-! ## The marks -/

theorem openQuote_append (q : α → Bool) (o : Option α) (s t : List α) :
    openQuote q o (s ++ t) = openQuote q (openQuote q o s) t :=
  List.foldl_append

theorem Balanced.append_iff (hs : Balanced q s) : Balanced q (s ++ t) ↔ Balanced q t := by
  rw [Balanced, openQuote_append, hs]
  rfl

@[simp] theorem map_fst_marked (q : α → Bool) (o : Option α) (s : List α) : (marked q o s).map Prod.fst = s := by
  induction s generalizing o with
  | nil => rfl
  | cons c s ih => rw [marked, List.map_cons, ih]

theorem marked_append (q : α → Bool) (o : Option α) (s t : List α) :
    marked q o (s ++ t) = marked q o s ++ marked q (openQuote q o s) t := by
  induction s generalizing o with
  | nil => rfl
  | cons c s ih =>
    rw [List.cons_append, marked, ih]
    rfl

/-- A part of the marked list is a part of the list, marked. -/
theorem marked_split {A B : List (α × Bool)} (h : marked q o s = A ++ B) :
    s = A.map Prod.fst ++ B.map Prod.fst ∧ A = marked q o (A.map Prod.fst) ∧
      B = marked q (openQuote q o (A.map Prod.fst)) (B.map Prod.fst) := by
  have hs : s = A.map Prod.fst ++ B.map Prod.fst := by rw [← List.map_append, ← h, map_fst_marked]
  refine ⟨hs, ?_⟩
  rw [hs, marked_append] at h
  have hlen : (marked q o (A.map Prod.fst)).length = A.length := by
    have hmap := congrArg List.length (map_fst_marked q o (A.map Prod.fst))
    rwa [List.length_map, List.length_map] at hmap
  obtain ⟨hA, hB⟩ := List.append_inj h hlen
  exact ⟨hA.symm, hB.symm⟩

/-- Without quotes there is no section. -/
theorem balanced_of_plain (h : ∀ c ∈ s, q c = false) : Balanced q s := by
  induction s with
  | nil => rfl
  | cons c s ih =>
    rw [List.forall_mem_cons] at h
    rw [Balanced, openQuote, List.foldl_cons, quoteStep, h.1]
    exact ih h.2

theorem mem_marked_of_plain (h : ∀ c ∈ s, q c = false) (hc : c ∈ s) : (c, true) ∈ marked q none s := by
  obtain ⟨u, v, rfl⟩ := List.append_of_mem hc
  have hu : Balanced q u := balanced_of_plain fun b hb => h b (List.mem_append_left _ hb)
  rw [marked_append, show openQuote q none u = none from hu]
  exact List.mem_append_right _ List.mem_cons_self

/-- Behind an open quote the section goes on to the next one like it. -/
theorem openQuote_some (q : α → Bool) (c : α) (s : List α) :
    openQuote q (some c) s = some c ∧ c ∉ s ∨
    ∃ y z, s = y ++ c :: z ∧ c ∉ y ∧ openQuote q (some c) s = openQuote q none z := by
  induction s with
  | nil => exact .inl ⟨rfl, List.not_mem_nil⟩
  | cons b s ih =>
    have hstep : openQuote q (some c) (b :: s) = openQuote q (if b = c then none else some c) s := rfl
    by_cases hb : b = c
    · subst hb
      rw [if_pos rfl] at hstep
      exact .inr ⟨[], s, rfl, List.not_mem_nil, hstep⟩
    · rw [if_neg hb] at hstep
      rw [hstep]
      rcases ih with ⟨hopen, hmem⟩ | ⟨y, z, rfl, hy, hz⟩
      · exact .inl ⟨hopen, List.not_mem_cons_of_ne_of_not_mem (Ne.symm hb) hmem⟩
      · exact .inr ⟨b :: y, z, rfl, List.not_mem_cons_of_ne_of_not_mem (Ne.symm hb) hy, hz⟩

/-- **The first section** of a list with quotes. -/
theorem Balanced.exists_section (hs : Balanced q s) (hc : ∃ c ∈ s, q c = true) : ∃ x o y z,
    s = x ++ o :: (y ++ o :: z) ∧ (∀ c ∈ x, q c = false) ∧ q o = true ∧ o ∉ y ∧ Balanced q z := by
  induction s with
  | nil => simp at hc
  | cons b s ih =>
    have hstep : openQuote q none (b :: s) = openQuote q (if q b then some b else none) s := rfl
    by_cases hb : q b = true
    · rw [if_pos hb] at hstep
      rcases openQuote_some q b s with ⟨hopen, _⟩ | ⟨y, z, rfl, hy, hz⟩
      · cases (hopen.symm.trans hstep.symm).trans hs
      · exact ⟨[], b, y, z, rfl, by simp, hb, hy, (hz.symm.trans hstep.symm).trans hs⟩
    · rw [if_neg hb] at hstep
      have hrest : ∃ c ∈ s, q c = true := by
        obtain ⟨c, hmem, hc⟩ := hc
        rcases List.mem_cons.mp hmem with rfl | hmem
        · exact absurd hc hb
        · exact ⟨c, hmem, hc⟩
      obtain ⟨x, o, y, z, rfl, hx, h⟩ := ih (hstep.symm.trans hs) hrest
      exact ⟨b :: x, o, y, z, rfl, List.forall_mem_cons.mpr ⟨by simpa using hb, hx⟩, h⟩

/-! ## Words -/

/-- In front of its first quote a word has no delimiter. -/
theorem Word.plain_prefix {x : List α} (hw : Word p q (x ++ t)) (hx : ∀ c ∈ x, q c = false) :
    ∀ c ∈ x, p c = false := by
  intro c hc
  have hmem : (c, true) ∈ marked q none (x ++ t) := by
    rw [marked_append]
    exact List.mem_append_left _ (mem_marked_of_plain hx hc)
  simpa [bare] using hw.inside _ hmem

/-- A word begins with no delimiter. -/
theorem Word.head?_append (hw : Word p q t) (r : List α) : ∀ c ∈ (t ++ r).head?, p c = false := by
  obtain ⟨b, u, rfl⟩ := List.exists_cons_of_ne_nil hw.ne_nil
  simpa [bare] using hw.inside (b, true) List.mem_cons_self

/-- How a list starts, with its words and the numbers of delimiters in front of them. -/
inductive QuotedCut (p q : α → Bool) : List α → List (List α) → List (Nat × List α) → Prop
  | none {d : List α} : (∀ c ∈ d, p c = true) → QuotedCut p q d [] []
  | last {d t : List α} : (∀ c ∈ d, p c = true) → Word p q t → QuotedCut p q (d ++ t) [t] [(d.length, t)]
  | more {d t : List α} {c : α} {r : List α} : (∀ c ∈ d, p c = true) → Word p q t → p c = true → Balanced q r →
      QuotedCut p q (d ++ (t ++ c :: r)) (t :: quotedPieces p q r) ((d.length, t) :: quotedCuts p q r)

omit [DecidableEq α] in
theorem delims_of_bare {D : List (α × Bool)} (h : ∀ x ∈ D, bare p x = true) :
    ∀ c ∈ D.map Prod.fst, p c = true := by
  intro c hc
  obtain ⟨x, hx, rfl⟩ := List.mem_map.mp hc
  exact (Bool.and_eq_true_iff.mp (h x hx)).2

/-- **Every list with closed sections is cut into its words.** -/
theorem quotedCut (hpq : ∀ c, p c = true → q c = false) (hs : Balanced q s) :
    QuotedCut p q s (quotedPieces p q s) (quotedCuts p q s) := by
  have hcut := cut_pieces (bare p) (marked q none s)
  unfold quotedPieces quotedCuts
  generalize hM : marked q none s = M at hcut ⊢
  generalize pieces (bare p) M = ts at hcut ⊢
  -- a piece of the marked list is a word, marked
  have hword : ∀ {T : List (α × Bool)}, Piece (bare p) T → Balanced q (T.map Prod.fst) →
      T = marked q none (T.map Prod.fst) → Word p q (T.map Prod.fst) :=
    fun hT hbal heq => ⟨by simpa using hT.1, hbal, heq ▸ hT.2⟩
  cases hcut with
  | none hD =>
    obtain rfl : s = M.map Prod.fst := by rw [← hM, map_fst_marked]
    rw [cuts_delims hD]
    exact .none (delims_of_bare hD)
  | @last D T hD hT =>
    obtain ⟨rfl, _, heq⟩ := marked_split hM
    have hd := delims_of_bare hD
    have hbal : Balanced q (D.map Prod.fst) := balanced_of_plain fun c hc => hpq c (hd c hc)
    rw [show openQuote q none (D.map Prod.fst) = none from hbal] at heq
    rw [hT.cuts_end hD]
    simpa using QuotedCut.last hd (hword hT (hbal.append_iff.mp hs) heq)
  | @more D T C R hD hT hC =>
    obtain ⟨rfl, _, heq⟩ := marked_split hM
    have hd := delims_of_bare hD
    have hbal : Balanced q (D.map Prod.fst) := balanced_of_plain fun c hc => hpq c (hd c hc)
    rw [show openQuote q none (D.map Prod.fst) = none from hbal] at heq
    obtain ⟨_, heqT, heqR⟩ := marked_split heq.symm
    obtain ⟨hout, hc⟩ := Bool.and_eq_true_iff.mp hC
    rw [List.map_cons, marked, List.cons.injEq] at heqR
    -- no quote is open in front of a delimiter outside
    have hbalT : Balanced q (T.map Prod.fst) := by
      rw [heqR.1] at hout
      exact Option.isNone_iff_eq_none.mp hout
    have hstep : quoteStep q (openQuote q none (T.map Prod.fst)) C.1 = none := by
      rw [show openQuote q none (T.map Prod.fst) = none from hbalT, quoteStep, hpq _ hc]
      rfl
    rw [hstep] at heqR
    have hbalR : Balanced q (R.map Prod.fst) := by
      have hall := hbal.append_iff.mp hs
      rw [List.map_append, hbalT.append_iff, List.map_cons, Balanced, openQuote, List.foldl_cons, quoteStep,
        hpq _ hc] at hall
      exact hall
    rw [hT.cuts_cons hD hC, heqR.2]
    simpa [quotedPieces, quotedCuts] using QuotedCut.more hd (hword hT hbalT heqT) hc hbalR

end Cs326
