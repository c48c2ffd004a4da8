import Mathlib.Data.List.Basic
import Mathlib.Data.List.Infix
import Mathlib.Logic.Function.Basic
import Mathlib.Order.Basic

/-!
# Networks of sequential programs

Programs that read one stream and write one, each of them deterministic: what it does next depends on what it has read
and written. In a network each program reads what another one writes, or a stream from outside, and learns of the end of
a stream only when its writer has ended (`Enabled`, `Consistent.step`). However the steps of two runs are interleaved,
what a program has done in one of them is the front of what it has done in the other (`Consistent.comparable`), and if
it has ended in both, the same (`Consistent.eq_of_ended`).
-/

namespace Cs326.Dataflow

/-- What a program has done. -/
inductive Op (β : Type*)
  /-- It has read an element, or the end of the stream. -/
  | got (b : Option β)
  | put (b : β)
  deriving DecidableEq

/-- What a program does next. -/
inductive Action (β : Type*)
  | read
  | put (b : β)
  | exit
  deriving DecidableEq

/-- What a program does, by what it has done. -/
abbrev Program (β : Type*) := List (Op β) → Action β

variable {β ι : Type*} {p : Program β} {log log' : List (Op β)} {o o' : Op β} {b : β}

/-- What it has written. -/
def puts (log : List (Op β)) : List β := log.filterMap fun o => match o with
  | .put b => some b
  | .got _ => none

/-- What it has read. -/
def gots (log : List (Op β)) : List β := log.filterMap fun o => match o with
  | .put _ => none
  | .got b => b

/-- The program does so next. -/
def Does (a : Action β) (o : Op β) : Prop :=
  match o with
  | .got _ => a = .read
  | .put b => a = .put b

/-- The program can have done so. -/
inductive Follows (p : Program β) : List (Op β) → Prop
  | nil : Follows p []
  | snoc {log : List (Op β)} {o : Op β} : Follows p log → Does (p log) o → Follows p (log ++ [o])

@[simp] theorem puts_append (l l' : List (Op β)) : puts (l ++ l') = puts l ++ puts l' := List.filterMap_append

@[simp] theorem gots_append (l l' : List (Op β)) : gots (l ++ l') = gots l ++ gots l' := List.filterMap_append

@[simp] theorem puts_put (b : β) : puts [.put b] = [b] := rfl

@[simp] theorem puts_got (b : Option β) : puts [.got b] = [] := rfl

@[simp] theorem gots_put (b : β) : gots [.put b] = [] := rfl

@[simp] theorem gots_got_some (b : β) : gots [.got (some b)] = [b] := rfl

@[simp] theorem gots_got_none : gots [(.got none : Op β)] = [] := rfl

theorem puts_prefix (h : log <+: log') : puts log <+: puts log' := by
  obtain ⟨r, rfl⟩ := h
  rw [puts_append]
  exact List.prefix_append _ _

/-- What a program does at some place is what it does next there. -/
theorem Follows.does {r : List (Op β)} (h : Follows p (log ++ o :: r)) : Does (p log) o := by
  generalize hl : log ++ o :: r = l at h
  induction h generalizing r with
  | nil => simp at hl
  | @snoc l o' hl' hdoes ih =>
    rcases List.eq_nil_or_concat r with rfl | ⟨r', x, rfl⟩
    · obtain ⟨rfl, he⟩ := List.append_inj' hl rfl
      obtain rfl := List.singleton_inj.mp he
      exact hdoes
    · rw [List.concat_eq_append, ← List.cons_append, ← List.append_assoc] at hl
      exact ih (List.append_inj' hl rfl).1

/-- A program that has ended does nothing more. -/
theorem Follows.eq_of_exit (h : Follows p log') (hle : log <+: log') (hexit : p log = .exit) : log' = log := by
  obtain ⟨r, rfl⟩ := hle
  cases r with
  | nil => exact List.append_nil log
  | cons o r =>
    have hdoes := h.does
    rw [hexit] at hdoes
    cases o <;> cases hdoes

/-- Two lists of which none is the front of the other differ somewhere. -/
theorem exists_first_difference {α : Type*} {l l' : List α} (h : ¬l <+: l') (h' : ¬l' <+: l) :
    ∃ s x y r r', x ≠ y ∧ l = s ++ x :: r ∧ l' = s ++ y :: r' := by
  induction l generalizing l' with
  | nil => exact absurd List.nil_prefix h
  | cons x l ih =>
    cases l' with
    | nil => exact absurd List.nil_prefix h'
    | cons y l' =>
      by_cases hxy : x = y
      · subst hxy
        rw [List.cons_prefix_cons] at h h'
        obtain ⟨s, x', y', r, r', hne, rfl, rfl⟩ := ih (fun hp => h ⟨rfl, hp⟩) fun hp => h' ⟨rfl, hp⟩
        exact ⟨x :: s, x', y', r, r', hne, rfl, rfl⟩
      · exact ⟨[], x, y, l, l', hxy, rfl, rfl⟩

theorem getElem?_of_isPrefix {α : Type*} {l l' : List α} {k : Nat} {x : α} (h : l <+: l') (hx : l[k]? = some x) :
    l'[k]? = some x := by
  obtain ⟨r, rfl⟩ := h
  rw [List.getElem?_append_left (List.getElem?_eq_some_iff.mp hx).1, hx]

/-! ## Networks -/

section

variable (prog : ι → Program β) (source : ι → Option ι) (input : ι → List β)

/-- The stream that a program reads from, as far as it is written. -/
def stream (logs : ι → List (Op β)) (i : ι) : List β :=
  match source i with
  | none => input i
  | some j => puts (logs j)

/-- Nothing more is written to the stream. -/
def Closed (logs : ι → List (Op β)) (i : ι) : Prop := ∀ j, source i = some j → prog j (logs j) = .exit

/-- What the programs have done fits together. -/
structure Consistent (logs : ι → List (Op β)) : Prop where
  follows : ∀ i, Follows (prog i) (logs i)
  /-- A program reads its stream from the front. -/
  reads : ∀ i l b r, logs i = l ++ .got (some b) :: r → (stream source input logs i)[(gots l).length]? = some b
  /-- It learns of the end when there is nothing more to come. -/
  ends : ∀ i l r, logs i = l ++ .got none :: r →
    Closed prog source logs i ∧ (stream source input logs i).length ≤ (gots l).length

/-- What a program can do next in the network. -/
structure Enabled (logs : ι → List (Op β)) (i : ι) (o : Op β) : Prop where
  does : Does (prog i (logs i)) o
  reads : ∀ b, o = .got (some b) → (stream source input logs i)[(gots (logs i)).length]? = some b
  ends : o = .got none →
    Closed prog source logs i ∧ (stream source input logs i).length ≤ (gots (logs i)).length

end

variable {prog : ι → Program β} {source : ι → Option ι} {input : ι → List β} {logs logs' : ι → List (Op β)} {i : ι}

theorem consistent_nil : Consistent prog source input fun _ => [] where
  follows _ := .nil
  reads i l b r h := by simp at h
  ends i l r h := by simp at h

section

variable [DecidableEq ι]

/-- A step adds to the streams. -/
theorem stream_update (logs : ι → List (Op β)) (i k : ι) (o : Op β) :
    stream source input logs k <+: stream source input (Function.update logs i (logs i ++ [o])) k := by
  unfold stream
  cases source k with
  | none => exact List.prefix_refl _
  | some j =>
    dsimp only
    by_cases hj : j = i
    · subst hj
      rw [Function.update_self]
      exact puts_prefix (List.prefix_append _ _)
    · rw [Function.update_of_ne hj]

/-- A step leaves a stream that has come to its end. -/
theorem Closed.update {k : ι} (input : ι → List β) (hclosed : Closed prog source logs k)
    (hdoes : Does (prog i (logs i)) o) :
    Closed prog source (Function.update logs i (logs i ++ [o])) k ∧
      stream source input (Function.update logs i (logs i ++ [o])) k = stream source input logs k := by
  have hne : ∀ j, source k = some j → j ≠ i := by
    rintro j hj rfl
    rw [hclosed j hj] at hdoes
    cases o <;> cases hdoes
  constructor
  · intro j hj
    rw [Function.update_of_ne (hne j hj)]
    exact hclosed j hj
  · unfold stream
    cases hs : source k with
    | none => rfl
    | some j =>
      dsimp only
      rw [Function.update_of_ne (hne j hs)]

/-- **Every step keeps a network consistent.** -/
theorem Consistent.step (h : Consistent prog source input logs) (he : Enabled prog source input logs i o) :
    Consistent prog source input (Function.update logs i (logs i ++ [o])) := by
  -- what a program has done it had done before, but for the step itself
  have hold : ∀ {k l x r}, Function.update logs i (logs i ++ [o]) k = l ++ x :: r →
      (∃ r', logs k = l ++ x :: r') ∨ k = i ∧ l = logs i ∧ x = o := by
    intro k l x r hk
    by_cases hki : k = i
    · subst hki
      rw [Function.update_self] at hk
      rcases List.eq_nil_or_concat r with rfl | ⟨r', y, rfl⟩
      · obtain ⟨hl, hx⟩ := List.append_inj' hk rfl
        exact .inr ⟨rfl, hl.symm, (List.singleton_inj.mp hx).symm⟩
      · rw [List.concat_eq_append, ← List.cons_append, ← List.append_assoc] at hk
        exact .inl ⟨r', (List.append_inj' hk rfl).1⟩
    · rw [Function.update_of_ne hki] at hk
      exact .inl ⟨r, hk⟩
  refine ⟨fun k => ?_, fun k l b r hk => ?_, fun k l r hk => ?_⟩
  · by_cases hki : k = i
    · subst hki
      rw [Function.update_self]
      exact (h.follows k).snoc he.does
    · rw [Function.update_of_ne hki]
      exact h.follows k
  · refine getElem?_of_isPrefix (stream_update logs i k o) ?_
    rcases hold hk with ⟨r', hk⟩ | ⟨rfl, rfl, ho⟩
    · exact h.reads k l b r' hk
    · exact he.reads b ho.symm
  · rcases hold hk with ⟨r', hk⟩ | ⟨rfl, rfl, ho⟩
    · obtain ⟨hclosed, hlen⟩ := h.ends k l r' hk
      obtain ⟨hclosed', hstream⟩ := hclosed.update input he.does
      exact ⟨hclosed', hstream ▸ hlen⟩
    · obtain ⟨hclosed, hlen⟩ := he.ends ho.symm
      obtain ⟨hclosed', hstream⟩ := hclosed.update input he.does
      exact ⟨hclosed', hstream ▸ hlen⟩

end

/-- Streams that are written by the same program, each as far as it has come. -/
theorem stream_comparable (h : ∀ j, source i = some j → logs j <+: logs' j ∨ logs' j <+: logs j) :
    stream source input logs i <+: stream source input logs' i ∨
      stream source input logs' i <+: stream source input logs i := by
  unfold stream
  cases hs : source i with
  | none => exact .inl (List.prefix_refl _)
  | some j => exact (h j hs).imp puts_prefix puts_prefix

/-- A stream that has come to its end is not longer in another run. -/
theorem Closed.stream_prefix (hclosed : Closed prog source logs i) (h' : Consistent prog source input logs')
    (h : ∀ j, source i = some j → logs j <+: logs' j ∨ logs' j <+: logs j) :
    stream source input logs' i <+: stream source input logs i := by
  unfold stream
  cases hs : source i with
  | none => exact List.prefix_refl _
  | some j =>
    dsimp only
    rcases h j hs with hle | hle
    · rw [(h'.follows j).eq_of_exit hle (hclosed j hs)]
    · exact puts_prefix hle

/-- **At the same place a program does the same.** -/
theorem Consistent.same (h : Consistent prog source input logs) (h' : Consistent prog source input logs')
    (hsource : ∀ j, source i = some j → logs j <+: logs' j ∨ logs' j <+: logs j) {l r r' : List (Op β)}
    (hl : logs i = l ++ o :: r) (hl' : logs' i = l ++ o' :: r') : o = o' := by
  have hdoes := (hl ▸ h.follows i).does
  have hdoes' := (hl' ▸ h'.follows i).does
  cases o with
  | put b =>
    cases o' with
    | put b' => exact congrArg Op.put (Action.put.inj (Eq.trans (Eq.symm hdoes) hdoes'))
    | got b' => cases Eq.trans (Eq.symm hdoes) hdoes'
  | got b =>
    cases o' with
    | put b' => cases Eq.trans (Eq.symm hdoes) hdoes'
    | got b' =>
      cases b with
      | some b =>
        have hread := h.reads i l b r hl
        cases b' with
        | some b' =>
          have hread' := h'.reads i l b' r' hl'
          rcases stream_comparable hsource with hle | hle
          · rw [Option.some.inj ((getElem?_of_isPrefix hle hread).symm.trans hread')]
          · rw [Option.some.inj (hread.symm.trans (getElem?_of_isPrefix hle hread'))]
        | none =>
          obtain ⟨hclosed, hlen⟩ := h'.ends i l r' hl'
          have hle := (hclosed.stream_prefix h fun j hj => (hsource j hj).symm).length_le
          have hlt := (List.getElem?_eq_some_iff.mp hread).1
          omega
      | none =>
        cases b' with
        | none => rfl
        | some b' =>
          obtain ⟨hclosed, hlen⟩ := h.ends i l r hl
          have hle := (hclosed.stream_prefix h' hsource).length_le
          have hlt := (List.getElem?_eq_some_iff.mp (h'.reads i l b' r' hl')).1
          omega

/-- **What a program does is determined**: of two runs, one has brought it further than the other on the same way. -/
theorem Consistent.comparable (h : Consistent prog source input logs) (h' : Consistent prog source input logs')
    (rank : ι → Nat) (hrank : ∀ i j, source i = some j → rank j < rank i) (i : ι) :
    logs i <+: logs' i ∨ logs' i <+: logs i := by
  induction hn : rank i using Nat.strong_induction_on generalizing i with
  | _ n ih =>
    subst hn
    have hsource : ∀ j, source i = some j → logs j <+: logs' j ∨ logs' j <+: logs j :=
      fun j hj => ih (rank j) (hrank i j hj) j rfl
    by_contra hne
    rw [not_or] at hne
    obtain ⟨l, o, o', r, r', hoo, hl, hl'⟩ := exists_first_difference hne.1 hne.2
    exact hoo (h.same h' hsource hl hl')

/-- A program that has ended in both runs has done the same in them. -/
theorem Consistent.eq_of_ended (h : Consistent prog source input logs) (h' : Consistent prog source input logs')
    (rank : ι → Nat) (hrank : ∀ i j, source i = some j → rank j < rank i) (hexit : prog i (logs i) = .exit)
    (hexit' : prog i (logs' i) = .exit) : logs i = logs' i := by
  rcases h.comparable h' rank hrank i with hle | hle
  · exact ((h'.follows i).eq_of_exit hle hexit).symm
  · exact (h.follows i).eq_of_exit hle hexit'

end Cs326.Dataflow
