import Cs326.Scheduler.Entries

/-!
# Comments

A file with a comment in one of its lines against the file without it. The line is cut into chunks before the comment is
looked for, so what the chunk of the `#` has no room for is read like any other text (`entries_text`). The two files
make the same table if and only if there is no entry in that text (`comment_ignored_iff`).
-/

namespace Cs326.Scheduler

open CharArray Text

/-- A file, and the comment of one of its lines. -/
structure Commented where
  /-- The lines in front of it. -/
  front : List UInt8
  body : List UInt8
  /-- What is between `#` and the end of the line. -/
  comment : List UInt8
  nl : List UInt8
  back : List UInt8
  front_lines : ∀ b ∈ front.getLast?, b = 10
  body_line : 10 ∉ body
  body_plain : 35 ∉ body
  comment_line : 10 ∉ comment
  line_end : nl = [10] ∨ nl = [] ∧ back = []

namespace Commented

variable (c : Commented)

def text : List UInt8 := c.front ++ (c.body ++ (35 :: c.comment ++ (c.nl ++ c.back)))

/-- Without the comment. -/
def stripped : List UInt8 := c.front ++ (c.body ++ (c.nl ++ c.back))

/-- What is behind the chunk of the `#`. -/
def leftover : List UInt8 := (35 :: c.comment ++ c.nl).drop (1023 - c.body.length % 1023)

/-- The table does not depend on the comment. -/
def Ignored (s : SchedulerState) : Prop :=
  (read_spec (some c.text) s).toOption = (read_spec (some c.stripped) s).toOption

end Commented

variable {c : Commented} {s : SchedulerState} {front body r nl back rest text : List UInt8}
  {es es₁ es₂ mid : List (List (List UInt8))}

/-! ## The entries of the two files -/

theorem entries_append (hfront : ∀ b ∈ front.getLast?, b = 10) (rest : List UInt8) :
    entries (front ++ rest) = entries front ++ entries rest := by
  unfold entries
  rw [chunks_append hfront, List.filterMap_append]

@[simp] theorem entries_nil : entries [] = [] := by
  rw [entries, chunks_nil]
  rfl

/-- What is in front of the last chunk of a line. -/
theorem exists_chunk (h10 : 10 ∉ body) : ∃ es r, r <:+ body ∧ r.length = body.length % 1023 ∧
    ∀ rest, entries (body ++ rest) = es ++ entries (r ++ rest) := by
  obtain ⟨n, hn⟩ : ∃ n, body.length ≤ n := ⟨_, Nat.le_refl _⟩
  induction n generalizing body with
  | zero =>
    obtain rfl := List.length_eq_zero_iff.mp (Nat.le_zero.mp hn)
    exact ⟨[], [], List.suffix_refl _, rfl, fun _ => rfl⟩
  | succ n ih =>
    rcases Nat.lt_or_ge body.length 1023 with hlt | hle
    · exact ⟨[], body, List.suffix_refl _, (Nat.mod_eq_of_lt hlt).symm, fun _ => rfl⟩
    · obtain ⟨full, body, rfl, hfull⟩ : ∃ full body', body = full ++ body' ∧ full.length = 1023 :=
        ⟨body.take 1023, body.drop 1023, (List.take_append_drop _ _).symm, by rw [List.length_take]; omega⟩
      rw [List.length_append] at hn
      obtain ⟨es, r, hsuffix, hlen, hentries⟩ := ih (fun h => h10 (List.mem_append_right _ h)) (by omega)
      have hfull10 : 10 ∉ full := fun h => h10 (List.mem_append_left _ h)
      refine ⟨(entryOf full).toList ++ es, r, hsuffix.trans (List.suffix_append _ _), ?_, fun rest => ?_⟩
      · rw [hlen, List.length_append, hfull, Nat.add_mod_left]
      · have hchunk : entries (full ++ (body ++ rest)) = (entryOf full).toList ++ entries (body ++ rest) := by
          unfold entries
          rw [chunks_full hfull10 hfull, List.filterMap_cons]
          cases entryOf full <;> rfl
        rw [List.append_assoc, hchunk, hentries, List.append_assoc]

/-- A chunk with a `#` is the entry in front of it. -/
theorem entryOf_comment (hr : 35 ∉ r) (hnl : nl = [10] ∨ nl = []) (rest : List UInt8) :
    entryOf (r ++ 35 :: rest) = entryOf (r ++ nl) := by
  by_cases h0 : 0 ∈ r
  · -- the zero comes first
    obtain ⟨u, v, rfl, hu⟩ := List.eq_append_cons_of_mem h0
    have hstop : ∀ w, uncommented (u ++ 0 :: v ++ w) = u := by
      intro w
      have hall : ∀ b ∈ u, (b != 0 && b != 35) = true := by
        intro b hb
        have hb0 : b ≠ 0 := fun e => hu (e ▸ hb)
        have hb35 : b ≠ 35 := fun e => hr (e ▸ List.mem_append_left _ hb)
        simp [hb0, hb35]
      rw [List.append_assoc]
      exact takeWhile_stop hall (by simp)
    unfold entryOf
    rw [hstop, hstop]
  · have hall : ∀ b ∈ r, (b != 0 && b != 35) = true := by
      intro b hb
      have hb0 : b ≠ 0 := fun e => h0 (e ▸ hb)
      have hb35 : b ≠ 35 := fun e => hr (e ▸ hb)
      simp [hb0, hb35]
    have hstop : uncommented (r ++ 35 :: rest) = r := takeWhile_stop hall (by simp)
    have hline : uncommented (r ++ nl) = r ++ nl := by
      refine List.takeWhile_eq_self_iff.mpr (List.forall_mem_append.mpr ⟨hall, ?_⟩)
      rcases hnl with rfl | rfl
      · exact List.forall_mem_singleton.mpr rfl
      · simp
    unfold entryOf
    rw [hstop, hline]
    rcases hnl with rfl | rfl
    · have htokens : tokens field_delimiters (r ++ [10]) = tokens field_delimiters r := by
        unfold tokens
        rw [pieces_append_delim rfl, pieces_nil, List.append_nil]
      rw [htokens, List.count_append]
      rfl
    · rw [List.append_nil]

/-- The last chunk of the line without the comment. -/
theorem entries_line (h10 : 10 ∉ r) (hr : r.length < 1023) (hend : nl = [10] ∨ nl = [] ∧ back = []) :
    entries (r ++ (nl ++ back)) = (entryOf (r ++ nl)).toList ++ entries back := by
  rcases hend with rfl | ⟨rfl, rfl⟩
  · unfold entries
    rw [List.singleton_append, chunks_newline h10 (by omega), List.filterMap_cons]
    cases entryOf (r ++ [10]) <;> rfl
  · rw [List.append_nil, List.append_nil, entries_nil, List.append_nil]
    by_cases hnil : r = []
    · rw [hnil, entries_nil]
      rfl
    · unfold entries
      rw [chunks_last h10 (by omega) hnil, List.filterMap_cons]
      cases entryOf r <;> rfl

/-- The chunks of a line behind the first. -/
theorem entries_of_isLine (h : IsLine text rest) :
    entries (text ++ rest) = (entryOf (text.take 1023)).toList ++ (entries (text.drop 1023) ++ entries rest) := by
  have hdrop : (text ++ rest).drop (text.take 1023).length = text.drop 1023 ++ rest := by
    rw [List.length_take]
    rcases Nat.le_total 1023 text.length with hle | hle
    · rw [Nat.min_eq_left hle, List.drop_append_of_le_length hle]
    · rw [Nat.min_eq_right hle, List.drop_left, List.drop_of_length_le hle, List.nil_append]
  have hne : text ++ rest ≠ [] := fun hnil => h.ne_nil (List.append_eq_nil_iff.mp hnil).1
  rw [entries_of_ne_nil hne, h.lineOf_take, hdrop]
  apply congrArg _
  cases h with
  | @newline line _ _ =>
    apply entries_append
    intro b hb
    rw [Option.mem_def, List.getLast?_drop, List.getLast?_concat] at hb
    split_ifs at hb
    exact (Option.some.inj hb).symm
  | last _ _ => rw [List.append_nil, entries_nil, List.append_nil]

/-- The chunks of the line from the one with the `#` on. -/
theorem entries_comment {comment : List UInt8} (h10 : 10 ∉ r) (h35 : 35 ∉ r) (hr : r.length < 1023)
    (hcomment : 10 ∉ comment) (hend : nl = [10] ∨ nl = [] ∧ back = []) :
    entries (r ++ (35 :: comment ++ (nl ++ back))) = (entryOf (r ++ nl)).toList ++
      (entries ((35 :: comment ++ nl).drop (1023 - r.length)) ++ entries back) := by
  have hline : IsLine (r ++ (35 :: comment ++ nl)) back := by
    have h10 : 10 ∉ r ++ 35 :: comment := by
      rw [List.mem_append, List.mem_cons]
      rintro (h | h | h)
      · exact h10 h
      · cases h
      · exact hcomment h
    rcases hend with rfl | ⟨rfl, rfl⟩
    · rw [← List.append_assoc]
      exact .newline h10
    · rw [List.append_nil]
      exact .last h10 (by simp)
  have hchunk : (r ++ (35 :: comment ++ nl)).take 1023 = r ++ 35 :: (comment ++ nl).take (1022 - r.length) := by
    rw [List.take_append, List.take_of_length_le (Nat.le_of_lt hr), List.cons_append,
      show 1023 - r.length = (1022 - r.length) + 1 by omega, List.take_succ_cons]
  have hdrop : (r ++ (35 :: comment ++ nl)).drop 1023 = (35 :: comment ++ nl).drop (1023 - r.length) := by
    rw [List.drop_append, List.drop_of_length_le (Nat.le_of_lt hr), List.nil_append]
  have hassoc : r ++ (35 :: comment ++ (nl ++ back)) = r ++ (35 :: comment ++ nl) ++ back := by simp
  rw [hassoc, entries_of_isLine hline, hchunk, hdrop, entryOf_comment h35 (hend.imp_right And.left)]

/-- **The entries of the two files.** -/
theorem entries_text (c : Commented) : ∃ es es', entries c.text = es ++ (entries c.leftover ++ es') ∧
    entries c.stripped = es ++ es' := by
  obtain ⟨es, r, hsuffix, hr, hentries⟩ := exists_chunk c.body_line
  have h10 : 10 ∉ r := fun h => c.body_line (hsuffix.subset h)
  have h35 : 35 ∉ r := fun h => c.body_plain (hsuffix.subset h)
  have hlt : r.length < 1023 := by
    rw [hr]
    exact Nat.mod_lt _ (by decide)
  refine ⟨entries c.front ++ (es ++ (entryOf (r ++ c.nl)).toList), entries c.back, ?_, ?_⟩
  · unfold Commented.text Commented.leftover
    rw [entries_append c.front_lines, hentries, entries_comment h10 h35 hlt c.comment_line c.line_end, hr]
    simp
  · unfold Commented.stripped
    rw [entries_append c.front_lines, hentries, entries_line h10 hlt c.line_end]
    simp

/-! ## Their tables -/

/-- Entries in the middle change the table. -/
theorem foldlM_middle : (es₁ ++ (mid ++ es₂)).foldlM load_entry s = (es₁ ++ es₂).foldlM load_entry s ↔
    mid = [] ∨ ¬Loadable s (es₁ ++ es₂) := by
  constructor
  · intro h
    refine or_iff_not_imp_right.mpr fun hload => ?_
    obtain ⟨s', hs'⟩ := exists_foldlM (not_not.mp hload)
    have hnum := (loadable_of_foldlM hs').2
    rw [hs'] at h
    have hnum' := (loadable_of_foldlM h).2
    simp only [List.length_append] at hnum hnum'
    exact List.length_eq_zero_iff.mp (by omega)
  · rintro (rfl | hload)
    · rfl
    · -- the file with more entries cannot be read either
      have hnone : ∀ {es}, ¬Loadable s es → es.foldlM load_entry s = none := by
        intro es hes
        cases hres : es.foldlM load_entry s with
        | none => rfl
        | some s' => exact absurd (loadable_of_foldlM hres).1 hes
      rw [hnone hload, hnone]
      rintro ⟨hall, hlen⟩
      refine hload ⟨fun ts hts => hall ts ?_, ?_⟩
      · rcases List.mem_append.mp hts with hts | hts
        · exact List.mem_append_left _ hts
        · exact List.mem_append_right _ (List.mem_append_right _ hts)
      · simp only [List.length_append] at hlen ⊢
        omega

/-- **A comment is ignored** if and only if there is no entry in what its line has no room for, or the file cannot be
read without it. -/
theorem comment_ignored_iff (c : Commented) (s : SchedulerState) :
    c.Ignored s ↔ entries c.leftover = [] ∨ ¬Loadable s (entries c.stripped) := by
  obtain ⟨es, es', htext, hstripped⟩ := entries_text c
  unfold Commented.Ignored
  rw [read_spec_entries, read_spec_entries, htext, hstripped]
  exact foldlM_middle

/-- `#`, 1022 more bytes, and `a,1,1,1`. -/
def long_comment : Commented where
  front := []
  body := []
  comment := List.replicate 1022 120 ++ [97, 44, 49, 44, 49, 44, 49]
  nl := []
  back := []
  front_lines := nofun
  body_line := List.not_mem_nil
  body_plain := List.not_mem_nil
  comment_line h := by
    rcases List.mem_append.mp h with h | h
    · exact absurd (List.eq_of_mem_replicate h) (by decide)
    · exact absurd h (by decide)
  line_end := .inr ⟨rfl, rfl⟩

/-- The end of a long comment is read as an entry. -/
theorem long_comment_not_ignored : ¬long_comment.Ignored (load []) := by
  intro h
  obtain ⟨es, es', htext, hstripped⟩ := entries_text long_comment
  unfold Commented.Ignored at h
  rw [read_spec_entries, read_spec_entries, htext, hstripped] at h
  have hleftover : long_comment.leftover = [97, 44, 49, 44, 49, 44, 49] := by
    have hcomment : long_comment.comment = List.replicate 1022 120 ++ [97, 44, 49, 44, 49, 44, 49] := rfl
    have hnl : long_comment.nl = [] := rfl
    have hbody : long_comment.body.length % 1023 = 0 := rfl
    rw [Commented.leftover, hcomment, hnl, hbody, Nat.sub_zero, List.append_nil, List.drop_succ_cons,
      List.drop_left' List.length_replicate]
  have hentries : entries long_comment.leftover ≠ [] := by
    have h44 : (uncommented [97, 44, 49, 44, 49, 44, 49]).count 44 = 3 := by decide
    rw [hleftover]
    unfold entries
    rw [chunks_last (by decide) (by decide) (List.cons_ne_nil _ _), List.filterMap_cons, entryOf, if_pos h44]
    exact List.cons_ne_nil _ _
  have hempty : entries long_comment.stripped = [] := entries_nil
  rcases foldlM_middle.mp h with hnil | hload
  · exact hentries hnil
  · rw [← hstripped, hempty] at hload
    exact hload ⟨nofun, Nat.zero_le _⟩

end Cs326.Scheduler
