import Cs326.Shell.Jobs
import Mathlib.Data.List.Nodup

/-!
# When the job table is right

`sigchld_handler` compares the result of `waitpid` with slot 9 first, whatever `count` is, so slot 9 has to be the last
job or different from that result: the unused slot holds the `0` it was initialised with, and `waitpid` returns `0` when
the child that sent the signal has already been reaped. With that excluded the handler erases exactly the job of the
child (`JobTable.sigchld_handler_spec`), because every unused slot holds the same as slot 9 (`JobTable.Wf.free`).
-/

namespace Cs326.Shell

/-- In a list with distinct keys, the entries of other keys than the `i`th are all but the `i`th. -/
theorem filter_key_ne {α β : Type*} [DecidableEq α] {l : List (α × β)} (h : (l.map Prod.fst).Nodup) {i : Nat}
    (hi : i < l.length) : l.filter (fun j => decide (j.1 ≠ l[i].1)) = l.eraseIdx i := by
  induction l generalizing i with
  | nil => cases hi
  | cons x l ih =>
    rw [List.map_cons, List.nodup_cons] at h
    obtain ⟨hx, hl⟩ := h
    cases i with
    | zero =>
      rw [List.getElem_cons_zero, List.eraseIdx_cons_zero, List.filter_cons_of_neg (by simp), List.filter_eq_self]
      intro y hy
      have hne : y.1 ≠ x.1 := fun he => hx (he ▸ List.mem_map_of_mem hy)
      simpa using hne
    | succ i =>
      have hi' : i < l.length := Nat.lt_of_succ_lt_succ hi
      have hne : x.1 ≠ l[i].1 := fun he => hx (he ▸ List.mem_map_of_mem (List.getElem_mem hi'))
      rw [List.getElem_cons_succ, List.eraseIdx_cons_succ, List.filter_cons_of_pos (by simpa using hne), ih hl hi']

/-! ## The table -/

namespace JobTable

variable {t t' : JobTable} {pid : Int} {past : Int × CString} {cmd : CString} {i n k : Nat}

/-- What the slot `k` holds. -/
def slot (t : JobTable) (k : Nat) : Int × Row := (t.num_jobs k, t.bg_cmds k)

@[simp] theorem slot_put {row : Row} : (t.put i pid row).slot k = if k = i then (pid, row) else t.slot k := by
  simp only [slot, put, Function.update_apply]
  split <;> rfl

@[simp] theorem count_put {row : Row} : (t.put i pid row).count = t.count := rfl

@[simp] theorem slot_count {c : Int} : JobTable.slot { t with count := c } k = t.slot k := rfl

theorem entries_eq : t.entries = (List.range t.count.toNat).map fun k => ((t.slot k).1, (t.slot k).2.str) := rfl

@[simp] theorem length_entries : t.entries.length = t.count.toNat := by simp [entries]

@[simp] theorem getElem_entries (h : k < t.entries.length) :
    t.entries[k] = ((t.slot k).1, (t.slot k).2.str) := by simp [entries, slot]

/-- The entries are distinct jobs and fill the table from the front; the unused slots are alike. -/
structure Wf (t : JobTable) : Prop where
  nonneg : 0 ≤ t.count
  le : t.count ≤ 10
  free : ∀ k : Nat, k < 10 → t.count ≤ k → t.num_jobs k = t.num_jobs 9
  nodup : (t.entries.map Prod.fst).Nodup

theorem wf_init : init.Wf := ⟨by decide, by decide, fun _ _ _ => rfl, .nil⟩

/-- **Recording** appends an entry. -/
theorem record_spec (h : t.Wf) (hc : t.count < 10) (hlen : cmd.length < 5000) (hpid : pid ∉ t.entries.map Prod.fst) :
    ∃ t', t.record pid cmd = some t' ∧ t'.Wf ∧ t'.entries = t.entries ++ [(pid, cmd)] := by
  have hn := h.nonneg
  have hcount : (t.count + 1).toNat = t.count.toNat + 1 := by omega
  refine ⟨_, by rw [record, if_pos ⟨hn, hc⟩, strcpy_of_lt hlen]; rfl, ?_⟩
  have he : JobTable.entries { t.put t.count.toNat pid ⟨cmd, hlen⟩ with count := t.count + 1 } =
      t.entries ++ [(pid, cmd)] := by
    rw [entries_eq, entries_eq, hcount, List.range_succ, List.map_append]
    congr 1
    · refine List.map_congr_left fun k hk => ?_
      rw [slot_count, slot_put, if_neg (Nat.ne_of_lt (List.mem_range.mp hk))]
    · simp
  refine ⟨⟨by dsimp only; omega, by dsimp only; omega, fun k hk hck => ?_, ?_⟩, he⟩
  · -- behind the new entry nothing has changed
    dsimp only at hck
    have h9 : 9 = t.count.toNat ∨ (t.put t.count.toNat pid ⟨cmd, hlen⟩).slot 9 = t.slot 9 := by
      rw [slot_put]; split
      · exact .inl ‹_›
      · exact .inr rfl
    rcases h9 with h9 | h9
    · omega
    · have hk' : (t.put t.count.toNat pid ⟨cmd, hlen⟩).slot k = t.slot k := by rw [slot_put, if_neg (by omega)]
      exact (congrArg Prod.fst hk').trans ((h.free k hk (by omega)).trans (congrArg Prod.fst h9).symm)
  · rw [he, List.map_append, List.nodup_append]
    refine ⟨h.nodup, by simp, fun a ha b hb => ?_⟩
    obtain rfl := List.mem_singleton.mp hb
    rintro rfl
    exact hpid ha

/-! ## The handler -/

/-- The loop moves the slots `i + 1, ..., i + n` one down. -/
theorem foldlM_move (hn : i + n ≤ 10) (hpast : i + n = 10 → past.2.length < 5000) :
    ∃ t', (List.range' i n).foldlM (fun t i => t.move past i) t = some t' ∧ t'.count = t.count ∧
      (∀ k < 9, t'.slot k = if i ≤ k ∧ k < i + n then t.slot (k + 1) else t.slot k) ∧
      (i + n ≤ 9 → t'.slot 9 = t.slot 9) := by
  induction n generalizing i t with
  | zero => exact ⟨t, rfl, rfl, fun k _ => by rw [if_neg (by omega)], fun _ => rfl⟩
  | succ n ih =>
    rw [List.range'_succ, List.foldlM_cons]
    by_cases hi : i + 1 < 10
    · rw [move, if_pos hi]
      obtain ⟨t', he, hc, hlow, h9⟩ := ih (i := i + 1) (t := t.put i (t.num_jobs (i + 1)) (t.bg_cmds (i + 1)))
        (by omega) (by omega)
      refine ⟨t', he, hc, fun k hk => ?_, fun h => ?_⟩
      · rw [hlow k hk, slot_put, slot_put]
        by_cases hki : k = i
        · subst hki
          rw [if_neg (by omega), if_pos rfl, if_pos (by omega)]
          rfl
        · by_cases hin : i + 1 ≤ k ∧ k < i + 1 + n
          · rw [if_pos hin, if_neg (by omega), if_pos (by omega)]
          · rw [if_neg hin, if_neg hki, if_neg (by omega)]
      · rw [h9 (by omega), slot_put, if_neg (by omega)]
    · -- the last slot takes what lies past the end
      obtain ⟨rfl, rfl⟩ : i = 9 ∧ n = 0 := by omega
      rw [move, if_neg hi, if_pos (by omega), strcpy_of_lt (hpast rfl)]
      refine ⟨_, rfl, rfl, fun k hk => ?_, fun h => (by omega)⟩
      rw [slot_put, if_neg (by omega), if_neg (by omega)]

/-- A result of `waitpid` that is no entry, or the entry the handler finds. -/
theorem find_slot (h : t.Wf) (h9 : pid ≠ t.num_jobs 9) :
    ((List.range 9).find? (fun i => t.num_jobs i = pid) = none ∧ pid ∉ t.entries.map Prod.fst) ∨
      ∃ i : Nat, i < 9 ∧ (i : Int) < t.count ∧ t.num_jobs i = pid ∧
        (List.range 9).find? (fun i => t.num_jobs i = pid) = some i := by
  cases hf : (List.range 9).find? fun i => t.num_jobs i = pid with
  | none =>
    refine .inl ⟨rfl, fun hmem => ?_⟩
    rw [List.find?_eq_none] at hf
    obtain ⟨e, he, rfl⟩ := List.mem_map.mp hmem
    obtain ⟨k, hk, rfl⟩ := List.mem_iff_getElem.mp he
    rw [length_entries] at hk
    rw [getElem_entries] at h9 hf
    have hle := h.le
    rcases Nat.lt_or_ge k 9 with hk9 | hk9
    · exact hf k (List.mem_range.mpr hk9) (by simp [slot])
    · obtain rfl : k = 9 := by omega
      exact h9 rfl
  | some i =>
    obtain ⟨hp, hi, _⟩ := List.find?_range_eq_some.mp hf
    have hpid : t.num_jobs i = pid := by simpa using hp
    have hi9 := List.mem_range.mp hi
    refine .inr ⟨i, hi9, ?_, hpid, rfl⟩
    -- an unused slot would be like slot 9
    by_contra hge
    exact h9 (hpid.symm.trans (h.free i (by omega) (by omega)))

theorem not_mem_iff_filter (h : pid ∉ t.entries.map Prod.fst) :
    t.entries.filter (fun j => decide (j.1 ≠ pid)) = t.entries := by
  refine List.filter_eq_self.mpr fun j hj => ?_
  have : j.1 ≠ pid := fun he => h (he ▸ List.mem_map_of_mem hj)
  simpa using this

/-- **The handler** erases the entry of the child it has reaped. -/
theorem sigchld_handler_spec (h : t.Wf) (h9 : pid = t.num_jobs 9 → t.count = 10)
    (hpast : t.count = 10 → pid ≠ t.num_jobs 9 → (∃ k < 9, t.num_jobs k = pid) → past.2.length < 5000) :
    ∃ t', t.sigchld_handler pid past = some t' ∧ t'.Wf ∧
      t'.entries = t.entries.filter fun j => decide (j.1 ≠ pid) := by
  have hn := h.nonneg
  have hle := h.le
  -- it is enough to know the entries, and that the unused slots are alike
  have hnodup : ∀ {t' : JobTable}, t'.entries = t.entries.filter (fun j => decide (j.1 ≠ pid)) →
      (t'.entries.map Prod.fst).Nodup := by
    intro t' he
    rw [he]
    exact h.nodup.sublist (List.filter_sublist.map _)
  have herase : ∀ {t' : JobTable} {i : Nat}, i < t.count.toNat → t.num_jobs i = pid → t'.count = t.count - 1 →
      (∀ k < (t.count - 1).toNat, t'.slot k = if i ≤ k then t.slot (k + 1) else t.slot k) →
      t'.entries = t.entries.filter fun j => decide (j.1 ≠ pid) := by
    intro t' i hi hpid hc hslot
    have hi' : i < t.entries.length := by simpa using hi
    have hkey := filter_key_ne h.nodup hi'
    rw [getElem_entries, show (t.slot i).1 = pid from hpid] at hkey
    rw [hkey]
    refine List.ext_getElem ?_ fun k h₁ h₂ => ?_
    · rw [length_entries, hc, List.length_eraseIdx_of_lt hi', length_entries]; omega
    · rw [length_entries, hc] at h₁
      rw [getElem_entries, hslot k h₁, List.getElem_eraseIdx]
      by_cases hki : k < i
      · rw [dif_pos hki, if_neg (by omega), getElem_entries]
      · rw [dif_neg hki, if_pos (by omega), getElem_entries]
  unfold sigchld_handler
  by_cases hlast : pid = t.num_jobs 9
  · rw [if_pos hlast]
    have hc := h9 hlast
    refine ⟨_, rfl, ?_⟩
    have he : JobTable.entries { t.put 9 0 Row.empty with count := t.count - 1 } =
        t.entries.filter fun j => decide (j.1 ≠ pid) := by
      refine herase (i := 9) (by omega) hlast.symm rfl fun k hk => ?_
      rw [slot_count, slot_put, if_neg (by omega), if_neg (by omega)]
    refine ⟨⟨by dsimp only; omega, by dsimp only; omega, fun k hk hck => ?_, hnodup he⟩, he⟩
    obtain rfl : k = 9 := by dsimp only at hck; omega
    rfl
  · rw [if_neg hlast]
    rcases find_slot h hlast with ⟨hf, hmem⟩ | ⟨i, hi9, hic, hpid, hf⟩
    · rw [hf]
      exact ⟨t, rfl, h, (not_mem_iff_filter hmem).symm⟩
    · rw [hf]
      obtain ⟨t', ht', hc, hlow, hslot9⟩ := foldlM_move (t := t) (i := i) (n := (t.count - i).toNat)
        (by omega) fun h10 => hpast (by omega) hlast ⟨i, hi9, hpid⟩
      refine ⟨{ t' with count := t'.count - 1 }, by simp only [shift, ht']; rfl, ?_⟩
      have he : JobTable.entries { t' with count := t'.count - 1 } = t.entries.filter fun j => decide (j.1 ≠ pid) := by
        refine herase (i := i) (by omega) hpid (by dsimp only; rw [hc]) fun k hk => ?_
        rw [slot_count, hlow k (by omega)]
        by_cases hik : i ≤ k
        · rw [if_pos (by omega), if_pos hik]
        · rw [if_neg (by omega), if_neg hik]
      refine ⟨⟨by dsimp only; omega, by dsimp only; omega, fun k hk hck => ?_, hnodup he⟩, he⟩
      dsimp only at hck ⊢
      rcases Nat.lt_or_ge k 9 with hk9 | hk9
      · have h9' : t'.num_jobs 9 = t.num_jobs 9 := congrArg Prod.fst (hslot9 (by omega))
        have hk' : t'.num_jobs k = _ := congrArg Prod.fst (hlow k hk9)
        rw [h9', hk']
        split
        · exact h.free (k + 1) (by omega) (by omega)
        · exact h.free k (by omega) (by omega)
      · obtain rfl : k = 9 := by omega
        rfl

end JobTable

end Cs326.Shell
