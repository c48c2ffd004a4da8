import Cs326.Allocator.Client

/-!
# Regions go back to the system

In every state of a run each region on the list has a block in use, and every call of `munmap` was given an outstanding
mapping. The search of `free` for the link to a region never ends in `NULL`. When the last allocation has been freed the
list is empty, and every `mmap` has its `munmap`.
-/

namespace Cs326.Allocator

variable {page : PageSize} {tr : List (Call × Nat)} {w : Client} {h : Heap} {rs : List Region} {p u : Nat}

theorem Region.exists_used (r : Region) : ∃ y ∈ r.headers, y.usage ≠ 0 := by
  obtain ⟨b, hb, hne⟩ := r.used
  have hmap : r.headers.map Header.usage = r.blocks.map Block.usage := layout_map fun _ _ => rfl
  have hmem : b.usage ∈ r.headers.map Header.usage := hmap ▸ List.mem_map_of_mem hb
  obtain ⟨y, hy, he⟩ := List.mem_map.mp hmem
  exact ⟨y, hy, he ▸ hne⟩

/-- Every region on the list has a block in use. -/
theorem exists_used_of_mem {x : Header} (hx : x ∈ flat rs) :
    ∃ y ∈ flat rs, y.region_start = x.region_start ∧ y.usage ≠ 0 := by
  obtain ⟨r, hr, hxr⟩ := mem_flat.mp hx
  obtain ⟨y, hy, hne⟩ := r.exists_used
  exact ⟨y, mem_flat.mpr ⟨r, hr, hy⟩, (Region.of_mem hy).2.1.trans (Region.of_mem hxr).2.1.symm, hne⟩

/-- Without a live allocation there is no region. -/
theorem Inv.eq_nil (hI : Inv tr w rs) (hlive : w.live = []) : rs = [] := by
  cases rs with
  | nil => rfl
  | cons r rs =>
    obtain ⟨y, hy, hne⟩ := r.exists_used
    have hmem : y ∈ flat (r :: rs) := mem_flat.mpr ⟨r, List.mem_cons_self, hy⟩
    have hu : InUse (flat (r :: rs)) (y.addr + 48) y.usage := ⟨y, hmem, hne, rfl, rfl⟩
    have hmem := (hI.live (y.addr + 48)).mpr ⟨_, hu⟩
    rw [hlive] at hmem
    cases hmem

/-- **The steps of `free` up to its last loop**, which finds the link to the region where the list has one. -/
theorem predecessor_found (hr : Represents h rs) (hu : InUse (flat rs) p u) :
    ∃ h₁ isFree current start, h.set (usub p sizeof_mem_block) .usage 0 = .ok h₁ ∧
      region_is_free (usub p sizeof_mem_block) h₁ = .ok (isFree, current) ∧
      h₁.get (usub p sizeof_mem_block) .region_start = .ok start ∧
      (h₁.g_head ≠ start → ∃ tmp, predecessor (usub p sizeof_mem_block) h₁ = .ok tmp ∧ tmp ≠ 0 ∧
        h₁.get tmp .next = .ok start) := by
  obtain ⟨s, _, rfl⟩ := hu.exists_spot
  have hc := s.cleared_put hr
  obtain ⟨current, hloop, _⟩ := region_is_free_spec hc
  rw [s.usub_eq]
  refine ⟨h.put s.addr .usage 0, _, current, s.region.start, set_eq (s.accessible_field hr.mapped .usage),
    hloop, hc.get_region_start, ?_⟩
  intro hne
  rcases List.eq_nil_or_concat (flat s.before) with hnil | ⟨xs, z, hz⟩
  · have hhead := hc.head
    rw [hnil] at hhead
    exact absurd hhead hne
  · rw [List.concat_eq_append] at hz
    have hzmem : z ∈ flat s.before ++ (s.cleared ++ flat s.behind) := by
      rw [hz]
      simp
    obtain ⟨hpred, hatz⟩ := predecessor_spec hc hz
    exact ⟨z.addr, hpred, (s.all_cleared_mem hzmem).addr_ne, get_cleared hc.mapped hzmem hatz .next⟩

/-- **Region reclamation.** -/
theorem region_reclamation (h : Reaches page tr w) :
    (∃ xs, Chain w.heap xs ∧ ∀ x ∈ xs, ∃ y ∈ xs, y.region_start = x.region_start ∧ y.usage ≠ 0) ∧
    Matched w.heap.log ∧
    (∀ a ∈ w.live, ∃ h₁ isFree current start, w.heap.set (usub a.1 sizeof_mem_block) .usage 0 = .ok h₁ ∧
      region_is_free (usub a.1 sizeof_mem_block) h₁ = .ok (isFree, current) ∧
      h₁.get (usub a.1 sizeof_mem_block) .region_start = .ok start ∧
      (h₁.g_head ≠ start → ∃ tmp, predecessor (usub a.1 sizeof_mem_block) h₁ = .ok tmp ∧ tmp ≠ 0 ∧
        h₁.get tmp .next = .ok start)) ∧
    (w.live = [] → w.heap.g_head = 0 ∧
      ∀ start len, w.heap.log.count (.mmap start len) = w.heap.log.count (.munmap start len)) := by
  obtain ⟨rs, hI⟩ := h.inv
  have hr := hI.represents
  refine ⟨⟨flat rs, hr.chain, fun x hx => exists_used_of_mem hx⟩, hI.matched, ?_, ?_⟩
  · intro a ha
    obtain ⟨u, hu⟩ := (hI.live a.1).mp (List.mem_map_of_mem ha)
    exact predecessor_found hr hu
  · intro hlive
    obtain rfl := hI.eq_nil hlive
    refine ⟨hr.head, ?_⟩
    intro start len
    rw [hI.matched.count, hI.outstanding]
    rfl

/-- A program may free what is live. -/
theorem Reaches.free (hreach : Reaches page tr w) (env : Env) {n : Nat} {live : List (Nat × Nat)}
    (hlive : w.live = (p, n) :: live) (hout : ∀ a ∈ live, a.1 ≠ p) :
    ∃ q h', Reaches page (tr ++ [(.free env p, q)]) ⟨h', live⟩ := by
  obtain ⟨rs, hI⟩ := hreach.inv
  have hc : Permitted page w (.free env p) := by
    show p ∈ w.live.map Prod.fst
    rw [hlive]
    exact List.mem_cons_self
  obtain ⟨h', q, _, hres, _⟩ := hI.effect page hc trivial
  have hlive' : (Call.free env p).live q w.live = live := by
    show w.live.filter (fun a => a.1 ≠ p) = live
    rw [hlive, List.filter_cons_of_neg (by simp), List.filter_eq_self.mpr fun a ha => decide_eq_true (hout a ha)]
  exact ⟨q, h', Run.snoc hreach ⟨_, q, h', hc, hres, rfl, by rw [hlive']⟩⟩

/-- Two allocations that are freed, the last one first. -/
theorem region_reclamation_freed : ∃ tr w, Reaches .default tr w ∧ tr.length = 4 ∧ w.live = [] ∧ w.heap.g_head = 0 := by
  obtain ⟨h, rs, hreach, _⟩ := reaches_malloc_two
  obtain ⟨q₁, h₁, hreach₁⟩ := hreach.free (.mapping 0) rfl (by simp)
  obtain ⟨q₂, h₂, hreach₂⟩ := hreach₁.free (.mapping 0) rfl (by simp)
  exact ⟨_, _, hreach₂, rfl, rfl, ((region_reclamation hreach₂).2.2.2 rfl).1⟩

end Cs326.Allocator
