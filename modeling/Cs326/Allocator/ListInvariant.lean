import Cs326.Allocator.Client

/-!
# The shape of the list

The list splits into runs of adjacent blocks, one for each mapping that has not been given back (`Runs`). Up to
`2 ^ 64` allocations the numbers of the blocks are distinct and below the counter (`Numbered`). Then the counter wraps,
and the number of a block that is still there comes round again.
-/

namespace Cs326.Allocator

variable {page : PageSize} {tr : List (Call × Nat)} {w : Client} {h : Heap} {rs : List Region} {r : Region}

/-- The blocks `xs` cut up the mapping of `len` bytes at `start`, in list order. -/
structure IsRun (start len : Nat) (xs : List Header) : Prop where
  head : xs.head?.map Header.addr = some start
  next : xs.IsChain fun x y => y.addr = x.addr + x.size
  total : (xs.map Header.size).sum = len
  region : ∀ x ∈ xs, x.region_start = start ∧ x.region_size = len
  block : ∀ x ∈ xs, sizeof_mem_block ≤ x.size ∧ (x.usage = 0 ∨ sizeof_mem_block ≤ x.usage ∧ x.usage ≤ x.size)
  aligned : ∀ x ∈ xs, 8 ∣ x.addr ∧ 8 ∣ x.size ∧ 8 ∣ x.usage

/-- The list is made of the runs of the mappings that have not been given back. -/
structure Runs (h : Heap) (runs : List ((Nat × Nat) × List Header)) : Prop where
  chain : Chain h (runs.flatMap Prod.snd)
  acyclic : ((runs.flatMap Prod.snd).map Header.addr).Nodup
  isRun : ∀ r ∈ runs, IsRun r.1.1 r.1.2 r.2
  mapped : ∀ r ∈ runs, r.1 ∈ h.mapped
  regions : runs.map Prod.fst = outstanding h.log

/-- The numbers of the blocks are distinct and below the counter. -/
structure Numbered (h : Heap) (xs : List Header) : Prop where
  nodup : (xs.map Header.alloc_id).Nodup
  lt : ∀ x ∈ xs, x.alloc_id < h.g_allocations

theorem layout_isChain (start len addr : Nat) (bs : List Block) :
    (layout start len addr bs).IsChain fun x y => y.addr = x.addr + x.size := by
  induction bs generalizing addr with
  | nil => exact .nil
  | cons b bs ih =>
    cases bs with
    | nil => exact .singleton _
    | cons b' bs => exact .cons_cons rfl (ih _)

/-- The headers of a region are a run. -/
theorem Region.isRun (r : Region) : IsRun r.start r.len r.headers where
  head := by
    obtain ⟨b, hb, _⟩ := r.used
    unfold Region.headers
    cases hbs : r.blocks with
    | nil => rw [hbs] at hb; cases hb
    | cons b bs => rfl
  next := layout_isChain ..
  total := by
    rw [Region.headers, layout_map fun _ _ => rfl]
    exact r.total_eq
  region x hx := ⟨(Region.of_mem hx).2.1, (Region.of_mem hx).2.2.1⟩
  block x hx := ⟨(Region.of_mem hx).1.header_le, (Region.of_mem hx).1.usage_ok⟩
  aligned x hx :=
    have hok := (Region.of_mem hx).1
    ⟨hok.addr_dvd, hok.size_dvd, hok.usage_dvd⟩

/-- **The list along a run.** -/
theorem list_invariant (h : Reaches page tr w) :
    ∃ runs, Runs w.heap runs ∧
      ((∀ e ∈ tr, e.1.unmaps = true) → w.heap.mapped.Perm (runs.map Prod.fst)) ∧
      (allocations tr < 2 ^ 64 → Numbered w.heap (runs.flatMap Prod.snd)) := by
  obtain ⟨rs, hI⟩ := h.inv
  have hr := hI.represents
  have hflat : (rs.map fun r => ((r.start, r.len), r.headers)).flatMap Prod.snd = flat rs := by
    rw [List.flatMap_map]
    rfl
  have hranges : (rs.map fun r => ((r.start, r.len), r.headers)).map Prod.fst = ranges rs := by
    rw [List.map_map]
    rfl
  refine ⟨rs.map fun r => ((r.start, r.len), r.headers), ⟨?_, ?_, ?_, ?_, ?_⟩, ?_, fun hlt => ?_⟩
  · rw [hflat]
    exact hr.chain
  · rw [hflat]
    exact addr_nodup hr.seg fun x hx => (Header.ok_of_mem hx).addr_ne
  · intro run hrun
    obtain ⟨r, _, rfl⟩ := List.mem_map.mp hrun
    exact r.isRun
  · intro run hrun
    exact hr.mapped _ (hranges ▸ List.mem_map_of_mem hrun)
  · rw [hranges, hI.outstanding]
  · rw [hranges]
    exact hI.mapped
  · obtain ⟨hcount, hnodup, hbound⟩ := hI.ids hlt
    rw [hflat]
    refine ⟨hnodup, fun x hx => ?_⟩
    exact hcount ▸ hbound _ (List.mem_map_of_mem hx)

/-- Two blocks, of one region. -/
theorem list_invariant_two : ∃ tr w runs, Reaches .default tr w ∧ w.live = [(4200, 8), (4144, 8)] ∧ Runs w.heap runs ∧
    Numbered w.heap (runs.flatMap Prod.snd) := by
  obtain ⟨h, rs, hreach, _⟩ := reaches_malloc_two
  obtain ⟨runs, hruns, _, hids⟩ := list_invariant hreach
  exact ⟨_, _, runs, hreach, rfl, hruns, hids (by decide)⟩

/-! ## The counter wraps -/

/-- One block stays live while another is allocated and freed `k` times. -/
theorem reaches_count (k : Nat) : ∃ tr h r, Reaches .default tr ⟨h, [(4144, 8)]⟩ ∧ Represents h [r] ∧
    r.headers = [⟨4096, 0, 4096, 56, 4096, 4096⟩] ∧ h.mapped = [(4096, 4096)] ∧
      h.g_allocations = (k + 1) % 2 ^ 64 := by
  induction k with
  | zero =>
    obtain ⟨h, r, hreach, hr, hheaders, hmapped, hcount⟩ := reaches_malloc
    exact ⟨_, h, r, hreach, hr, hheaders, hmapped, hcount⟩
  | succ k ih =>
    obtain ⟨tr, h, r, hreach, hr, hheaders, hmapped, hcount⟩ := ih
    have hmap : h.mappable .default (region_size .default 4096) 8192 := by
      unfold Heap.mappable
      rw [hmapped]
      decide
    have hno : reuseList (.mapping 8192) (align 4096) (flat [r]) = 0 := by
      rw [flat_cons, hheaders]
      decide
    obtain ⟨h₁, r₁, hres₁, hheaders₁, hmapped₁, hall⟩ :=
      malloc_map_success .default (.mapping 8192) 4096 hr (by decide) (by decide) rfl hmap
    rw [← show align 4096 = 4096 from rfl, ← malloc_eq_map .default hr (Env.mapping_readable _) hno] at hres₁
    have hle : 4096 ≤ request_max := by decide
    have hreach₁ := Run.snoc hreach ⟨.malloc (.mapping 8192) 4096, 8240, h₁, hle, hres₁, rfl, rfl⟩
    obtain ⟨b, hb, hx⟩ := r₁.blocks_of_headers hheaders₁
    let s : Spot ([r] ++ [r₁]) := ⟨[r], r₁, [], [], b, [], rfl, hb⟩
    have hstart : r₁.start = 8192 := (congrArg Header.region_start hx).symm
    have hsize : region_size .default 4096 = 8192 := by decide
    have hlen : r₁.len = 8192 := (congrArg Header.region_size hx).symm.trans hsize
    have haddr : s.addr + 48 = 8240 := by
      show r₁.start + 0 + 48 = 8240
      rw [hstart]
    have hcleared : ∀ y ∈ s.cleared, y.usage = 0 := by
      intro y hy
      obtain rfl := List.mem_singleton.mp hy
      rfl
    obtain ⟨h₂, hres₂, hmapped₂, hfrees⟩ := free_region_spec (.mapping 8192) hall.represents s hcleared
    rw [haddr] at hres₂
    have hreach₂ := Run.snoc hreach₁ ⟨.free (.mapping 8192) 8240, 0, h₂, by simp [Permitted, Call.live, Call.request],
      by simp only [Call.run, hres₂, ok_bind, pure_ok], rfl, rfl⟩
    refine ⟨_, h₂, r, hreach₂, hfrees.represents, hheaders, ?_, ?_⟩
    · rw [hmapped₂, hmapped₁, hmapped]
      show List.erase _ (r₁.start, r₁.len) = _
      rw [hstart, hlen]
      decide
    · rw [hfrees.count, hall.count, hcount]
      unfold uadd
      omega

/-- After `2 ^ 64` allocations the counter is `0`, and no number is below it. -/
theorem ids_wrap : ¬∀ page tr w, Reaches page tr w →
    ∃ runs, Runs w.heap runs ∧ Numbered w.heap (runs.flatMap Prod.snd) := by
  intro hall
  obtain ⟨tr, h, r, hreach, hr, hheaders, _, hcount⟩ := reaches_count (2 ^ 64 - 1)
  obtain ⟨runs, hruns, hids⟩ := hall _ _ _ hreach
  have hhead : h.g_head = 4096 := by
    rw [hr.head, flat_cons, hheaders]
    rfl
  have hzero : h.g_allocations = 0 := hcount
  cases hxs : runs.flatMap Prod.snd with
  | nil =>
    have hnil := hruns.chain.head
    rw [hxs, first_nil, hhead] at hnil
    exact absurd hnil (by decide)
  | cons x xs =>
    have hx := hids.lt x (hxs ▸ List.mem_cons_self)
    exact Nat.not_lt_zero _ (hzero ▸ hx)

end Cs326.Allocator
