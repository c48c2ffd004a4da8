import Cs326.Allocator.Client

/-!
# What a request gets

A non-`NULL` result of `malloc` belongs to a block with room for the request, exactly for the requests up to
`request_max`. Beyond it the size wraps when it is aligned or when the header is added, and `malloc` hands out a block
that is no larger than a header.
-/

namespace Cs326.Allocator

variable {page : PageSize} {tr : List (Call × Nat)} {w : Client} {h h' : Heap} {rs rs' : List Region} {x : Header}
  {p u next size v blk : Nat} {field : Field}

/-- The block of the pointer `p` has room for `size` bytes and a header, and lies in its mapping. -/
def Holds (h : Heap) (p size : Nat) : Prop :=
  ∃ x : Header, x.addr = usub p sizeof_mem_block ∧ (∃ next, ∀ f, h.get x.addr f = .ok (x.field next f)) ∧
    size + sizeof_mem_block ≤ x.usage ∧ x.usage ≤ x.size ∧ (x.region_start, x.region_size) ∈ h.mapped ∧
      x.region_start ≤ x.addr ∧ x.addr + x.size ≤ x.region_start + x.region_size

/-- Blocks in use hold their usage. -/
theorem InUse.holds (hr : Represents h rs) (hu : InUse (flat rs) p u) (hsize : size + 48 ≤ u) : Holds h p size := by
  obtain ⟨x, hx, hne, rfl, rfl⟩ := hu
  obtain ⟨r, hrr, hxr⟩ := mem_flat.mp hx
  obtain ⟨hok, hstart, hlen, hlo, hhi⟩ := Region.of_mem hxr
  obtain ⟨next, hat⟩ := hr.seg.at_of_mem hx
  have hend := hok.end_lt
  have hle := hok.usage_ok.resolve_left hne
  have haddr : usub (x.addr + 48) sizeof_mem_block = x.addr := by
    rw [usub_eq (by unfold sizeof_mem_block; omega) (by omega)]
    rfl
  refine ⟨x, haddr.symm, ⟨next, fun f => hr.get hx hat⟩, hsize, hle.2, ?_, by omega, by omega⟩
  rw [hstart, hlen]
  exact hr.mapped _ (List.mem_map_of_mem hrr)

theorem Holds.le_usage (hh : Holds h p size) : size + 48 ≤ h.load (usub p sizeof_mem_block) .usage := by
  obtain ⟨x, haddr, ⟨next, hget⟩, hsize, _⟩ := hh
  have hload : h.load x.addr .usage = x.usage := by
    have := hget .usage
    unfold Heap.get at this
    split at this
    · exact Except.ok.inj this
    · cases this
  rw [← haddr, hload]
  exact hsize

/-! ## Requests that wrap -/

/-- Above `request_max` the size wraps, and with its header it is no larger than a header. -/
theorem wrapped (hsize : request_max < size) (hlt : size < 2 ^ 64) : uadd (align size) sizeof_mem_block ≤ 48 := by
  unfold request_max at hsize
  unfold align uadd sizeof_mem_block
  split <;> omega

/-- After `malloc(8)` every request that wraps is met, from the free space of the first block. -/
theorem reaches_wrapped (hsize : request_max < size) (hlt : size < 2 ^ 64) : ∃ tr w h', Reaches .default tr w ∧
    malloc .default (.mapping 0) size w.heap = .ok (h', 4200) := by
  have hwrap := wrapped hsize hlt
  obtain ⟨h, r, s, hreach, hr, hs, _, _, _, hmalloc⟩ := reaches_spot
  have haddr : s.addr = 4096 := congrArg Header.addr hs
  have hbsize : s.block.size = 4096 := congrArg Header.size hs
  have hbusage : s.block.usage = 56 := congrArg Header.usage hs
  have hsplit := malloc_split_eq (.mapping 0) (align size) hr s (by omega)
    (s.accessible_rest hr (by omega)) (by omega)
  have hp : s.addr + s.block.usage + 48 = 4200 := by omega
  rw [← hmalloc size (by omega), hp] at hsplit
  exact ⟨_, _, s.splitHeap h (align size) (first Header.addr s.post 0), hreach, hsplit⟩

/-- **Capacity.** Whatever the state and the policy, what `malloc` returns has room for the request exactly if the
request does not wrap; and a request that wraps is met in some state. -/
theorem capacity (hlt : size < 2 ^ 64) :
    (∀ page tr w env h' p, Reaches page tr w → malloc page env size w.heap = .ok (h', p) → p ≠ 0 →
      (Holds h' p size ↔ size ≤ request_max)) ∧
    (request_max < size → ∃ tr w env h' p, Reaches .default tr w ∧ malloc .default env size w.heap = .ok (h', p) ∧
      p ≠ 0) := by
  constructor
  · intro page tr w env h' p hreach hres hp
    obtain ⟨rs, hI⟩ := hreach.inv
    have hr := hI.represents
    constructor
    · intro hh
      by_contra hsize
      have hwrap := wrapped (Nat.lt_of_not_le hsize) hlt
      have hroom := hh.le_usage
      rw [malloc_usage hr hI.mapped_lt hres hp] at hroom
      unfold request_max at hsize
      omega
    · intro hsize
      obtain ⟨h'', p', hres', hs⟩ := malloc_spec page hr (readable_of_malloc hres) hsize
      obtain ⟨rfl, rfl⟩ := Prod.mk.inj (Except.ok.inj (hres.symm.trans hres'))
      obtain ⟨_, rs', hall⟩ := hs.resolve_left fun h => hp h.1
      refine InUse.holds hall.represents ((hall.inUse p _).mpr (.inr ⟨rfl, rfl⟩)) ?_
      exact Nat.add_le_add_right (align_le hsize).1 48
  · intro hsize
    obtain ⟨tr, w, h', hreach, hres⟩ := reaches_wrapped hsize hlt
    exact ⟨tr, w, _, h', 4200, hreach, hres, by decide⟩

theorem capacity_eight :
    ∃ h', malloc .default (.mapping 4096) 8 Client.init.heap = .ok (h', 4144) ∧ Holds h' 4144 8 := by
  have hres : (malloc .default (.mapping 4096) 8 Client.init.heap).toOption.map Prod.snd = some 4144 := by decide
  cases hm : malloc .default (.mapping 4096) 8 Client.init.heap with
  | error e => rw [hm] at hres; cases hres
  | ok r =>
    obtain ⟨h', p⟩ := r
    rw [hm] at hres
    obtain rfl : p = 4144 := Option.some.inj hres
    exact ⟨h', rfl, ((capacity (by decide)).1 _ _ _ _ _ _ Run.nil hm (by decide)).mpr (by decide)⟩

/-- `malloc(SIZE_MAX)` returns a block of one page, of which it has used a header. -/
theorem capacity_wraps : ¬∀ page tr w env size h' p, size < 2 ^ 64 → Reaches page tr w →
    malloc page env size w.heap = .ok (h', p) → p ≠ 0 → Holds h' p size := by
  intro hall
  have hres : (malloc .default (.mapping 4096) (2 ^ 64 - 1) Client.init.heap).toOption.map
      (fun r => (r.2, r.1.load 4096 .usage)) = some (4144, 48) := by decide
  cases hm : malloc .default (.mapping 4096) (2 ^ 64 - 1) Client.init.heap with
  | error e => rw [hm] at hres; cases hres
  | ok r =>
    obtain ⟨h', p⟩ := r
    rw [hm] at hres
    obtain ⟨rfl, hload⟩ := Prod.mk.inj (Option.some.inj hres)
    have := (hall _ _ _ _ _ _ _ (by decide) Run.nil hm (by decide)).le_usage
    have hload : h'.load 4096 .usage = 48 := hload
    have : 2 ^ 64 - 1 + 48 ≤ h'.load 4096 .usage := this
    omega

end Cs326.Allocator
