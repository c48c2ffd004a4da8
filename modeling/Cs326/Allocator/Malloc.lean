import Cs326.Allocator.Search
import Cs326.Allocator.InUse

/-!
# What `malloc` does to the regions

The three ends of `malloc` take a free block, split a block, and map a region. Each is described by the regions it
leaves, and all three have the same effect on what is in use (`Allocates`, `malloc_spec`).
-/

namespace Cs326.Allocator

variable {h h' : Heap} {rs rs' : List Region} {x y : Header} {env : Env} {page : PageSize} {size p q u a next : Nat}

/-! ## Writing the payload -/

/-- Scribbling changes the payload and nothing else. -/
theorem scribble_spec (env : Env) (ha : h.accessible p size = true) : ∃ h', scribble env p size h = .ok h' ∧
    h'.mapped = h.mapped ∧ h'.log = h.log ∧ h'.g_head = h.g_head ∧ h'.g_allocations = h.g_allocations ∧
      ∀ a, a < p ∨ p + size ≤ a → h'.mem a = h.mem a := by
  unfold scribble
  cases env.scribble with
  | true =>
    refine ⟨_, if_pos ha, rfl, rfl, rfl, rfl, fun a h => fillBytes_of_not_mem h⟩
  | false => exact ⟨h, rfl, rfl, rfl, rfl, rfl, fun _ _ => rfl⟩

/-! ## Allocating inside a block -/

/-- **An allocation in the spare bytes of a block**, which puts `new` in its place. -/
theorem Represents.allocates {s : Spot rs} {new : List Block} (hr : Represents h rs) (ht : total new = s.block.size)
    (used : ∃ b ∈ s.left ++ new ++ s.right, b.usage ≠ 0) (hne : new ≠ []) (hmapped : h'.mapped = h.mapped)
    (hlog : h'.log = h.log) (hhead : h'.g_head = h.g_head) (hcount : h'.g_allocations = uadd h.g_allocations 1)
    (hm : ∀ a, ¬s.Spare a → h'.mem a = h.mem a)
    (hseg : Seg Header.addr (At h') (layout s.region.start s.region.len s.addr new) (first Header.addr s.post 0))
    (hp : s.addr + 48 ≤ p ∧ p < s.addr + s.block.size + 48 ∧ (s.block.usage = 0 ∨ p ≠ s.addr + 48))
    (hin : ∀ q u, InUse (layout s.region.start s.region.len s.addr new) q u ↔
      InUse [s.header] q u ∨ q = p ∧ u = size + 48)
    (hids : ∃ l, l.Sublist [s.block.alloc_id] ∧ (new.map Block.alloc_id).Perm (h.g_allocations :: l)) :
    Allocates size h rs p h' (s.replace new ht used) where
  represents := by
    refine hr.replace ht used hne hhead hmapped (hcount ▸ uadd_lt _ _) (fun a ha => hm a fun hs => ?_) hseg
    obtain ⟨h₁, h₂, _⟩ := hs
    omega
  fresh u := Spot.not_inUse hr.apart hp.1 hp.2.1 hp.2.2
  inUse q u := by
    rw [Spot.flat_replace, inUse_append, inUse_append, hin, s.flat_eq, inUse_append, inUse_cons, inUse_cons]
    have := @not_inUse_nil q u
    tauto
  keep q u hu := Spot.keep hr.apart hm hu
  ids := by
    obtain ⟨l, hl, hperm⟩ := hids
    refine ⟨s.pre.map Header.alloc_id ++ (l ++ s.post.map Header.alloc_id), ?_, ?_⟩
    · rw [s.flat_eq, List.map_append, List.map_cons]
      exact (List.Sublist.refl _).append (hl.append (List.Sublist.refl _))
    · rw [Spot.flat_replace, List.map_append, List.map_append, layout_map fun _ _ => rfl]
      refine ((hperm.append_right _).append_left _).trans ?_
      rw [List.cons_append]
      exact List.perm_middle
  count := hcount
  maps := .inl ⟨hlog, hmapped, Spot.ranges_replace⟩

/-- The heap after a free block has been taken, before the payload is written. -/
def Spot.takeHeap (s : Spot rs) (h : Heap) (size : Nat) : Heap :=
  (h.put s.addr .alloc_id h.g_allocations).countAllocation.put s.addr .usage (uadd size sizeof_mem_block)

/-- The writes to a free block, whatever the size. -/
theorem malloc_reuse_eq (hr : Represents h rs) (s : Spot rs) : malloc_reuse env s.addr size h =
    (scribble env (s.addr + 48) size (s.takeHeap h size) >>= fun h => .ok (h, s.addr + 48)) := by
  have hend : s.addr + s.block.size < 2 ^ 64 := (Header.ok_of_mem s.header_mem).end_lt
  have h48 := s.block.header_le
  have hset : ∀ (h' : Heap) f v, h'.mapped = h.mapped → h'.set s.addr f v = .ok (h'.put s.addr f v) := by
    intro h' f v hm
    exact set_eq (s.accessible_field (hm ▸ hr.mapped) f)
  have hp : uadd s.addr sizeof_mem_block = s.addr + 48 := uadd_eq (by unfold sizeof_mem_block; omega)
  simp only [malloc_reuse, hp, hset, put_mapped, countAllocation_mapped, ok_bind, pure_ok]
  rfl

/-- The header of the block that has been taken. -/
theorem Spot.at_takeHeap (hr : Represents h rs) (s : Spot rs) (size : Nat) :
    At (s.takeHeap h size) { s.header with alloc_id := h.g_allocations, usage := uadd size sizeof_mem_block }
      (first Header.addr s.post 0) := by
  refine At.put (x := { s.header with alloc_id := h.g_allocations }) ?_ (uadd_lt _ _) rfl (fun f => by cases f <;> rfl)
  exact (s.at_header hr).put hr.count_lt rfl fun f => by cases f <;> rfl

/-- **`malloc` takes a free block.** -/
theorem malloc_reuse_spec (env : Env) (hr : Represents h rs) (s : Spot rs) (hfree : s.block.usage = 0) (hd : 8 ∣ size)
    (hfit : size + 48 ≤ s.block.size) : ∃ h', malloc_reuse env s.addr size h = .ok (h', s.addr + 48) ∧
      Allocates size h rs (s.addr + 48) h' (s.take h.g_allocations size hr.count_lt hd hfit) := by
  have hend : s.addr + s.block.size < 2 ^ 64 := (Header.ok_of_mem s.header_mem).end_lt
  have hat := s.at_takeHeap hr size
  rw [uadd_eq (by unfold sizeof_mem_block; omega)] at hat
  have hpay : (s.takeHeap h size).accessible (s.addr + 48) size = true :=
    s.accessible (h := s.takeHeap h size) hr.mapped (by omega) (by omega)
  obtain ⟨h₂, hsc, hmapped, hlog, hhead, hcount, hmem⟩ := scribble_spec env hpay
  have hmem₁ : ∀ a, a < s.addr ∨ s.addr + 48 ≤ a → (s.takeHeap h size).mem a = h.mem a :=
    fun a ha => (put_mem ha).trans (put_mem (h := h) ha)
  refine ⟨h₂, by rw [malloc_reuse_eq hr, hsc]; rfl, ?_⟩
  refine hr.allocates _ _ (by simp) hmapped hlog hhead hcount ?_ ⟨?_, trivial⟩ ⟨by omega, by omega, .inl hfree⟩ ?_
    ⟨[], by simp, by simp [Block.take]⟩
  · intro a ha
    unfold Spot.Spare at ha
    rw [hmem a (by omega), hmem₁ a (by omega)]
  · apply hat.congr
    intro a _ ha
    exact hmem a (.inl ha)
  · intro q u
    rw [layout, layout, inUse_cons, inUse_cons]
    simp only [Block.take, Block.header, Spot.header, hfree, not_inUse_nil, or_false, ne_eq, not_true, false_and,
      false_or]
    omega

/-- The header that `malloc` writes into the free space of a block. -/
def Spot.splitHeader (s : Spot rs) (h : Heap) (size : Nat) : Header :=
  ⟨s.addr + s.block.usage, h.g_allocations, s.block.size - s.block.usage, uadd size sizeof_mem_block, s.region.start,
    s.region.len⟩

/-- The heap after the split, before the payload is written. -/
def Spot.splitHeap (s : Spot rs) (h : Heap) (size next : Nat) : Heap :=
  ((h.countAllocation.putHeader (s.splitHeader h size) next).put s.addr .size s.block.usage).put s.addr .next
    (s.addr + s.block.usage)

/-- Free space that takes a header is mapped. -/
theorem Spot.accessible_rest (hr : Represents h rs) (s : Spot rs) (hroom : s.block.usage + 48 ≤ s.block.size)
    (f : Field) : h.accessible (s.addr + s.block.usage + f.offset) 8 = true := by
  have := f.offset_le
  apply s.accessible hr.mapped
  · omega
  · omega

/-- The writes of a split, whatever the size. -/
theorem malloc_split_eq (env : Env) (size : Nat) (hr : Represents h rs) (s : Spot rs) (hu : s.block.usage ≠ 0)
    (hacc : ∀ f : Field, h.accessible (s.addr + s.block.usage + f.offset) 8 = true)
    (hnew : s.addr + s.block.usage + 48 < 2 ^ 64) : malloc_split env s.addr size h =
      (scribble env (s.addr + s.block.usage + 48) size (s.splitHeap h size (first Header.addr s.post 0)) >>= fun h =>
        .ok (h, s.addr + s.block.usage + 48)) := by
  have hok := Header.ok_of_mem s.header_mem
  have hend : s.addr + s.block.size < 2 ^ 64 := hok.end_lt
  have h48 : 48 ≤ s.block.usage ∧ s.block.usage ≤ s.block.size := s.block.usage_ok.resolve_left hu
  have hfields : ∀ f, h.load s.addr f = s.header.field (first Header.addr s.post 0) f := s.at_header hr
  have hget : ∀ (h' : Heap) f, h'.mapped = h.mapped → h'.get s.addr f = .ok (h'.load s.addr f) := by
    intro h' f hm
    exact get_eq (s.accessible_field (hm ▸ hr.mapped) f)
  have hset : ∀ (h' : Heap) f v, h'.mapped = h.mapped → h'.set s.addr f v = .ok (h'.put s.addr f v) := by
    intro h' f v hm
    exact set_eq (s.accessible_field (hm ▸ hr.mapped) f)
  have hsetc : ∀ (h' : Heap) f v, h'.mapped = h.mapped →
      h'.set (s.addr + s.block.usage) f v = .ok (h'.put (s.addr + s.block.usage) f v) := by
    intro h' f v hm
    apply set_eq
    unfold Heap.accessible
    rw [hm]
    exact hacc f
  -- the new header lies behind the old one
  have hload : ∀ (h' : Heap) f v f', (h'.put (s.addr + s.block.usage) f v).load s.addr f' = h'.load s.addr f' :=
    fun h' f v f' => load_congr fun a _ _ => put_mem (by omega)
  have hc : uadd s.addr s.block.usage = s.addr + s.block.usage := uadd_eq (by omega)
  have hp : uadd (s.addr + s.block.usage) sizeof_mem_block = s.addr + s.block.usage + 48 :=
    uadd_eq (by unfold sizeof_mem_block; omega)
  have hspace : usub s.block.size s.block.usage = s.block.size - s.block.usage := usub_eq h48.2 (by omega)
  simp only [malloc_split, hget, hset, hsetc, hload, hfields, put_mapped, countAllocation_mapped, countAllocation_load,
    ok_bind, pure_ok, Header.field, Spot.header, Block.header, hc, hp, hspace]
  rfl

/-- A split that succeeds has written its header to mapped bytes. -/
theorem accessible_of_malloc_split {r : Heap × Nat} (hr : Represents h rs) (s : Spot rs) (hu : s.block.usage ≠ 0)
    (hres : malloc_split env s.addr size h = .ok r) (f : Field) :
    h.accessible (s.addr + s.block.usage + f.offset) 8 = true := by
  have hend : s.addr + s.block.size < 2 ^ 64 := (Header.ok_of_mem s.header_mem).end_lt
  have h48 : 48 ≤ s.block.usage ∧ s.block.usage ≤ s.block.size := s.block.usage_ok.resolve_left hu
  have hget : h.get s.addr .usage = .ok s.block.usage := hr.get s.header_mem (s.at_header hr)
  have hc : uadd s.addr s.block.usage = s.addr + s.block.usage := uadd_eq (by omega)
  unfold malloc_split at hres
  rw [hget, ok_bind, hc] at hres
  obtain ⟨_, hid, hres⟩ := bind_ok hres
  obtain ⟨_, _, hres⟩ := bind_ok hres
  obtain ⟨_, _, hres⟩ := bind_ok hres
  obtain ⟨_, hsize, hres⟩ := bind_ok hres
  obtain ⟨_, husage, hres⟩ := bind_ok hres
  obtain ⟨_, _, hres⟩ := bind_ok hres
  obtain ⟨_, hstart, hres⟩ := bind_ok hres
  obtain ⟨_, _, hres⟩ := bind_ok hres
  obtain ⟨_, hlen, hres⟩ := bind_ok hres
  obtain ⟨_, _, hres⟩ := bind_ok hres
  obtain ⟨_, hnext, hres⟩ := bind_ok hres
  obtain ⟨aid, rfl⟩ := accessible_of_set hid
  obtain ⟨asize, rfl⟩ := accessible_of_set hsize
  obtain ⟨ausage, rfl⟩ := accessible_of_set husage
  obtain ⟨astart, rfl⟩ := accessible_of_set hstart
  obtain ⟨alen, rfl⟩ := accessible_of_set hlen
  obtain ⟨anext, rfl⟩ := accessible_of_set hnext
  cases f with
  | alloc_id => exact aid
  | size => exact asize
  | usage => exact ausage
  | region_start => exact astart
  | region_size => exact alen
  | next => exact anext

/-- The header of the new block is in place after the split. -/
theorem Spot.at_splitHeader (hr : Represents h rs) (s : Spot rs) (hu : s.block.usage ≠ 0) (size : Nat) :
    At (s.splitHeap h size (first Header.addr s.post 0)) (s.splitHeader h size) (first Header.addr s.post 0) := by
  have hend : s.addr + s.block.size < 2 ^ 64 := (Header.ok_of_mem s.header_mem).end_lt
  have h48 : 48 ≤ s.block.usage ∧ s.block.usage ≤ s.block.size := s.block.usage_ok.resolve_left hu
  have hfield : ∀ f, s.header.field (first Header.addr s.post 0) f < 2 ^ 64 :=
    fun f => by rw [← s.at_header hr f]; exact h.load_lt _ _
  have haddr : (s.splitHeader h size).addr = s.addr + s.block.usage := rfl
  have hx : ∀ f, (s.splitHeader h size).field (first Header.addr s.post 0) f < 2 ^ 64 := by
    intro f
    cases f with
    | alloc_id => exact hr.count_lt
    | size => show s.block.size - s.block.usage < 2 ^ 64; omega
    | usage => exact uadd_lt _ _
    | region_start => exact hfield .region_start
    | region_size => exact hfield .region_size
    | next => exact hfield .next
  exact ((at_putHeader (h := h.countAllocation) hx).put_apart (by omega)).put_apart (by omega)

/-- **`malloc` splits a block.** -/
theorem malloc_split_spec (env : Env) (hr : Represents h rs) (s : Spot rs) (hu : s.block.usage ≠ 0) (hd : 8 ∣ size)
    (hfit : size + 48 ≤ s.block.size - s.block.usage) :
    ∃ h', malloc_split env s.addr size h = .ok (h', s.addr + s.block.usage + 48) ∧
      Allocates size h rs (s.addr + s.block.usage + 48) h' (s.split h.g_allocations size hu hr.count_lt hd hfit) := by
  have hend : s.addr + s.block.size < 2 ^ 64 := (Header.ok_of_mem s.header_mem).end_lt
  have h48 : 48 ≤ s.block.usage ∧ s.block.usage ≤ s.block.size := s.block.usage_ok.resolve_left hu
  have hat₁ := s.at_splitHeader hr hu size
  have hat := s.at_header hr
  rw [malloc_split_eq env _ hr s hu (s.accessible_rest hr (by omega)) (by omega)]
  obtain ⟨next, hnext⟩ : ∃ next, first Header.addr s.post 0 = next := ⟨_, rfl⟩
  rw [hnext] at hat hat₁ ⊢
  let x := (s.block.rest h.g_allocations size hr.count_lt hd hfit).header s.region.start s.region.len
    (s.addr + s.block.usage)
  have hxa : x.addr = s.addr + s.block.usage := rfl
  have hxs : s.splitHeader h size = x := by
    unfold Spot.splitHeader
    rw [uadd_eq (by unfold sizeof_mem_block; omega)]
    rfl
  rw [hxs] at hat₁
  generalize hh₁ : s.splitHeap h size next = h₁ at hat₁ ⊢
  rw [Spot.splitHeap, hxs] at hh₁
  have hmem₁ : ∀ a, a < s.addr ∨ s.addr + 48 ≤ a ∧ a < x.addr ∨ x.addr + 48 ≤ a → h₁.mem a = h.mem a := by
    intro a ha
    rw [← hh₁]
    exact (put_mem (by omega)).trans ((put_mem (by omega)).trans (putHeader_mem (h := h.countAllocation) (by omega)))
  have hm₁ : ∀ r ∈ ranges rs, r ∈ h₁.mapped := hh₁ ▸ hr.mapped
  have hpay : h₁.accessible (s.addr + s.block.usage + 48) size = true := s.accessible hm₁ (by omega) (by omega)
  obtain ⟨h₂, hsc, hmapped, hlog, hhead, hcount, hmem⟩ := scribble_spec env hpay
  refine ⟨h₂, by rw [hsc]; rfl, ?_⟩
  have hold : At h₁ { s.header with size := s.block.usage } x.addr := by
    have hold₀ : At (h.countAllocation.putHeader x next) s.header next := by
      apply hat.congr
      intro a _ ha
      apply putHeader_mem (h := h.countAllocation)
      simp only [Spot.header, Block.header] at ha
      omega
    have hold₁ : At ((h.countAllocation.putHeader x next).put s.addr .size s.block.usage)
        { s.header with size := s.block.usage } next :=
      hold₀.put (by omega) rfl fun f => by cases f <;> rfl
    rw [← hh₁]
    exact hold₁.put (by omega) rfl fun f => by cases f <;> rfl
  subst hh₁
  refine hr.allocates _ _ (by simp) hmapped hlog hhead hcount ?_ ⟨?_, ?_, trivial⟩
    ⟨by omega, by omega, .inr (by omega)⟩ ?_ ⟨[s.block.alloc_id], .refl _, .swap _ _ _⟩
  · intro a ha
    unfold Spot.Spare at ha
    rw [hmem a (by omega), hmem₁ a (by omega)]
  · apply hold.congr
    intro a _ ha
    simp only [Spot.header, Block.header] at ha
    exact hmem a (by omega)
  · change At h₂ x (first Header.addr s.post 0)
    rw [hnext]
    apply hat₁.congr
    intro a _ ha
    exact hmem a (by omega)
  · intro q u
    rw [layout, layout, layout, inUse_cons, inUse_cons, inUse_cons]
    simp only [Block.shrink, Block.rest, Block.header, Spot.header, not_inUse_nil, or_false]
    omega

/-! ## Mapping a region -/

theorem PageSize.dvd_bytes (page : PageSize) : 2 ^ 12 ∣ page.bytes := Nat.pow_dvd_pow 2 page.log_ge

/-- The length to map is rounded up, or has wrapped to `0`. -/
theorem region_size_spec (page : PageSize) (size : Nat) :
    2 ^ 12 ∣ region_size page size ∧
      (region_size page size = 0 ∨ uadd size sizeof_mem_block ≤ region_size page size) := by
  have hreal := uadd_lt size sizeof_mem_block
  generalize hR : uadd size sizeof_mem_block = real at hreal
  have hpos : 0 < page.bytes := Nat.two_pow_pos _
  obtain ⟨k, hk⟩ : page.bytes ∣ 2 ^ 64 := Nat.pow_dvd_pow 2 (by have := page.log_le; omega)
  obtain ⟨n, hn, hle, hnk⟩ : ∃ n, region_size page size = umul n page.bytes ∧ real ≤ n * page.bytes ∧ n ≤ k := by
    have hdm := Nat.div_add_mod real page.bytes
    have hmod := Nat.mod_lt real hpos
    have hdk : real / page.bytes < k := Nat.div_lt_of_lt_mul (hk ▸ hreal)
    unfold region_size
    simp only [hR]
    by_cases h0 : real % page.bytes ≠ 0
    · refine ⟨real / page.bytes + 1, by rw [if_pos h0], ?_, hdk⟩
      rw [Nat.add_mul, Nat.one_mul, Nat.mul_comm]
      omega
    · refine ⟨_, by rw [if_neg h0], ?_, Nat.le_of_lt hdk⟩
      rw [Nat.mul_comm]
      omega
  have hmul : n * page.bytes ≤ 2 ^ 64 := by rw [hk, Nat.mul_comm]; exact Nat.mul_le_mul_left _ hnk
  rw [hn]
  constructor
  · exact (Nat.dvd_mod_iff (Nat.pow_dvd_pow 2 (by omega))).mpr (Dvd.dvd.mul_left page.dvd_bytes n)
  · rcases Nat.lt_or_eq_of_le hmul with hlt | heq
    · right
      rw [umul_eq hlt]
      exact hle
    · left
      rw [umul, heq, Nat.mod_self]

/-- **Appending a block** links the last block of the list to it. -/
theorem append_block_spec (hr : Represents h rs) (blk : Nat) (hblk : blk < 2 ^ 64) : ∃ h', append_block blk h = .ok h' ∧
    h'.mapped = h.mapped ∧ h'.log = h.log ∧ h'.g_allocations = h.g_allocations ∧
      h'.g_head = first Header.addr (flat rs) blk ∧ Seg Header.addr (At h') (flat rs) blk ∧
        ∀ a, ¬InHeader rs a → h'.mem a = h.mem a := by
  have hne : ∀ x ∈ flat rs, x.addr ≠ 0 := fun x hx => (Header.ok_of_mem hx).addr_ne
  have hhead := hr.head
  have hseg := hr.seg
  have hap := flat_pairwise hr.apart
  have htr := hr.blockList.traverse
    (fun cur _ => do
      let next ← h.get cur .next
      return if next = 0 then .inr (some cur) else .inl ())
    (fun x e (_ : Unit) => if e = 0 then .inr (some x.addr) else .inl ()) (fun _ => none)
    (fun x hx e _ hat => by rw [hr.get hx hat]; rfl) ()
  rcases List.eq_nil_or_concat (flat rs) with hnil | ⟨xs, y, hxs⟩
  · rw [hnil] at hhead
    refine ⟨{ h with g_head := blk }, if_pos hhead, rfl, rfl, rfl, ?_, ?_, fun _ _ => rfl⟩
    · rw [hnil]
      rfl
    · rw [hnil]
      trivial
  · rw [List.concat_eq_append] at hxs
    have hy : y ∈ flat rs := by rw [hxs]; simp
    have hhead0 : h.g_head ≠ 0 := by
      rw [hhead, hxs]
      cases xs with
      | nil => exact hne y hy
      | cons x xs => exact hne x (by rw [hxs]; simp)
    refine ⟨h.put y.addr .next blk, ?_, rfl, rfl, rfl, ?_, ?_, ?_⟩
    · unfold append_block
      have hlast : walkList Header.addr (fun x e (_ : Unit) => if e = 0 then .inr (some x.addr) else .inl ())
          (fun _ => none) (xs ++ [y]) () = some y.addr := walkList_link (hxs ▸ hne) rfl
      rw [if_neg hhead0, htr, hxs, hlast]
      exact set_eq (accessible_header hr.mapped hy .next)
    · rw [put_g_head, hhead, hxs, first_append, first_append]
      rfl
    · rw [hxs] at hseg hap ⊢
      apply hseg.retarget
      · intro x hx e hat
        have := (Header.ok_of_mem (hxs ▸ List.mem_append_left [y] hx : x ∈ flat rs)).header_le
        have := (Header.ok_of_mem hy).header_le
        have := (List.pairwise_append.mp hap).2.2 x hx y (List.mem_singleton_self y)
        unfold Header.Apart at this
        apply hat.put_apart
        omega
      · intro hat
        exact hat.put hblk rfl fun f => by cases f <;> rfl
    · intro a ha
      have : ¬(y.addr ≤ a ∧ a < y.addr + 48) := fun h => ha ⟨y, hy, h⟩
      apply put_mem
      omega

/-- The region of a new mapping of `len` bytes at `start`, in use for `size` bytes under the number `id`. -/
def Region.fresh (start len id size : Nat) (hid : id < 2 ^ 64) (hd : 8 ∣ size) (hfit : size + 48 ≤ len) (hlen : 8 ∣ len)
    (hstart : start ≠ 0) (hdvd : 8 ∣ start) (hend : start + len < 2 ^ 64) : Region where
  start := start
  len := len
  blocks := [⟨id, len, size + 48, hid, by omega, hlen, by omega, .inr ⟨by omega, hfit⟩⟩]
  total_eq := by simp
  used := ⟨_, List.mem_singleton_self _, Nat.succ_ne_zero _⟩
  start_ne := hstart
  start_dvd := hdvd
  end_lt := hend

/-- The heap `h'` has a new mapping with the single block `x` at the end of the list. -/
structure Appended (h : Heap) (rs : List Region) (x : Header) (h' : Heap) : Prop where
  mapped : h'.mapped = (x.addr, x.size) :: h.mapped
  log : h'.log = h.log ++ [.mmap x.addr x.size]
  count : h'.g_allocations = uadd h.g_allocations 1
  head : h'.g_head = first Header.addr (flat rs) x.addr
  seg : Seg Header.addr (At h') (flat rs) x.addr
  at_new : At h' x 0
  mem : ∀ a, a < x.addr ∨ x.addr + x.size ≤ a → ¬InHeader rs a → h'.mem a = h.mem a

/-- The headers of other regions lie apart from a new mapping. -/
theorem header_apart_of_ranges {start len : Nat} (hap : ∀ p ∈ ranges rs, RangeApart p (start, len)) (hy : y ∈ flat rs) :
    48 ≤ y.size ∧ (y.addr + y.size ≤ start ∨ start + len ≤ y.addr) := by
  obtain ⟨r, hr, hyr⟩ := mem_flat.mp hy
  obtain ⟨hok, _, _, hlo, hhi⟩ := Region.of_mem hyr
  have hap := hap _ (List.mem_map_of_mem hr)
  have := hok.header_le
  unfold RangeApart at hap
  dsimp only at hap
  omega

/-- A mapped region, whatever the size: the writes up to the payload. -/
theorem malloc_map_eq {start : Nat} (hr : Represents h rs) (henv : env.mmap = some start)
    (hmap : h.mappable page (region_size page size) start) :
    ∃ h₁, malloc_map page env size h = (scribble env (start + 48) size h₁ >>= fun h => .ok (h, start + 48)) ∧
      Appended h rs ⟨start, h.g_allocations, region_size page size, uadd size sizeof_mem_block, start,
        region_size page size⟩ h₁ := by
  have hfilter : env.mmap.filter (fun start => h.mappable page (region_size page size) start) = some start := by
    rw [henv, Option.filter_some, if_pos (decide_eq_true hmap)]
  obtain ⟨hpos, hne, hdvd, hend, hfree⟩ := hmap
  obtain ⟨hlen12, _⟩ := region_size_spec page size
  unfold malloc_map
  simp only [hfilter]
  have hreal := uadd_lt size sizeof_mem_block
  generalize region_size page size = len at *
  generalize uadd size sizeof_mem_block = real at *
  let x : Header := ⟨start, h.g_allocations, len, real, start, len⟩
  have hx : ∀ f, x.field 0 f < 2 ^ 64 := by
    intro f
    have hid := hr.count_lt
    cases f <;> simp only [Header.field, x] <;> omega
  generalize hh₁ : (h.map len start).countAllocation.putHeader x 0 = h₁
  have hmem₁ : ∀ a, a < start ∨ start + len ≤ a → h₁.mem a = h.mem a := by
    intro a ha
    rw [← hh₁]
    exact (putHeader_mem (h := (h.map len start).countAllocation) (by show a < start ∨ start + 48 ≤ a; omega)).trans
      (fillBytes_of_not_mem ha)
  have hmapped₁ : h₁.mapped = (start, len) :: h.mapped := by rw [← hh₁]; rfl
  have hlog₁ : h₁.log = h.log ++ [.mmap start len] := by rw [← hh₁]; rfl
  have hcount₁ : h₁.g_allocations = uadd h.g_allocations 1 := by rw [← hh₁]; rfl
  have hat₁ : At h₁ x 0 := by rw [← hh₁]; exact at_putHeader hx
  have hapart : ∀ p ∈ ranges rs, RangeApart p (start, len) := fun p hp => hfree p (hr.mapped p hp)
  have hr₁ : Represents h₁ rs := by
    apply hr.frame
    · rw [← hh₁]
      rfl
    · intro p hp
      rw [hmapped₁]
      exact List.mem_cons_of_mem _ (hr.mapped p hp)
    · rw [hcount₁]
      exact uadd_lt _ _
    · intro p hp a h₁ h₂
      have := hapart p hp
      unfold RangeApart at this
      dsimp only at this
      exact hmem₁ a (by omega)
  obtain ⟨h₂, happ, hmapped₂, hlog₂, hcount₂, hhead₂, hseg₂, hmem₂⟩ := append_block_spec hr₁ start (by omega)
  refine ⟨h₂, ?_, hmapped₂.trans hmapped₁, hlog₂.trans hlog₁, hcount₂.trans hcount₁, hhead₂, hseg₂, ?_, ?_⟩
  · have hset : ∀ (h' : Heap) f v, h'.mapped = (h.map len start).mapped →
        h'.set start f v = .ok (h'.put start f v) := by
      intro h' f v hm
      have := f.offset_le
      refine set_eq (accessible_of_mem (r := (start, len)) (hm ▸ List.mem_cons_self) ?_ ?_) <;> dsimp only <;> omega
    have hp : uadd start sizeof_mem_block = start + 48 := uadd_eq (by unfold sizeof_mem_block; omega)
    simp only [hset, put_mapped, countAllocation_mapped, ok_bind, pure_ok, hp]
    change (append_block start ((h.map len start).countAllocation.putHeader x 0) >>= _) = _
    rw [hh₁, happ]
    rfl
  · apply hat₁.congr
    intro a (ha : start ≤ a) (ha' : a < start + 48)
    apply hmem₂
    rintro ⟨y, hy, hlo, hhi⟩
    have := header_apart_of_ranges hapart hy
    omega
  · intro a ha hna
    exact (hmem₂ a hna).trans (hmem₁ a ha)

/-- **`malloc` maps a region** where the system lets it. -/
theorem malloc_map_success {start : Nat} (page : PageSize) (env : Env) (size : Nat) (hr : Represents h rs)
    (hd : 8 ∣ size) (hsize : size + 48 < 2 ^ 64) (henv : env.mmap = some start)
    (hmap : h.mappable page (region_size page size) start) :
    ∃ h' r, malloc_map page env size h = .ok (h', start + 48) ∧
      r.headers = [⟨start, h.g_allocations, region_size page size, size + 48, start, region_size page size⟩] ∧
        h'.mapped = (start, region_size page size) :: h.mapped ∧ Allocates size h rs (start + 48) h' (rs ++ [r]) := by
  obtain ⟨h₁, heq, happ⟩ := malloc_map_eq hr henv hmap
  obtain ⟨hpos, hne, hdvd, hend, hfree⟩ := hmap
  obtain ⟨hlen12, hlen⟩ := region_size_spec page size
  have hreal : uadd size sizeof_mem_block = size + 48 := uadd_eq hsize
  rw [heq]
  rw [hreal] at happ hlen
  generalize region_size page size = len at *
  have hfit : size + 48 ≤ len := hlen.resolve_left (by omega)
  have hapart : ∀ p ∈ ranges rs, RangeApart p (start, len) := fun p hp => hfree p (hr.mapped p hp)
  let r := Region.fresh start len h.g_allocations size hr.count_lt hd hfit (by omega) hne
    (by have := page.dvd_bytes.trans hdvd; omega) hend
  let x : Header := ⟨start, h.g_allocations, len, size + 48, start, len⟩
  have hflat : flat (rs ++ [r]) = flat rs ++ [x] := by simp [r, Region.headers, Region.fresh, layout, Block.header, x]
  have hranges : ranges (rs ++ [r]) = ranges rs ++ [(start, len)] := ranges_append
  have hpay : h₁.accessible (start + 48) size = true := by
    refine accessible_of_mem (r := (start, len)) (happ.mapped ▸ List.mem_cons_self) ?_ ?_ <;> dsimp only <;> omega
  obtain ⟨h₂, hsc, hmapped, hlog, hhead, hcount, hmem⟩ := scribble_spec env hpay
  have hmapped' : h₂.mapped = (start, len) :: h.mapped := hmapped.trans happ.mapped
  have hcount' : h₂.g_allocations = uadd h.g_allocations 1 := hcount.trans happ.count
  refine ⟨h₂, r, by rw [hsc]; rfl, rfl, hmapped', ⟨?_, ?_, ?_, ?_, hcount' ▸ uadd_lt _ _⟩, ?_, ?_, ?_, ?_, hcount',
    .inr ⟨start, len, hlog.trans happ.log, hmapped', hranges⟩⟩
  · rw [hhead, happ.head, hflat, first_append]
    rfl
  · rw [hflat, seg_append]
    refine ⟨?_, ?_, trivial⟩
    · apply happ.seg.mono
      intro y hy e hat
      have := header_apart_of_ranges hapart hy
      apply hat.congr
      intro a _ _
      apply hmem
      omega
    · apply happ.at_new.congr
      intro a (ha : start ≤ a) (ha' : a < start + 48)
      exact hmem a (by omega)
  · rw [hranges, List.pairwise_append]
    exact ⟨hr.apart, List.pairwise_singleton _ _, fun p hp q hq => List.mem_singleton.mp hq ▸ hapart p hp⟩
  · intro p hp
    rw [hranges, List.mem_append, List.mem_singleton] at hp
    rw [hmapped']
    rcases hp with hp | rfl
    · exact List.mem_cons_of_mem _ (hr.mapped p hp)
    · exact List.mem_cons_self
  · rintro u ⟨y, hy, _, he, _⟩
    have := header_apart_of_ranges hapart hy
    omega
  · intro q u
    rw [hflat, inUse_append, inUse_cons]
    apply or_congr_right
    simp only [not_inUse_nil, or_false, x]
    omega
  · intro q u hu a h₁ h₂
    obtain ⟨p, hp, hlo, hhi⟩ := hu.mem_range
    have := hapart p hp
    unfold RangeApart at this
    dsimp only at this
    refine (hmem a (by omega)).trans (happ.mem a ?_ (hu.not_inHeader hr.apart h₁ h₂))
    dsimp only
    omega
  · refine ⟨(flat rs).map Header.alloc_id, .refl _, ?_⟩
    rw [hflat, List.map_append]
    exact List.perm_append_comm

/-- **`malloc` maps a region**, or fails and changes nothing. -/
theorem malloc_map_spec (page : PageSize) (env : Env) (hr : Represents h rs) (hd : 8 ∣ size)
    (hsize : size + 48 < 2 ^ 64) : ∃ h' p, malloc_map page env size h = .ok (h', p) ∧ Serves size h rs p h' := by
  cases hfilter : env.mmap.filter fun start => h.mappable page (region_size page size) start with
  | none =>
    refine ⟨h, 0, ?_, .inl ⟨rfl, rfl⟩⟩
    unfold malloc_map
    simp only [hfilter]
    rfl
  | some start =>
    obtain ⟨henv, hmap⟩ := Option.filter_eq_some_iff.mp hfilter
    obtain ⟨h', r, hres, _, _, hall⟩ := malloc_map_success page env size hr hd hsize henv (of_decide_eq_true hmap)
    exact ⟨h', _, hres, .inr ⟨Nat.succ_ne_zero _, _, hall⟩⟩

/-! ## `malloc` -/

/-- Sizes that do not wrap, with their header. -/
theorem align_spec (hsize : size ≤ 2 ^ 64 - 56) : 8 ∣ align size ∧ size ≤ align size ∧ align size + 48 < 2 ^ 64 := by
  unfold align
  split
  · rw [uadd_eq (by omega)]
    omega
  · omega

/-- Without room in the list `malloc` maps a region. -/
theorem malloc_eq_map (page : PageSize) (hr : Represents h rs) (hread : env.Readable)
    (hno : reuseList env (align size) (flat rs) = 0) : malloc page env size h = malloc_map page env (align size) h := by
  unfold malloc
  dsimp only
  rw [reuse_eq hr hread, ok_bind, hno]
  rfl

/-- **`malloc` allocates**, or fails and changes nothing, where it can read the name of its policy. -/
theorem malloc_spec (page : PageSize) (hr : Represents h rs) (hread : env.Readable) (hsize : size ≤ 2 ^ 64 - 56) :
    ∃ h' p, malloc page env size h = .ok (h', p) ∧ Serves (align size) h rs p h' := by
  obtain ⟨hd, _, hlt⟩ := align_spec hsize
  by_cases h0 : reuseList env (align size) (flat rs) = 0
  · rw [malloc_eq_map page hr hread h0]
    exact malloc_map_spec page env hr hd hlt
  · have hroom := reuseList_spec env (align size) (flat rs)
    unfold malloc
    dsimp only
    rw [reuse_eq hr hread, ok_bind]
    generalize reuseList env (align size) (flat rs) = blk at *
    obtain ⟨x, hx, rfl, hfit⟩ := hroom.resolve_left h0
    rw [uadd_eq (by unfold sizeof_mem_block; omega)] at hfit
    obtain ⟨s, rfl⟩ := exists_spot hx
    rw [if_pos h0, hr.get hx (s.at_header hr), ok_bind]
    have hok := Header.ok_of_mem hx
    by_cases hu : s.block.usage = 0
    · have hfit₀ : align size + 48 ≤ s.block.size := by
        rw [← Nat.sub_zero s.block.size, ← hu]
        exact hfit
      obtain ⟨h', hres, hall⟩ := malloc_reuse_spec env hr s hu hd hfit₀
      refine ⟨h', _, (if_pos hu).trans hres, .inr ⟨by omega, _, hall⟩⟩
    · obtain ⟨h', hres, hall⟩ := malloc_split_spec env hr s hu hd hfit
      refine ⟨h', _, (if_neg hu).trans hres, .inr ⟨by omega, _, hall⟩⟩

/-! ## Any size -/

/-- The search finds a block, or the system lets `malloc` map one. -/
def Serviceable (page : PageSize) (env : Env) (size : Nat) (h : Heap) (rs : List Region) : Prop :=
  reuseList env (align size) (flat rs) ≠ 0 ∨
    ∃ start, env.mmap = some start ∧ h.mappable page (region_size page (align size)) start

/-- **What `malloc` returns**, whatever the size: `NULL` and nothing has changed, or the payload behind a header that it
has written. -/
theorem malloc_header (hr : Represents h rs) (hm : ∀ r ∈ h.mapped, r.1 + r.2 < 2 ^ 64)
    (hres : malloc page env size h = .ok (h', p)) :
    (¬Serviceable page env size h rs ∧ p = 0 ∧ h' = h) ∨
      Serviceable page env size h rs ∧ ∃ h₁ x next, At h₁ x next ∧ 8 ≤ x.addr ∧ x.addr + 48 < 2 ^ 64 ∧
      x.usage = uadd (align size) sizeof_mem_block ∧ (∀ r ∈ h₁.mapped, r.1 + r.2 < 2 ^ 64) ∧
        (scribble env (x.addr + 48) (align size) h₁ >>= fun h => .ok (h, x.addr + 48)) = .ok (h', p) := by
  have hread := readable_of_malloc hres
  by_cases h0 : reuseList env (align size) (flat rs) = 0
  · rw [malloc_eq_map page hr hread h0] at hres
    cases hfilter : env.mmap.filter fun start => h.mappable page (region_size page (align size)) start with
    | none =>
      unfold malloc_map at hres
      simp only [hfilter] at hres
      obtain ⟨rfl, rfl⟩ := Prod.mk.inj (Except.ok.inj hres)
      refine .inl ⟨?_, rfl, rfl⟩
      rintro (hfound | ⟨start, henv, hmap⟩)
      · exact hfound h0
      · rw [henv, Option.filter_some, if_pos (decide_eq_true hmap)] at hfilter
        cases hfilter
    | some start =>
      obtain ⟨henv, hmap⟩ := Option.filter_eq_some_iff.mp hfilter
      have hmap := of_decide_eq_true hmap
      have hserve : Serviceable page env size h rs := .inr ⟨start, henv, hmap⟩
      obtain ⟨h₁, heq, happ⟩ := malloc_map_eq hr henv hmap
      obtain ⟨hpos, hne, hdvd, hend, _⟩ := hmap
      have hlen := (region_size_spec page (align size)).1
      have hpage : 8 ∣ start := (by decide : 8 ∣ 2 ^ 12).trans (page.dvd_bytes.trans hdvd)
      rw [heq] at hres
      refine .inr ⟨hserve, h₁, _, 0, happ.at_new, ?_, ?_, rfl, fun r hr => ?_, hres⟩
      · dsimp only
        omega
      · dsimp only
        omega
      · rw [happ.mapped] at hr
        rcases List.mem_cons.mp hr with rfl | hr
        · exact hend
        · exact hm r hr
  · obtain ⟨x, hx, he, _⟩ := (reuseList_spec env (align size) (flat rs)).resolve_left h0
    obtain ⟨s, rfl⟩ := exists_spot hx
    have hok := Header.ok_of_mem hx
    have h48 := hok.header_le
    have hend : s.addr + s.block.size < 2 ^ 64 := hok.end_lt
    have haddr : 8 ≤ s.addr := Nat.le_of_dvd (Nat.pos_of_ne_zero hok.addr_ne) hok.addr_dvd
    have hget : h.get s.addr .usage = .ok s.block.usage := hr.get hx (s.at_header hr)
    unfold malloc at hres
    dsimp only at hres
    rw [reuse_eq hr hread, ok_bind, if_pos h0, he, show s.header.addr = s.addr from rfl, hget, ok_bind] at hres
    by_cases hu : s.block.usage = 0
    · rw [if_pos hu, malloc_reuse_eq hr] at hres
      refine .inr ⟨.inl h0, _, _, _, s.at_takeHeap hr (align size), haddr, ?_, rfl, hm, hres⟩
      exact Nat.lt_of_le_of_lt (Nat.add_le_add_left h48 _) hend
    · rw [if_neg hu] at hres
      have hacc := accessible_of_malloc_split hr s hu hres
      obtain ⟨r, hrm, hle⟩ := accessible_le (hacc .next) (by decide)
      have hlt : s.addr + s.block.usage + 48 < 2 ^ 64 := Nat.lt_of_le_of_lt hle (hm r hrm)
      rw [malloc_split_eq env _ hr s hu hacc hlt] at hres
      refine .inr ⟨.inl h0, _, _, _, s.at_splitHeader hr hu (align size), ?_, hlt, rfl, hm, hres⟩
      exact Nat.le_add_right_of_le haddr

/-- What scribbling leaves as it is. -/
theorem scribble_ok (hres : (scribble env p size h >>= fun h => .ok (h, p)) = .ok (h', q)) :
    q = p ∧ h'.mapped = h.mapped ∧ ∀ a, a < p → h'.mem a = h.mem a := by
  obtain ⟨h₂, hsc, hres⟩ := bind_ok hres
  obtain ⟨rfl, rfl⟩ := Prod.mk.inj (Except.ok.inj hres)
  unfold scribble at hsc
  split at hsc
  · unfold Heap.memset at hsc
    split at hsc
    · rw [← Except.ok.inj hsc]
      exact ⟨rfl, rfl, fun a ha => fillBytes_of_not_mem (.inl ha)⟩
    · cases hsc
  · rw [← Except.ok.inj hsc]
    exact ⟨rfl, rfl, fun a _ => rfl⟩

/-- **`malloc` returns a pointer** iff it can get memory. -/
theorem malloc_ne_zero (hr : Represents h rs) (hm : ∀ r ∈ h.mapped, r.1 + r.2 < 2 ^ 64)
    (hres : malloc page env size h = .ok (h', p)) : p ≠ 0 ↔ Serviceable page env size h rs := by
  rcases malloc_header hr hm hres with ⟨hno, hp, _⟩ | ⟨hserve, h₁, x, _, _, _, _, _, _, hres⟩
  · simp [hno, hp]
  · obtain ⟨rfl, _⟩ := scribble_ok hres
    simp [hserve]

/-- **What `malloc` writes into the header** of what it returns, whatever the size. -/
theorem malloc_usage (hr : Represents h rs) (hm : ∀ r ∈ h.mapped, r.1 + r.2 < 2 ^ 64)
    (hres : malloc page env size h = .ok (h', p)) (hp : p ≠ 0) :
    h'.load (usub p sizeof_mem_block) .usage = uadd (align size) sizeof_mem_block := by
  obtain ⟨_, h₁, x, next, hat, _, hlt, husage, _, hres⟩ :=
    (malloc_header hr hm hres).resolve_left fun h0 => hp h0.2.1
  obtain ⟨rfl, _, hmem⟩ := scribble_ok hres
  have haddr : usub (x.addr + 48) sizeof_mem_block = x.addr := by
    rw [usub_eq (by unfold sizeof_mem_block; omega) hlt]
    rfl
  rw [haddr, load_congr fun a _ ha => hmem a ha, ← husage]
  exact hat .usage

end Cs326.Allocator
