import Cs326.Allocator.Regions
import Mathlib.Data.List.Perm.Subperm

/-!
# Regions in memory

`Represents h rs`: the list that starts in `g_head` is the list of all headers of the regions `rs`, and the regions are
mapped and disjoint. Reads and writes of headers in place succeed (`Represents.get`, `Represents.set`), the loops over
the list are folds over the headers (`traverse_eq`), and a change inside one block gives the regions with that block
replaced (`Represents.replace`).
-/

namespace Cs326.Allocator

variable {h h' : Heap} {rs : List Region} {x y : Header} {field f : Field} {v a n next blk : Nat}

/-! ## Accesses -/

theorem covered_zero (ranges : List (Nat × Nat)) (k a : Nat) : covered ranges k a 0 = true := by
  cases k <;> simp [covered]

/-- A range inside one mapping is accessible. -/
theorem accessible_of_mem {r : Nat × Nat} (hr : r ∈ h.mapped) (h₁ : r.1 ≤ a) (h₂ : a + n ≤ r.1 + r.2) :
    h.accessible a n = true := by
  rcases Nat.eq_zero_or_pos n with rfl | hn
  · exact covered_zero _ _ _
  · unfold Heap.accessible
    obtain ⟨k, hk⟩ : ∃ k, h.mapped.length = k + 1 := ⟨h.mapped.length - 1, by have := List.length_pos_of_mem hr; omega⟩
    rw [hk, covered, Bool.or_eq_true, List.any_eq_true]
    refine .inr ⟨r, hr, ?_⟩
    rw [show n - (r.1 + r.2 - a) = 0 by omega, covered_zero]
    simp only [Bool.and_true, Bool.and_eq_true, decide_eq_true_eq]
    omega

/-- Accessible bytes end in a mapping. -/
theorem accessible_le (ha : h.accessible a n = true) (hn : 0 < n) : ∃ r ∈ h.mapped, a + n ≤ r.1 + r.2 := by
  unfold Heap.accessible at ha
  generalize h.mapped.length = k at ha
  induction k generalizing a n with
  | zero => simp [covered] at ha; omega
  | succ k ih =>
    rw [covered, Bool.or_eq_true, List.any_eq_true] at ha
    obtain ⟨r, hr, hra⟩ := ha.resolve_left (by simp; omega)
    simp only [Bool.and_eq_true, decide_eq_true_eq] at hra
    by_cases hle : a + n ≤ r.1 + r.2
    · exact ⟨r, hr, hle⟩
    · have hrest : 0 < n - (r.1 + r.2 - a) := by omega
      obtain ⟨r', hr', hle'⟩ := ih hrest hra.2
      exact ⟨r', hr', by omega⟩

/-- The member of a block. -/
def Heap.load (h : Heap) (blk : Nat) (field : Field) : Nat := loadBytes h.mem 8 (blk + field.offset)

theorem Heap.load_lt (h : Heap) (blk : Nat) (field : Field) : h.load blk field < 2 ^ 64 := loadBytes_lt ..

theorem get_eq (ha : h.accessible (blk + field.offset) 8) : h.get blk field = .ok (h.load blk field) := if_pos ha

theorem set_eq (ha : h.accessible (blk + field.offset) 8) : h.set blk field v = .ok (h.put blk field v) := if_pos ha

theorem accessible_of_set (hs : h.set blk field v = .ok h') :
    h.accessible (blk + field.offset) 8 = true ∧ h' = h.put blk field v := by
  unfold Heap.set at hs
  split at hs
  · exact ⟨‹_›, (Except.ok.inj hs).symm⟩
  · cases hs

theorem Field.offset_le (field : Field) : field.offset + 8 ≤ 48 := by cases field <;> decide

theorem Field.offset_apart (hne : f ≠ field) : f.offset + 8 ≤ field.offset ∨ field.offset + 8 ≤ f.offset := by
  cases f <;> cases field <;> first | exact absurd rfl hne | decide

@[simp] theorem put_mapped : (h.put blk field v).mapped = h.mapped := (rfl)
@[simp] theorem put_g_head : (h.put blk field v).g_head = h.g_head := rfl
@[simp] theorem countAllocation_mapped : h.countAllocation.mapped = h.mapped := (rfl)
@[simp] theorem countAllocation_load : h.countAllocation.load blk field = h.load blk field := rfl

/-- A write changes the header it writes to. -/
theorem put_mem (ha : a < blk ∨ blk + 48 ≤ a) : (h.put blk field v).mem a = h.mem a := by
  have := field.offset_le
  exact storeBytes_of_not_mem (by omega)

theorem load_put (hv : v < 2 ^ 64) : (h.put blk field v).load blk f = if f = field then v else h.load blk f := by
  unfold Heap.load Heap.put
  split
  · rename_i hf; subst hf; exact loadBytes_storeBytes hv
  · rename_i hf
    apply loadBytes_storeBytes_of_disjoint
    have := Field.offset_apart hf
    omega

/-- A load sees the header it reads from. -/
theorem load_congr (hm : ∀ a, blk ≤ a → a < blk + 48 → h'.mem a = h.mem a) : h'.load blk f = h.load blk f := by
  have := f.offset_le
  exact loadBytes_congr fun a _ _ => hm a (by omega) (by omega)

/-! ## Headers in memory -/

/-- The header is in memory and links to `next`. -/
def At (h : Heap) (x : Header) (next : Nat) : Prop := ∀ f, h.load x.addr f = x.field next f

theorem At.congr (hat : At h x next) (hm : ∀ a, x.addr ≤ a → a < x.addr + 48 → h'.mem a = h.mem a) : At h' x next :=
  fun f => (load_congr hm).trans (hat f)

/-- One member of a header is written. -/
theorem At.put {next' : Nat} (hat : At h x next) (hv : v < 2 ^ 64) (haddr : y.addr = x.addr)
    (hf : ∀ f, y.field next' f = if f = field then v else x.field next f) : At (h.put x.addr field v) y next' := by
  intro f
  rw [haddr, load_put hv, hf, hat f]

theorem At.put_apart {field : Field} (hat : At h x next) (hap : x.addr + 48 ≤ blk ∨ blk + 48 ≤ x.addr) :
    At (h.put blk field v) x next := hat.congr fun _ _ _ => put_mem (by omega)

/-- The header is written member by member. -/
def Heap.putHeader (h : Heap) (x : Header) (next : Nat) : Heap :=
  (((((h.put x.addr .alloc_id x.alloc_id).put x.addr .size x.size).put x.addr .usage x.usage).put x.addr .region_start
    x.region_start).put x.addr .region_size x.region_size).put x.addr .next next

theorem putHeader_mem (ha : a < x.addr ∨ x.addr + 48 ≤ a) : (h.putHeader x next).mem a = h.mem a := by
  unfold Heap.putHeader
  rw [put_mem ha, put_mem ha, put_mem ha, put_mem ha, put_mem ha, put_mem ha]

theorem at_putHeader (hx : ∀ f, x.field next f < 2 ^ 64) : At (h.putHeader x next) x next := by
  intro f
  unfold Heap.putHeader
  rw [load_put (show next < _ from hx .next), load_put (show x.region_size < _ from hx .region_size),
    load_put (show x.region_start < _ from hx .region_start), load_put (show x.usage < _ from hx .usage),
    load_put (show x.size < _ from hx .size), load_put (show x.alloc_id < _ from hx .alloc_id)]
  cases f <;> rfl

/-- The list from `g_head` is the list of the headers of `rs`. -/
structure Represents (h : Heap) (rs : List Region) : Prop where
  head : h.g_head = first Header.addr (flat rs) 0
  seg : Seg Header.addr (At h) (flat rs) 0
  apart : (ranges rs).Pairwise RangeApart
  mapped : ∀ r ∈ ranges rs, r ∈ h.mapped
  count_lt : h.g_allocations < 2 ^ 64

/-- The blocks of the list that starts in `g_head`. -/
structure Chain (h : Heap) (xs : List Header) : Prop where
  head : h.g_head = first Header.addr xs 0
  seg : Seg Header.addr (At h) xs 0

theorem Represents.chain (hr : Represents h rs) : Chain h (flat rs) := ⟨hr.head, hr.seg⟩

/-- The bytes of a block are mapped. -/
theorem accessible_of_flat (hm : ∀ r ∈ ranges rs, r ∈ h.mapped) (hx : x ∈ flat rs) (h₁ : x.addr ≤ a)
    (h₂ : a + n ≤ x.addr + x.size) : h.accessible a n = true := by
  obtain ⟨r, hr, hxr⟩ := mem_flat.mp hx
  obtain ⟨_, _, _, hlo, hhi⟩ := Region.of_mem hxr
  exact accessible_of_mem (hm _ (List.mem_map_of_mem hr)) (by dsimp only; omega) (by dsimp only; omega)

theorem accessible_header (hm : ∀ r ∈ ranges rs, r ∈ h.mapped) (hx : x ∈ flat rs) (field : Field) :
    h.accessible (x.addr + field.offset) 8 = true := by
  have := field.offset_le
  have := (Header.ok_of_mem hx).header_le
  exact accessible_of_flat hm hx (by omega) (by omega)

theorem Represents.get (hr : Represents h rs) (hx : x ∈ flat rs) (hat : At h x next) :
    h.get x.addr field = .ok (x.field next field) := by
  rw [get_eq (accessible_header hr.mapped hx field), hat]

/-! ## Loops -/

/-- What is in memory at an address is determined. -/
theorem At.unique {next' : Nat} (hxy : x.addr = y.addr) (hx : At h x next) (hy : At h y next') :
    x = y ∧ next = next' := by
  have hfield : ∀ f, x.field next f = y.field next' f := fun f => by rw [← hx f, ← hy f, hxy]
  cases x
  cases y
  obtain rfl := hxy
  obtain rfl := hfield .alloc_id
  obtain rfl := hfield .size
  obtain rfl := hfield .usage
  obtain rfl := hfield .region_start
  obtain rfl := hfield .region_size
  exact ⟨rfl, hfield .next⟩

/-- The blocks of a list have distinct addresses. -/
theorem addr_nodup {xs : List Header} (hseg : Seg Header.addr (At h) xs 0) (hne : ∀ x ∈ xs, x.addr ≠ 0) :
    (xs.map Header.addr).Nodup := hseg.nodup hne fun _ _ _ _ => At.unique

/-- There are fewer blocks than addresses. -/
theorem length_lt {xs : List Header} (hseg : Seg Header.addr (At h) xs 0) (hne : ∀ x ∈ xs, x.addr ≠ 0)
    (hlt : ∀ x ∈ xs, x.addr < 2 ^ 64) : xs.length < 2 ^ 64 := by
  have hnd : (0 :: xs.map Header.addr).Nodup := by
    refine List.nodup_cons.mpr ⟨fun h0 => ?_, addr_nodup hseg hne⟩
    obtain ⟨x, hx, h0⟩ := List.mem_map.mp h0
    exact hne x hx h0
  have hsub : 0 :: xs.map Header.addr ⊆ List.range (2 ^ 64) := by
    refine List.cons_subset.mpr ⟨List.mem_range.mpr (by decide), fun a ha => ?_⟩
    obtain ⟨x, hx, rfl⟩ := List.mem_map.mp ha
    exact List.mem_range.mpr (hlt x hx)
  have := (List.subperm_of_subset hnd hsub).length_le
  rw [List.length_cons, List.length_map, List.length_range] at this
  omega

/-- **A loop over a segment is a fold over its headers.** -/
theorem traverse_eq {α β : Type} (visit : Nat → α → Except Fault (α ⊕ β)) (visitList : Header → Nat → α → α ⊕ β)
    (fin : α → β) {xs : List Header} (hseg : Seg Header.addr (At h) xs 0) (hne : ∀ x ∈ xs, x.addr ≠ 0)
    (hlt : ∀ x ∈ xs, x.addr < 2 ^ 64) (hacc : ∀ x ∈ xs, h.accessible (x.addr + Field.next.offset) 8)
    (hvisit : ∀ x ∈ xs, ∀ e acc, At h x e → visit x.addr acc = .ok (visitList x e acc)) (acc : α) :
    h.traverse visit fin (first Header.addr xs 0) acc = .ok (walkList Header.addr visitList fin xs acc) := by
  refine walk_seg hseg hne (fun x hx e hat => ?_) hvisit (length_lt hseg hne hlt) acc
  rw [get_eq (hacc x hx), hat]
  rfl

/-! ## Changes inside one block -/

namespace Spot

variable (s : Spot rs)

theorem mem_pre (hy : y ∈ s.pre) : y ∈ flat rs := by rw [s.flat_eq]; simp [hy]

theorem mem_post (hy : y ∈ s.post) : y ∈ flat rs := by rw [s.flat_eq]; simp [hy]

/-- The other blocks lie apart from the block at the spot. -/
theorem apart (hap : (ranges rs).Pairwise RangeApart) (hy : y ∈ s.pre ∨ y ∈ s.post) :
    48 ≤ y.size ∧ (y.addr + y.size ≤ s.addr ∨ s.addr + s.block.size ≤ y.addr) := by
  have hp := flat_pairwise hap
  rw [s.flat_eq, List.pairwise_append, List.pairwise_cons] at hp
  constructor
  · exact (Header.ok_of_mem (hy.elim s.mem_pre s.mem_post)).header_le
  · rcases hy with hy | hy
    · exact hp.2.2 y hy s.header List.mem_cons_self
    · exact (hp.2.1.1 y hy).symm

/-- The bytes of the block are mapped. -/
theorem accessible (hm : ∀ r ∈ ranges rs, r ∈ h.mapped) (h₁ : s.addr ≤ a) (h₂ : a + n ≤ s.addr + s.block.size) :
    h.accessible a n = true :=
  accessible_of_flat hm s.header_mem h₁ h₂

theorem accessible_field (hm : ∀ r ∈ ranges rs, r ∈ h.mapped) (f : Field) :
    h.accessible (s.addr + f.offset) 8 = true :=
  accessible_header hm s.header_mem f

/-- The header at the spot, with its link. -/
theorem at_header (hr : Represents h rs) : At h s.header (first Header.addr s.post 0) := by
  have hseg := hr.seg
  rw [s.flat_eq, seg_append] at hseg
  exact hseg.2.1

variable {s}

/-- What does not touch the block leaves the headers before and behind it in place. -/
theorem seg_frame (h' : Heap) (hr : Represents h rs)
    (hm : ∀ a, a < s.addr ∨ s.addr + s.block.size ≤ a → h'.mem a = h.mem a) :
    Seg Header.addr (At h') s.pre s.addr ∧ Seg Header.addr (At h') s.post 0 := by
  have hseg := hr.seg
  rw [s.flat_eq, seg_append] at hseg
  have hframe : ∀ y, y ∈ s.pre ∨ y ∈ s.post → ∀ e, At h y e → At h' y e := by
    intro y hy e hat
    have := s.apart hr.apart hy
    apply hat.congr
    intro a h₁ h₂
    apply hm
    omega
  exact ⟨hseg.1.mono fun y hy => hframe y (.inl hy), hseg.2.2.mono fun y hy => hframe y (.inr hy)⟩

end Spot

/-- **A change inside one block** that puts the headers of the new blocks in place. -/
theorem Represents.replace {s : Spot rs} {new : List Block} (hr : Represents h rs) (ht : total new = s.block.size)
    (used : ∃ b ∈ s.left ++ new ++ s.right, b.usage ≠ 0) (hne : new ≠ []) (hhead : h'.g_head = h.g_head)
    (hmapped : h'.mapped = h.mapped) (hcount : h'.g_allocations < 2 ^ 64)
    (hm : ∀ a, a < s.addr ∨ s.addr + s.block.size ≤ a → h'.mem a = h.mem a)
    (hseg : Seg Header.addr (At h') (layout s.region.start s.region.len s.addr new) (first Header.addr s.post 0)) :
    Represents h' (s.replace new ht used) := by
  have hfirst : ∀ e, first Header.addr (layout s.region.start s.region.len s.addr new) e = s.addr := by
    intro e
    cases new with
    | nil => exact absurd rfl hne
    | cons b bs => rfl
  obtain ⟨hpre, hpost⟩ := Spot.seg_frame h' hr hm
  refine ⟨?_, ?_, by rw [Spot.ranges_replace]; exact hr.apart, ?_, hcount⟩
  · rw [hhead, hr.head, Spot.flat_replace, s.flat_eq, first_append, first_append, first_append, hfirst]
    rfl
  · rw [Spot.flat_replace, seg_append, seg_append, first_append, hfirst]
    exact ⟨hpre, hseg, hpost⟩
  · rw [Spot.ranges_replace, hmapped]; exact hr.mapped

end Cs326.Allocator
