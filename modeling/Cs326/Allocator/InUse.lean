import Cs326.Allocator.Represents
import Mathlib.Data.List.Pairwise

/-!
# What is in use

`InUse xs p u`: one of the blocks `xs` is in use, with the payload at `p`. Payloads lie apart from all headers
(`InUse.not_inHeader`), so a write to a payload leaves the list in place (`Represents.payload`) and a write to spare
bytes of a block keeps the payloads (`Spot.keep`). `Allocates` and `Frees` are the two ways in which a call changes what
is in use; both say what the system sees of it.
-/

namespace Cs326.Allocator

variable {h h' : Heap} {rs : List Region} {x : Header} {p q u a : Nat}

/-- A block in use: the pointer to its payload and its usage. -/
def InUse (xs : List Header) (p u : Nat) : Prop := ∃ x ∈ xs, x.usage ≠ 0 ∧ x.addr + 48 = p ∧ x.usage = u

theorem inUse_append {xs ys : List Header} : InUse (xs ++ ys) p u ↔ InUse xs p u ∨ InUse ys p u := by
  simp only [InUse, List.mem_append, or_and_right, exists_or]

theorem inUse_cons {xs : List Header} :
    InUse (x :: xs) p u ↔ (x.usage ≠ 0 ∧ x.addr + 48 = p ∧ x.usage = u) ∨ InUse xs p u := by
  simp only [InUse, List.mem_cons, or_and_right, exists_or, exists_eq_left]

@[simp] theorem not_inUse_nil : ¬InUse [] p u := by simp [InUse]

/-- The bytes of a block that hold no payload in use. -/
def Spot.Spare (s : Spot rs) (a : Nat) : Prop :=
  s.addr ≤ a ∧ a < s.addr + s.block.size ∧ (a < s.addr + 48 ∨ s.addr + s.block.usage ≤ a)

section Spot

variable {s : Spot rs}

/-- A pointer into the block that is not the payload of the block in use is not in use. -/
theorem Spot.not_inUse (hap : (ranges rs).Pairwise RangeApart) (h₁ : s.addr + 48 ≤ p)
    (h₂ : p < s.addr + s.block.size + 48) (h₃ : s.block.usage = 0 ∨ p ≠ s.addr + 48) : ¬InUse (flat rs) p u := by
  have hout : ∀ y, y ∈ s.pre ∨ y ∈ s.post → y.addr + 48 ≠ p := by
    rintro y hy rfl
    have := s.apart hap hy
    omega
  rw [s.flat_eq, inUse_append, inUse_cons]
  rintro (⟨y, hy, _, he, _⟩ | ⟨hne, he, _⟩ | ⟨y, hy, _, he, _⟩)
  · exact hout y (.inl hy) he
  · rcases h₃ with h₃ | h₃
    · exact hne h₃
    · exact h₃ he.symm
  · exact hout y (.inr hy) he

/-- What touches spare bytes only keeps every payload in use. -/
theorem Spot.keep (hap : (ranges rs).Pairwise RangeApart) (hm : ∀ a, ¬s.Spare a → h'.mem a = h.mem a)
    (hu : InUse (flat rs) q u) : ∀ a, q ≤ a → a + 48 < q + u → h'.mem a = h.mem a := by
  intro a h₁ h₂
  apply hm a
  unfold Spot.Spare
  rw [s.flat_eq, inUse_append, inUse_cons] at hu
  have hout : ∀ y, y ∈ s.pre ∨ y ∈ s.post → y.usage ≠ 0 → y.addr + 48 = q → y.usage = u →
      ¬(s.addr ≤ a ∧ a < s.addr + s.block.size) := by
    rintro y hy hne rfl rfl
    have := s.apart hap hy
    have := (Header.ok_of_mem (hy.elim s.mem_pre s.mem_post)).usage_ok.resolve_left hne
    omega
  rcases hu with ⟨y, hy, hne, he, hu⟩ | ⟨hne, he, hu⟩ | ⟨y, hy, hne, he, hu⟩
  · have := hout y (.inl hy) hne he hu
    omega
  · simp only [Spot.header, Block.header] at he hu
    omega
  · have := hout y (.inr hy) hne he hu
    omega

end Spot

/-- The headers of the list. -/
def InHeader (rs : List Region) (a : Nat) : Prop := ∃ x ∈ flat rs, x.addr ≤ a ∧ a < x.addr + 48

instance : Std.Symm Header.Apart := ⟨fun _ _ h => h.symm⟩

/-- A payload in use lies apart from every header. -/
theorem InUse.header_apart (hap : (ranges rs).Pairwise RangeApart) (hu : InUse (flat rs) q u) (hx : x ∈ flat rs) :
    q + u ≤ x.addr + 48 ∨ x.addr + 48 ≤ q := by
  obtain ⟨y, hy, hne, rfl, rfl⟩ := hu
  have hle := (Header.ok_of_mem hy).usage_ok.resolve_left hne
  have := (Header.ok_of_mem hx).header_le
  by_cases hyx : y = x
  · subst hyx; omega
  · have hap := (flat_pairwise hap).forall hy hx hyx
    unfold Header.Apart at hap
    omega

theorem InUse.not_inHeader (hap : (ranges rs).Pairwise RangeApart) (hu : InUse (flat rs) q u) (h₁ : q ≤ a)
    (h₂ : a + 48 < q + u) : ¬InHeader rs a := by
  rintro ⟨x, hx, hlo, hhi⟩
  have := hu.header_apart hap hx
  omega

/-- Payloads in use do not overlap, nor does one the header of another. -/
theorem InUse.apart {v : Nat} (hap : (ranges rs).Pairwise RangeApart) (hp : InUse (flat rs) p u)
    (hq : InUse (flat rs) q v) (hne : p ≠ q) : p + u ≤ q ∨ q + v ≤ p := by
  obtain ⟨x, hx, hx₀, rfl, rfl⟩ := hp
  obtain ⟨y, hy, hy₀, rfl, rfl⟩ := hq
  have hxle := (Header.ok_of_mem hx).usage_ok.resolve_left hx₀
  have hyle := (Header.ok_of_mem hy).usage_ok.resolve_left hy₀
  have hap := (flat_pairwise hap).forall hx hy (fun he => hne (he ▸ rfl))
  unfold Header.Apart at hap
  omega

/-- A block in use lies in a region, behind its header. -/
theorem InUse.mem_range (hu : InUse (flat rs) q u) : ∃ r ∈ ranges rs, r.1 + 48 ≤ q ∧ q + u ≤ r.1 + r.2 + 48 := by
  obtain ⟨x, hx, hne, rfl, rfl⟩ := hu
  obtain ⟨r, hr, hxr⟩ := mem_flat.mp hx
  obtain ⟨hok, _, _, hlo, hhi⟩ := Region.of_mem hxr
  have := hok.usage_ok.resolve_left hne
  exact ⟨_, List.mem_map_of_mem hr, by dsimp only; omega, by dsimp only; omega⟩

/-- What leaves the regions alone leaves the list in place. -/
theorem Represents.frame (hr : Represents h rs) (hhead : h'.g_head = h.g_head)
    (hmapped : ∀ r ∈ ranges rs, r ∈ h'.mapped) (hcount : h'.g_allocations < 2 ^ 64)
    (hm : ∀ r ∈ ranges rs, ∀ a, r.1 ≤ a → a < r.1 + r.2 → h'.mem a = h.mem a) : Represents h' rs where
  head := hhead.trans hr.head
  seg := by
    refine hr.seg.mono fun x hx e hat => hat.congr fun a h₁ h₂ => ?_
    obtain ⟨r, hrs, hxr⟩ := mem_flat.mp hx
    obtain ⟨hok, _, _, hlo, hhi⟩ := Region.of_mem hxr
    have := hok.header_le
    exact hm _ (List.mem_map_of_mem hrs) a (by dsimp only; omega) (by dsimp only; omega)
  apart := hr.apart
  mapped := hmapped
  count_lt := hcount

/-- **A write to a payload** leaves the list in place. -/
theorem Represents.payload (hr : Represents h rs) (hu : InUse (flat rs) p u) (hhead : h'.g_head = h.g_head)
    (hmapped : h'.mapped = h.mapped) (hcount : h'.g_allocations < 2 ^ 64)
    (hm : ∀ a, a < p ∨ p + u ≤ a + 48 → h'.mem a = h.mem a) : Represents h' rs where
  head := hhead.trans hr.head
  seg := by
    refine hr.seg.mono fun x hx e hat => hat.congr fun a h₁ h₂ => hm a ?_
    by_contra hcon
    exact hu.not_inHeader hr.apart (by omega) (by omega) ⟨x, hx, h₁, h₂⟩
  apart := hr.apart
  mapped := hmapped ▸ hr.mapped
  count_lt := hcount

/-! ## The effect of a call -/

/-- What the system sees of `malloc`: nothing, or a new mapping. -/
def Maps (h : Heap) (rs : List Region) (h' : Heap) (rs' : List Region) : Prop :=
  (h'.log = h.log ∧ h'.mapped = h.mapped ∧ ranges rs' = ranges rs) ∨
    ∃ start len, h'.log = h.log ++ [.mmap start len] ∧ h'.mapped = (start, len) :: h.mapped ∧
      ranges rs' = ranges rs ++ [(start, len)]

/-- **Allocating** `size` bytes at `p`, from the heap `h` with the regions `rs` to `h'` with `rs'`. -/
structure Allocates (size : Nat) (h : Heap) (rs : List Region) (p : Nat) (h' : Heap) (rs' : List Region) : Prop where
  represents : Represents h' rs'
  fresh : ∀ u, ¬InUse (flat rs) p u
  inUse : ∀ q u, InUse (flat rs') q u ↔ InUse (flat rs) q u ∨ q = p ∧ u = size + 48
  keep : ∀ q u, InUse (flat rs) q u → ∀ a, q ≤ a → a + 48 < q + u → h'.mem a = h.mem a
  ids : ∃ l, l.Sublist ((flat rs).map Header.alloc_id) ∧
    ((flat rs').map Header.alloc_id).Perm (h.g_allocations :: l)
  count : h'.g_allocations = uadd h.g_allocations 1
  maps : Maps h rs h' rs'

/-- The call fails and changes nothing, or allocates. -/
def Serves (size : Nat) (h : Heap) (rs : List Region) (p : Nat) (h' : Heap) : Prop :=
  p = 0 ∧ h' = h ∨ p ≠ 0 ∧ ∃ rs', Allocates size h rs p h' rs'

/-- What the system sees of `free`: nothing, or the end of a mapping. -/
def Unmaps (env : Env) (h : Heap) (rs : List Region) (h' : Heap) (rs' : List Region) : Prop :=
  (h'.log = h.log ∧ h'.mapped = h.mapped ∧ ranges rs' = ranges rs) ∨
    ∃ r ∈ ranges rs, h'.log = h.log ++ [.munmap r.1 r.2] ∧
      h'.mapped = (if env.munmap then h.mapped.erase r else h.mapped) ∧ ranges rs' = (ranges rs).erase r

/-- **Freeing** the payload at `p`, from the heap `h` with the regions `rs` to `h'` with `rs'`. -/
structure Frees (env : Env) (h : Heap) (rs : List Region) (p : Nat) (h' : Heap) (rs' : List Region) : Prop where
  represents : Represents h' rs'
  inUse : ∀ q u, InUse (flat rs') q u ↔ InUse (flat rs) q u ∧ q ≠ p
  keep : ∀ q u, InUse (flat rs) q u → ∀ a, q ≤ a → a + 48 < q + u → h'.mem a = h.mem a
  ids : ((flat rs').map Header.alloc_id).Sublist ((flat rs).map Header.alloc_id)
  count : h'.g_allocations = h.g_allocations
  unmaps : Unmaps env h rs h' rs'

end Cs326.Allocator
