import Cs326.Allocator.Heap
import Mathlib.Algebra.BigOperators.Group.List.Basic
import Mathlib.Algebra.GroupWithZero.Nat

/-!
# Regions of blocks

What the list of the allocator stands for: a list of regions, each cut into blocks without a gap. `flat` lists the
headers of all blocks in list order, each with the address it has in its region. A `Spot` is the place of one block;
its block can be replaced by blocks of the same total size, which is what taking, splitting and freeing a block are.
-/

namespace Cs326.Allocator

/-- A block of a region. -/
structure Block where
  alloc_id : Nat
  size : Nat
  usage : Nat
  alloc_id_lt : alloc_id < 2 ^ 64
  header_le : 48 ≤ size
  size_dvd : 8 ∣ size
  usage_dvd : 8 ∣ usage
  usage_ok : usage = 0 ∨ 48 ≤ usage ∧ usage ≤ size

def total (blocks : List Block) : Nat := (blocks.map Block.size).sum

@[simp] theorem total_nil : total [] = 0 := rfl

@[simp] theorem total_cons (b : Block) (bs : List Block) : total (b :: bs) = b.size + total bs := by simp [total]

@[simp] theorem total_append (bs bs' : List Block) : total (bs ++ bs') = total bs + total bs' := by simp [total]

/-- A mapping that the allocator has cut into blocks, one of which is in use. -/
structure Region where
  start : Nat
  len : Nat
  blocks : List Block
  total_eq : total blocks = len
  used : ∃ b ∈ blocks, b.usage ≠ 0
  start_ne : start ≠ 0
  start_dvd : 8 ∣ start
  end_lt : start + len < 2 ^ 64

/-! ## Headers -/

/-- A `struct mem_block` and its address, up to the link. -/
structure Header where
  addr : Nat
  alloc_id : Nat
  size : Nat
  usage : Nat
  region_start : Nat
  region_size : Nat

def Header.field (x : Header) (next : Nat) : Field → Nat
  | .alloc_id => x.alloc_id
  | .size => x.size
  | .usage => x.usage
  | .region_start => x.region_start
  | .region_size => x.region_size
  | .next => next

/-- Two blocks do not overlap. -/
def Header.Apart (x y : Header) : Prop := x.addr + x.size ≤ y.addr ∨ y.addr + y.size ≤ x.addr

def Block.header (b : Block) (start len addr : Nat) : Header := ⟨addr, b.alloc_id, b.size, b.usage, start, len⟩

/-- The headers of blocks that lie one behind the other from `addr` on. -/
def layout (start len : Nat) : Nat → List Block → List Header
  | _, [] => []
  | addr, b :: bs => b.header start len addr :: layout start len (addr + b.size) bs

def Region.headers (r : Region) : List Header := layout r.start r.len r.start r.blocks

/-- The headers of all regions. -/
def flat (rs : List Region) : List Header := rs.flatMap Region.headers

/-- Where the regions are. -/
def ranges (rs : List Region) : List (Nat × Nat) := rs.map fun r => (r.start, r.len)

/-- Two ranges do not overlap. -/
def RangeApart (p q : Nat × Nat) : Prop := p.1 + p.2 ≤ q.1 ∨ q.1 + q.2 ≤ p.1

section Layout

variable {start len addr : Nat} {bs bs' : List Block} {x : Header} {r : Region} {rs rs' : List Region}

theorem layout_append :
    layout start len addr (bs ++ bs') = layout start len addr bs ++ layout start len (addr + total bs) bs' := by
  induction bs generalizing addr with
  | nil => simp [layout]
  | cons b bs ih => rw [List.cons_append, layout, layout, ih, total_cons, Nat.add_assoc, List.cons_append]

@[simp] theorem flat_append : flat (rs ++ rs') = flat rs ++ flat rs' := List.flatMap_append

@[simp] theorem flat_cons : flat (r :: rs) = r.headers ++ flat rs := List.flatMap_cons

@[simp] theorem flat_nil : flat [] = [] := rfl

@[simp] theorem ranges_append : ranges (rs ++ rs') = ranges rs ++ ranges rs' := List.map_append

/-- The place of a header in its region. -/
theorem mem_layout (h : x ∈ layout start len addr bs) :
    ∃ bs₁ b bs₂, bs = bs₁ ++ b :: bs₂ ∧ x = b.header start len (addr + total bs₁) := by
  induction bs generalizing addr with
  | nil => cases h
  | cons b bs ih =>
    rcases List.mem_cons.mp h with rfl | h
    · exact ⟨[], b, bs, rfl, rfl⟩
    · obtain ⟨bs₁, b', bs₂, rfl, rfl⟩ := ih h
      exact ⟨b :: bs₁, b', bs₂, rfl, by rw [total_cons, Nat.add_assoc]⟩

/-- A member of the headers that the blocks determine. -/
theorem layout_map {β : Type} {f : Header → β} {g : Block → β} (hfg : ∀ b addr, f (b.header start len addr) = g b) :
    (layout start len addr bs).map f = bs.map g := by
  induction bs generalizing addr with
  | nil => rfl
  | cons b bs ih => rw [layout, List.map_cons, List.map_cons, ih, hfg]

/-- What is true of every header in place. -/
structure Header.Ok (x : Header) : Prop where
  addr_ne : x.addr ≠ 0
  addr_dvd : 8 ∣ x.addr
  end_lt : x.addr + x.size < 2 ^ 64
  header_le : 48 ≤ x.size
  size_dvd : 8 ∣ x.size
  usage_dvd : 8 ∣ x.usage
  usage_ok : x.usage = 0 ∨ 48 ≤ x.usage ∧ x.usage ≤ x.size
  alloc_id_lt : x.alloc_id < 2 ^ 64

theorem Header.Ok.addr_lt (h : x.Ok) : x.addr < 2 ^ 64 := by
  have := h.end_lt
  omega

theorem total_dvd (bs : List Block) : 8 ∣ total bs := by
  induction bs with
  | nil => exact Nat.dvd_zero 8
  | cons b bs ih => rw [total_cons]; exact Nat.dvd_add b.size_dvd ih

/-- The header of a block lies in its region. -/
theorem Region.of_mem (h : x ∈ r.headers) : x.Ok ∧ x.region_start = r.start ∧ x.region_size = r.len ∧
    r.start ≤ x.addr ∧ x.addr + x.size ≤ r.start + r.len := by
  obtain ⟨bs₁, b, bs₂, hbs, rfl⟩ := mem_layout h
  have htotal := r.total_eq
  rw [hbs, total_append, total_cons] at htotal
  have hend := r.end_lt
  have hne := r.start_ne
  refine ⟨⟨?_, Nat.dvd_add r.start_dvd (total_dvd bs₁), ?_, b.header_le, b.size_dvd, b.usage_dvd, b.usage_ok,
    b.alloc_id_lt⟩, rfl, rfl, ?_, ?_⟩ <;> simp only [Block.header] <;> omega

/-- The only block of a region. -/
theorem Region.blocks_of_headers (hx : r.headers = [x]) :
    ∃ b, r.blocks = [b] ∧ x = b.header r.start r.len r.start := by
  unfold Region.headers at hx
  match hb : r.blocks with
  | [] => rw [hb] at hx; cases hx
  | [b] =>
    rw [hb] at hx
    exact ⟨b, rfl, (List.singleton_inj.mp hx).symm⟩
  | _ :: _ :: _ => rw [hb] at hx; cases hx

theorem layout_pairwise (start len addr : Nat) (bs : List Block) :
    (layout start len addr bs).Pairwise (fun x y => x.addr + x.size ≤ y.addr) := by
  induction bs generalizing addr with
  | nil => exact .nil
  | cons b bs ih =>
    refine .cons (fun y hy => ?_) (ih _)
    obtain ⟨bs₁, b', bs₂, _, rfl⟩ := mem_layout hy
    simp only [Block.header]
    omega

theorem mem_flat : x ∈ flat rs ↔ ∃ r ∈ rs, x ∈ r.headers := List.mem_flatMap

theorem Header.ok_of_mem (h : x ∈ flat rs) : x.Ok := by
  obtain ⟨r, _, hx⟩ := mem_flat.mp h
  exact (Region.of_mem hx).1

/-- The blocks of disjoint regions do not overlap. -/
theorem flat_pairwise (h : (ranges rs).Pairwise RangeApart) : (flat rs).Pairwise Header.Apart := by
  rw [flat, List.pairwise_flatMap]
  constructor
  · intro r _
    exact (layout_pairwise ..).imp fun h => .inl h
  · rw [ranges, List.pairwise_map] at h
    refine h.imp fun hr x hx y hy => ?_
    obtain ⟨_, _, _, hx₁, hx₂⟩ := Region.of_mem hx
    obtain ⟨_, _, _, hy₁, hy₂⟩ := Region.of_mem hy
    unfold Header.Apart
    rcases hr with hr | hr <;> dsimp only at hr
    · left; omega
    · right; omega

theorem Header.Apart.symm {x y : Header} (h : x.Apart y) : y.Apart x := Or.symm h

end Layout

/-! ## Spots -/

/-- The place of one block among the regions. -/
structure Spot (rs : List Region) where
  before : List Region
  region : Region
  behind : List Region
  left : List Block
  block : Block
  right : List Block
  regions_eq : rs = before ++ region :: behind
  blocks_eq : region.blocks = left ++ block :: right

namespace Spot

variable {rs : List Region} (s : Spot rs)

def addr : Nat := s.region.start + total s.left

def header : Header := s.block.header s.region.start s.region.len s.addr

/-- The headers before the spot. -/
def pre : List Header := flat s.before ++ layout s.region.start s.region.len s.region.start s.left

/-- The headers behind the spot. -/
def post : List Header :=
  layout s.region.start s.region.len (s.addr + s.block.size) s.right ++ flat s.behind

theorem region_headers : s.region.headers =
    layout s.region.start s.region.len s.region.start s.left ++
      s.header :: layout s.region.start s.region.len (s.addr + s.block.size) s.right := by
  rw [Region.headers, s.blocks_eq, layout_append]
  rfl

theorem flat_region : flat rs = flat s.before ++ (s.region.headers ++ flat s.behind) := by
  refine (congrArg flat s.regions_eq).trans ?_
  rw [flat_append, flat_cons]

theorem flat_eq : flat rs = s.pre ++ s.header :: s.post := by
  rw [s.flat_region, s.region_headers]
  simp [pre, post]

theorem header_mem : s.header ∈ flat rs := by rw [s.flat_eq]; simp

theorem ranges_eq : ranges rs = ranges s.before ++ (s.region.start, s.region.len) :: ranges s.behind := by
  refine (congrArg ranges s.regions_eq).trans ?_
  rw [ranges_append]
  rfl

theorem total_eq : total s.left + s.block.size + total s.right = s.region.len := by
  rw [← s.region.total_eq, s.blocks_eq, total_append, total_cons, Nat.add_assoc]

theorem len_pos : 0 < s.region.len := by
  have := s.total_eq
  have := s.block.header_le
  omega

/-- The regions with the block replaced by `new`. -/
def replace (new : List Block) (h : total new = s.block.size)
    (used : ∃ b ∈ s.left ++ new ++ s.right, b.usage ≠ 0) : List Region :=
  s.before ++ { s.region with
    blocks := s.left ++ new ++ s.right
    total_eq := by rw [total_append, total_append, h, s.total_eq]
    used := used } :: s.behind

variable {s} {new : List Block} {h : total new = s.block.size} {used : ∃ b ∈ s.left ++ new ++ s.right, b.usage ≠ 0}

theorem flat_replace :
    flat (s.replace new h used) = s.pre ++ (layout s.region.start s.region.len s.addr new ++ s.post) := by
  rw [replace, flat_append, flat_cons]
  simp only [Region.headers, layout_append, total_append, h]
  simp [pre, post, addr, Nat.add_assoc]

@[simp] theorem ranges_replace : ranges (s.replace new h used) = ranges rs := by
  rw [replace, ranges_append, s.ranges_eq]
  rfl

end Spot

/-! ## Allocating in a block -/

/-- The block in use for `size` bytes under the number `id`. -/
def Block.take (b : Block) (id size : Nat) (hid : id < 2 ^ 64) (hd : 8 ∣ size) (hfit : size + 48 ≤ b.size) : Block :=
  { b with
    alloc_id := id
    usage := size + 48
    alloc_id_lt := hid
    usage_dvd := by omega
    usage_ok := .inr ⟨by omega, hfit⟩ }

/-- The block without its free space. -/
def Block.shrink (b : Block) (hu : b.usage ≠ 0) : Block :=
  { b with
    size := b.usage
    header_le := by have := b.usage_ok; omega
    size_dvd := b.usage_dvd
    usage_ok := .inr ⟨by have := b.usage_ok; omega, Nat.le_refl _⟩ }

/-- The free space of the block as a block in use for `size` bytes under the number `id`. -/
def Block.rest (b : Block) (id size : Nat) (hid : id < 2 ^ 64) (hd : 8 ∣ size) (hfit : size + 48 ≤ b.size - b.usage) :
    Block where
  alloc_id := id
  size := b.size - b.usage
  usage := size + 48
  alloc_id_lt := hid
  header_le := by omega
  size_dvd := Nat.dvd_sub b.size_dvd b.usage_dvd
  usage_dvd := by omega
  usage_ok := .inr ⟨by omega, hfit⟩

/-- The regions after the free block at the spot has been taken. -/
def Spot.take {rs : List Region} (s : Spot rs) (id size : Nat) (hid : id < 2 ^ 64) (hd : 8 ∣ size)
    (hfit : size + 48 ≤ s.block.size) : List Region :=
  s.replace [s.block.take id size hid hd hfit] (by simp [Block.take])
    ⟨s.block.take id size hid hd hfit, by simp, Nat.succ_ne_zero _⟩

/-- The regions after the block at the spot has been split. -/
def Spot.split {rs : List Region} (s : Spot rs) (id size : Nat) (hu : s.block.usage ≠ 0) (hid : id < 2 ^ 64)
    (hd : 8 ∣ size) (hfit : size + 48 ≤ s.block.size - s.block.usage) : List Region :=
  s.replace [s.block.shrink hu, s.block.rest id size hid hd hfit]
    (by have := s.block.usage_ok; simp [Block.shrink, Block.rest]; omega)
    ⟨s.block.shrink hu, by simp, hu⟩

/-- Every header has its spot. -/
theorem exists_spot {rs : List Region} {x : Header} (h : x ∈ flat rs) : ∃ s : Spot rs, s.header = x := by
  obtain ⟨r, hr, hx⟩ := mem_flat.mp h
  obtain ⟨before, behind, hrs⟩ := List.append_of_mem hr
  obtain ⟨left, b, right, hbs, rfl⟩ := mem_layout hx
  exact ⟨⟨before, r, behind, left, b, right, hrs, hbs⟩, rfl⟩

end Cs326.Allocator
