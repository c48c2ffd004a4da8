import Cs326.Allocator.Malloc

/-!
# What `free` does to the regions

Freeing a block that is not the last one in use in its region only changes that block. Otherwise the loop of `free`
passes over the whole region (`region_is_free_spec`), the region leaves the list (`unlink_spec`) and its mapping goes
back to the system. Both cases have the same effect on what is in use (`Frees`, `free_spec`).
-/

namespace Cs326.Allocator

variable {h h' : Heap} {rs rs' : List Region} {x y : Header} {env : Env} {p q u a next : Nat}

/-! ## The region of the freed block -/

def Block.released (b : Block) : Block := { b with usage := 0, usage_dvd := Nat.dvd_zero 8, usage_ok := .inl rfl }

namespace Spot

variable (s : Spot rs)

/-- The header at the spot once its block is free. -/
def freed : Header := s.block.released.header s.region.start s.region.len s.addr

/-- The headers of the region once the block at the spot is free. -/
def cleared : List Header :=
  layout s.region.start s.region.len s.region.start (s.left ++ s.block.released :: s.right)

theorem cleared_eq : s.cleared =
    layout s.region.start s.region.len s.region.start s.left ++
      s.freed :: layout s.region.start s.region.len (s.addr + s.block.size) s.right := by
  rw [cleared, layout_append]
  rfl

theorem all_cleared : flat s.before ++ (s.cleared ++ flat s.behind) = s.pre ++ s.freed :: s.post := by
  rw [s.cleared_eq]
  simp [pre, post]

theorem first_cleared (e : Nat) : first Header.addr (s.cleared ++ flat s.behind) e = s.region.start := by
  rw [cleared]
  cases s.left <;> rfl

theorem first_region : first Header.addr (flat rs) 0 = first Header.addr (flat s.before) s.region.start := by
  rw [s.flat_region, first_append, Region.headers, s.blocks_eq]
  cases s.left <;> rfl

/-- A freed block is where it was. -/
theorem cleared_mem (hx : x ∈ s.cleared) : x.Ok ∧ x.region_start = s.region.start := by
  rw [s.cleared_eq, List.mem_append, List.mem_cons] at hx
  rcases hx with hx | rfl | hx
  · have hmem : x ∈ s.region.headers := by
      rw [s.region_headers]
      simp [hx]
    exact ⟨(Region.of_mem hmem).1, (Region.of_mem hmem).2.1⟩
  · have hok := Header.ok_of_mem s.header_mem
    exact ⟨⟨hok.addr_ne, hok.addr_dvd, hok.end_lt, hok.header_le, hok.size_dvd, Nat.dvd_zero 8, .inl rfl,
      hok.alloc_id_lt⟩, rfl⟩
  · have hmem : x ∈ s.region.headers := by
      rw [s.region_headers]
      simp [hx]
    exact ⟨(Region.of_mem hmem).1, (Region.of_mem hmem).2.1⟩

theorem all_cleared_mem (hx : x ∈ flat s.before ++ (s.cleared ++ flat s.behind)) : x.Ok := by
  rw [List.mem_append, List.mem_append] at hx
  rcases hx with hx | hx | hx
  · exact Header.ok_of_mem hx
  · exact (s.cleared_mem hx).1
  · exact Header.ok_of_mem hx

theorem all_cleared_pairwise (hap : (ranges rs).Pairwise RangeApart) :
    (flat s.before ++ (s.cleared ++ flat s.behind)).Pairwise Header.Apart := by
  have hp := flat_pairwise hap
  rw [s.flat_eq, List.pairwise_append, List.pairwise_cons] at hp
  rw [s.all_cleared, List.pairwise_append, List.pairwise_cons]
  refine ⟨hp.1, hp.2.1, ?_⟩
  intro x hx y hy
  rcases List.mem_cons.mp hy with rfl | hy
  · exact hp.2.2 x hx s.header List.mem_cons_self
  · exact hp.2.2 x hx y (List.mem_cons_of_mem _ hy)

/-- The list of the heap once the block at the spot is free. -/
structure Cleared (h : Heap) : Prop where
  head : h.g_head = first Header.addr (flat s.before) s.region.start
  seg : Seg Header.addr (At h) (flat s.before ++ (s.cleared ++ flat s.behind)) 0
  apart : (ranges rs).Pairwise RangeApart
  mapped : ∀ r ∈ ranges rs, r ∈ h.mapped

/-- Clearing the usage of a block leaves the list in place. -/
theorem cleared_put (hr : Represents h rs) : s.Cleared (h.put s.addr .usage 0) where
  head := hr.head.trans s.first_region
  seg := by
    have h48 := s.block.header_le
    have hm : ∀ a, a < s.addr ∨ s.addr + s.block.size ≤ a → (h.put s.addr .usage 0).mem a = h.mem a := by
      intro a ha
      apply put_mem
      omega
    obtain ⟨hpre, hpost⟩ := Spot.seg_frame (h.put s.addr .usage 0) hr hm
    rw [s.all_cleared, seg_append]
    exact ⟨hpre, (s.at_header hr).put (Nat.two_pow_pos 64) rfl fun f => by cases f <;> rfl, hpost⟩
  apart := hr.apart
  mapped := hr.mapped

/-- Bytes of blocks that are in the list are mapped. -/
theorem accessible_cleared (hm : ∀ r ∈ ranges rs, r ∈ h.mapped)
    (hx : x ∈ flat s.before ++ (s.cleared ++ flat s.behind)) (f : Field) :
    h.accessible (x.addr + f.offset) 8 = true := by
  rw [s.all_cleared, List.mem_append, List.mem_cons] at hx
  rcases hx with hx | rfl | hx
  · exact accessible_header hm (s.mem_pre hx) f
  · exact accessible_header hm s.header_mem f
  · exact accessible_header hm (s.mem_post hx) f

end Spot

/-! ## The loops of `free` -/

section Loops

variable {s : Spot rs}

/-- A member of a header of the list with the freed block. -/
theorem get_cleared (hm : ∀ r ∈ ranges rs, r ∈ h.mapped) (hx : x ∈ flat s.before ++ (s.cleared ++ flat s.behind))
    (hat : At h x next) (f : Field) : h.get x.addr f = .ok (x.field next f) := by
  rw [get_eq (s.accessible_cleared hm hx f), hat]

theorem freed_mem : s.freed ∈ flat s.before ++ (s.cleared ++ flat s.behind) := by
  rw [s.all_cleared]
  simp

/-- The freed block knows its region. -/
theorem Spot.Cleared.get_region_start (hc : s.Cleared h) : h.get s.addr .region_start = .ok s.region.start := by
  obtain ⟨e, hat⟩ := hc.seg.at_of_mem freed_mem
  exact get_cleared hc.mapped freed_mem hat .region_start

/-- The other headers belong to other regions. -/
theorem other_region (hap : (ranges rs).Pairwise RangeApart) (hx : x ∈ flat s.before ∨ x ∈ flat s.behind) :
    x.region_start ≠ s.region.start ∧ x.addr ≠ s.region.start := by
  have hpos := s.len_pos
  rw [s.ranges_eq, List.pairwise_append, List.pairwise_cons] at hap
  obtain ⟨r, hxr, hr⟩ : ∃ r : Region, x ∈ r.headers ∧ RangeApart (r.start, r.len) (s.region.start, s.region.len) := by
    rcases hx with hx | hx <;> obtain ⟨r, hr, hxr⟩ := mem_flat.mp hx
    · exact ⟨r, hxr, hap.2.2 _ (List.mem_map_of_mem hr) _ List.mem_cons_self⟩
    · exact ⟨r, hxr, Or.symm (hap.2.1.1 _ (List.mem_map_of_mem hr))⟩
  obtain ⟨hok, hstart, _, hlo, hhi⟩ := Region.of_mem hxr
  have := hok.header_le
  unfold RangeApart at hr
  dsimp only at hr
  omega

/-- **The first loop of `free`** tells whether the whole region is free, and stops behind it if it is. -/
theorem region_is_free_spec (hc : s.Cleared h) : ∃ current,
    region_is_free s.addr h = .ok (decide (∀ x ∈ s.cleared, x.usage = 0), current) ∧
      ((∀ x ∈ s.cleared, x.usage = 0) → current = first Header.addr (flat s.behind) 0) := by
  have hstart := hc.get_region_start
  obtain ⟨_, hseg, hap, hm⟩ := hc
  have hsub : ∀ x ∈ s.cleared ++ flat s.behind, x ∈ flat s.before ++ (s.cleared ++ flat s.behind) :=
    fun x hx => List.mem_append_right _ hx
  let visitList : Header → Nat → Unit → Unit ⊕ Bool × Nat := fun x _ _ =>
    if x.region_start ≠ s.region.start then .inr (true, x.addr)
    else if x.usage ≠ 0 then .inr (false, x.addr) else .inl ()
  have htr := traverse_eq
    (fun current (_ : Unit) => do
      if (← h.get current .region_start) ≠ s.region.start then return .inr (true, current)
      else if (← h.get current .usage) ≠ 0 then return .inr (false, current)
      else return .inl ())
    visitList (fun _ => (true, 0)) (seg_append.mp hseg).2 (fun x hx => (s.all_cleared_mem (hsub x hx)).addr_ne)
    (fun x hx => (s.all_cleared_mem (hsub x hx)).addr_lt) (fun x hx => s.accessible_cleared hm (hsub x hx) .next)
    (fun x hx e _ hat => by
      rw [get_cleared hm (hsub x hx) hat, get_cleared hm (hsub x hx) hat, ok_bind, ok_bind]
      by_cases h₁ : x.region_start = s.region.start <;> by_cases h₂ : x.usage = 0 <;>
        simp [visitList, Header.field, h₁, h₂]) ()
  rw [s.first_cleared] at htr
  have hpass : ∀ x ∈ s.cleared, x.usage = 0 → ∀ e, visitList x e () = .inl () := by
    intro x hx hu e
    simp [visitList, (s.cleared_mem hx).2, hu]
  unfold region_is_free
  simp only [hstart, ok_bind]
  rw [htr]
  by_cases hfree : ∀ x ∈ s.cleared, x.usage = 0
  · refine ⟨first Header.addr (flat s.behind) 0, ?_, fun _ => rfl⟩
    rw [walkList_skip fun x hx e => hpass x hx (hfree x hx) e, decide_eq_true hfree]
    cases hbehind : flat s.behind with
    | nil => rfl
    | cons y ys =>
      have hy := (other_region hap (.inr (hbehind ▸ List.mem_cons_self) : y ∈ flat s.before ∨ y ∈ flat s.behind)).1
      simp [walkList, visitList, hy]
  · rw [decide_eq_false hfree]
    obtain ⟨y, hy⟩ : ∃ y, s.cleared.find? (fun x => x.usage ≠ 0) = some y := by
      rw [← Option.isSome_iff_exists, List.find?_isSome]
      simpa using hfree
    obtain ⟨hused, l₁, l₂, hl, hl₁⟩ := List.find?_eq_some_iff_append.mp hy
    refine ⟨y.addr, ?_, fun h => absurd h hfree⟩
    have hmem : ∀ x ∈ l₁ ++ y :: l₂, x ∈ s.cleared := fun x hx => hl ▸ hx
    rw [hl, List.append_assoc, walkList_skip fun x hx e => hpass x (hmem x (List.mem_append_left _ hx)) ?_ e]
    · have hstart := (s.cleared_mem (hmem y (by simp))).2
      simp [walkList, visitList, hstart, of_decide_eq_true hused]
    · simpa using hl₁ x hx

/-- **The search of `free`** finds the last block before the region. -/
theorem predecessor_spec {xs : List Header} {z : Header} (hc : s.Cleared h) (hz : flat s.before = xs ++ [z]) :
    predecessor s.addr h = .ok z.addr ∧ At h z s.region.start := by
  have hstart := hc.get_region_start
  obtain ⟨hhead, hseg, hap, hm⟩ := hc
  have hlink := (seg_append.mp hseg).1
  rw [s.first_cleared, hz, seg_append] at hlink
  refine ⟨?_, hlink.2.1⟩
  have htr := traverse_eq
    (fun tmp (_ : Unit) => do
      return if (← h.get tmp .next) = s.region.start then .inr tmp else .inl ())
    (fun x e (_ : Unit) => if e = s.region.start then .inr x.addr else .inl ()) (fun _ => 0) hseg
    (fun x hx => (s.all_cleared_mem hx).addr_ne) (fun x hx => (s.all_cleared_mem hx).addr_lt)
    (fun x hx => s.accessible_cleared hm hx .next)
    (fun x hx e _ hat => by rw [get_cleared hm hx hat]; rfl) ()
  rw [first_append, s.first_cleared, ← hhead] at htr
  unfold predecessor
  simp only [hstart, ok_bind]
  refine htr.trans (congrArg Except.ok ?_)
  rw [hz, List.append_assoc]
  exact walkList_link (fun x hx => (other_region hap (.inl (hz ▸ hx))).2) (s.first_cleared 0)

/-- **The region leaves the list**, and nothing but a link changes. -/
theorem unlink_spec (hc : s.Cleared h) :
    ∃ h', unlink s.addr (first Header.addr (flat s.behind) 0) h = .ok h' ∧ h'.mapped = h.mapped ∧ h'.log = h.log ∧
      h'.g_allocations = h.g_allocations ∧ h'.g_head = first Header.addr (flat (s.before ++ s.behind)) 0 ∧
        Seg Header.addr (At h') (flat (s.before ++ s.behind)) 0 ∧ ∀ a, ¬InHeader s.before a → h'.mem a = h.mem a := by
  have hstart := hc.get_region_start
  have hseg := hc.seg
  have hpair := s.all_cleared_pairwise hc.apart
  have hok : ∀ x ∈ flat s.before ++ (s.cleared ++ flat s.behind), x.Ok := fun x hx => s.all_cleared_mem hx
  have hacc : ∀ x ∈ flat s.before, h.accessible (x.addr + Field.next.offset) 8 = true :=
    fun x hx => s.accessible_cleared hc.mapped (List.mem_append_left _ hx) .next
  have hother : ∀ x ∈ flat s.before, x.addr ≠ s.region.start := fun x hx => (other_region hc.apart (.inl hx)).2
  have hhead := hc.head
  unfold unlink
  rw [hstart, ok_bind, flat_append]
  rcases List.eq_nil_or_concat (flat s.before) with hnil | ⟨xs, z, hz⟩
  · rw [hnil] at hhead hseg ⊢
    exact ⟨{ h with g_head := first Header.addr (flat s.behind) 0 }, if_pos hhead, rfl, rfl, rfl, rfl,
      (seg_append.mp (seg_append.mp hseg).2).2, fun _ _ => rfl⟩
  · rw [List.concat_eq_append] at hz
    have hzb : z ∈ flat s.before := by rw [hz]; simp
    obtain ⟨hpred, _⟩ := predecessor_spec hc hz
    have hne : h.g_head ≠ s.region.start := by
      rw [hc.head]
      cases hb : flat s.before with
      | nil =>
        rw [hb] at hzb
        cases hzb
      | cons y ys => exact hother y (hb ▸ List.mem_cons_self)
    have hcur : first Header.addr (flat s.behind) 0 < 2 ^ 64 := by
      cases hb : flat s.behind with
      | nil => decide
      | cons y ys =>
        have := (hok y (by rw [hb]; simp)).end_lt
        exact Nat.lt_of_le_of_lt (Nat.le_add_right _ _) this
    have hframe : ∀ x ∈ flat s.before ++ (s.cleared ++ flat s.behind), x.Apart z → ∀ e, At h x e →
        At (h.put z.addr .next (first Header.addr (flat s.behind) 0)) x e := by
      intro x hx hxz e hat
      have := (hok x hx).header_le
      have := (hok z (List.mem_append_left _ hzb)).header_le
      unfold Header.Apart at hxz
      exact hat.put_apart (by omega)
    refine ⟨h.put z.addr .next (first Header.addr (flat s.behind) 0), ?_, rfl, rfl, rfl, ?_, ?_, ?_⟩
    · rw [if_neg hne, hpred]
      exact set_eq (hacc z hzb)
    · rw [put_g_head, hhead, hz, List.append_assoc, first_append, first_append]
      rfl
    · rw [List.pairwise_append] at hpair
      obtain ⟨hbefore, hrest, hcross⟩ := hpair
      rw [seg_append] at hseg ⊢
      rw [hz, List.pairwise_append] at hbefore
      constructor
      · have hlink := hseg.1
        rw [hz] at hlink ⊢
        apply hlink.retarget
        · intro x hx
          apply hframe
          · rw [hz]
            simp [hx]
          · exact hbefore.2.2 x hx z (List.mem_singleton_self z)
        · intro hat
          exact hat.put hcur rfl fun f => by cases f <;> rfl
      · apply (seg_append.mp hseg.2).2.mono
        intro x hx
        apply hframe
        · simp [hx]
        · exact (hcross z hzb x (List.mem_append_right _ hx)).symm
    · intro a ha
      have : ¬(z.addr ≤ a ∧ a < z.addr + 48) := fun h => ha ⟨z, hzb, h⟩
      apply put_mem
      omega

end Loops

/-! ## `free` -/

section Freed

variable {s : Spot rs}

/-- After the block has been freed the others are in use. -/
theorem inUse_cleared (hap : (ranges rs).Pairwise RangeApart) :
    InUse (flat s.before ++ (s.cleared ++ flat s.behind)) q u ↔ InUse (flat rs) q u ∧ q ≠ s.addr + 48 := by
  have hout : ∀ y, y ∈ s.pre ∨ y ∈ s.post → y.addr + 48 ≠ s.addr + 48 := by
    intro y hy he
    have := s.apart hap hy
    have := s.block.header_le
    omega
  rw [s.all_cleared, s.flat_eq, inUse_append, inUse_append, inUse_cons, inUse_cons]
  constructor
  · rintro (⟨y, hy, hne, rfl, rfl⟩ | ⟨hne, _, _⟩ | ⟨y, hy, hne, rfl, rfl⟩)
    · exact ⟨.inl ⟨y, hy, hne, rfl, rfl⟩, hout y (.inl hy)⟩
    · exact absurd rfl hne
    · exact ⟨.inr (.inr ⟨y, hy, hne, rfl, rfl⟩), hout y (.inr hy)⟩
  · rintro ⟨h | ⟨_, he, _⟩ | h, hq⟩
    · exact .inl h
    · exact absurd he.symm hq
    · exact .inr (.inr h)

end Freed

/-- A block in use has its spot. -/
theorem InUse.exists_spot (hu : InUse (flat rs) p u) : ∃ s : Spot rs, s.block.usage ≠ 0 ∧ p = s.addr + 48 := by
  obtain ⟨x, hx, hne, rfl, rfl⟩ := hu
  obtain ⟨s, rfl⟩ := Allocator.exists_spot hx
  exact ⟨s, hne, rfl⟩

/-- The header is in front of the payload. -/
theorem Spot.usub_eq (s : Spot rs) : usub (s.addr + 48) sizeof_mem_block = s.addr := by
  have hend : s.addr + s.block.size < 2 ^ 64 := (Header.ok_of_mem s.header_mem).end_lt
  have := s.block.header_le
  rw [Cs326.usub_eq (by unfold sizeof_mem_block; omega) (by omega)]
  rfl

/-- Freeing a block whose region is still in use changes that block. -/
theorem frees_block (env : Env) {s : Spot rs} (hr : Represents h rs) (hused : ∃ x ∈ s.cleared, x.usage ≠ 0) :
    ∃ rs', Frees env h rs (s.addr + 48) (h.put s.addr .usage 0) rs' := by
  have h48 := s.block.header_le
  have used : ∃ b ∈ s.left ++ [s.block.released] ++ s.right, b.usage ≠ 0 := by
    obtain ⟨x, hx, hne⟩ := hused
    have hmap : s.cleared.map Header.usage = (s.left ++ s.block.released :: s.right).map Block.usage :=
      layout_map fun _ _ => rfl
    have hmem : x.usage ∈ s.cleared.map Header.usage := List.mem_map_of_mem hx
    rw [hmap] at hmem
    obtain ⟨b, hb, he⟩ := List.mem_map.mp hmem
    exact ⟨b, by simpa using hb, he ▸ hne⟩
  have hflat : flat (s.replace [s.block.released] (by simp [Block.released]) used) =
      flat s.before ++ (s.cleared ++ flat s.behind) := by
    rw [Spot.flat_replace, s.all_cleared]
    rfl
  have hmem : ∀ a, a < s.addr ∨ s.addr + 48 ≤ a → (h.put s.addr .usage 0).mem a = h.mem a := fun a ha => put_mem ha
  refine ⟨s.replace [s.block.released] (by simp [Block.released]) used, ?_, ?_, ?_, ?_, rfl,
    .inl ⟨rfl, rfl, Spot.ranges_replace⟩⟩
  · refine hr.replace _ used (by simp) rfl rfl hr.count_lt (fun a ha => hmem a (by omega)) ⟨?_, trivial⟩
    exact (s.at_header hr).put (Nat.two_pow_pos 64) rfl fun f => by cases f <;> rfl
  · intro q u
    rw [hflat, inUse_cleared hr.apart]
  · intro q u hu a h₁ h₂
    have : ¬(s.addr ≤ a ∧ a < s.addr + 48) := fun h => hu.not_inHeader hr.apart h₁ h₂ ⟨s.header, s.header_mem, h⟩
    apply hmem
    omega
  · rw [hflat, s.all_cleared, s.flat_eq, List.map_append, List.map_append]
    exact .refl _

/-- Freeing the last block in use in its region ends the region. -/
theorem frees_region {s : Spot rs} (hr : Represents h rs) (hfree : ∀ x ∈ s.cleared, x.usage = 0)
    (hmapped : h'.mapped = if env.munmap then h.mapped.erase (s.region.start, s.region.len) else h.mapped)
    (hlog : h'.log = h.log ++ [.munmap s.region.start s.region.len]) (hcount : h'.g_allocations = h.g_allocations)
    (hhead : h'.g_head = first Header.addr (flat (s.before ++ s.behind)) 0)
    (hseg : Seg Header.addr (At h') (flat (s.before ++ s.behind)) 0) (hmem : ∀ a, ¬InHeader rs a → h'.mem a = h.mem a) :
    Frees env h rs (s.addr + 48) h' (s.before ++ s.behind) := by
  have hranges := s.ranges_eq
  have hpos := s.len_pos
  have hap := hr.apart
  rw [hranges] at hap
  have hself : ¬RangeApart (s.region.start, s.region.len) (s.region.start, s.region.len) := by
    unfold RangeApart
    dsimp only
    omega
  have hbefore : (s.region.start, s.region.len) ∉ ranges s.before :=
    fun hm => hself ((List.pairwise_append.mp hap).2.2 _ hm _ List.mem_cons_self)
  have hbehind : (s.region.start, s.region.len) ∉ ranges s.behind :=
    fun hm => hself ((List.pairwise_cons.mp (List.pairwise_append.mp hap).2.1).1 _ hm)
  have herase : ranges (s.before ++ s.behind) = (ranges rs).erase (s.region.start, s.region.len) := by
    rw [hranges, List.erase_append_right _ hbefore, List.erase_cons_head, ranges_append]
  have hrange : (s.region.start, s.region.len) ∈ ranges rs := by
    rw [hranges]
    simp
  refine ⟨⟨hhead, hseg, ?_, ?_, hcount ▸ hr.count_lt⟩, ?_, ?_, ?_, hcount, .inr ⟨_, hrange, hlog, hmapped, herase⟩⟩
  · rw [herase]
    exact hr.apart.sublist List.erase_sublist
  · intro r hrs
    have hmem : r ∈ h.mapped := hr.mapped r (List.mem_of_mem_erase (herase ▸ hrs))
    have hne : r ≠ (s.region.start, s.region.len) := by
      rintro rfl
      rw [ranges_append, List.mem_append] at hrs
      exact hrs.elim hbefore hbehind
    rw [hmapped]
    split
    · exact (List.mem_erase_of_ne hne).mpr hmem
    · exact hmem
  · intro q u
    rw [← inUse_cleared hr.apart, inUse_append, inUse_append, flat_append, inUse_append]
    have : ¬InUse s.cleared q u := fun ⟨x, hx, hne, _⟩ => hne (hfree x hx)
    tauto
  · intro q u hu a h₁ h₂
    exact hmem a (hu.not_inHeader hr.apart h₁ h₂)
  · rw [s.flat_region, flat_append, List.map_append, List.map_append, List.map_append]
    exact (List.Sublist.refl _).append (List.sublist_append_right _ _)

/-- **`free` of the last block in use in its region.** -/
theorem free_region_spec (env : Env) (hr : Represents h rs) (s : Spot rs) (hfree : ∀ x ∈ s.cleared, x.usage = 0) :
    ∃ h', free env (s.addr + 48) h = .ok h' ∧
      h'.mapped = (if env.munmap then h.mapped.erase (s.region.start, s.region.len) else h.mapped) ∧
        Frees env h rs (s.addr + 48) h' (s.before ++ s.behind) := by
  have hset : h.set s.addr .usage 0 = .ok (h.put s.addr .usage 0) :=
    set_eq (s.accessible_field hr.mapped .usage)
  have hc := s.cleared_put hr
  obtain ⟨current, hloop, hcur⟩ := region_is_free_spec hc
  obtain rfl := hcur hfree
  obtain ⟨h₂, hunlink, hmapped, hlog, hcount, hhead₂, hseg₂, hmem⟩ := unlink_spec hc
  -- the header of the block survives the unlinking
  have hm₂ : ∀ r ∈ ranges rs, r ∈ h₂.mapped := by
    intro r hrs
    rw [hmapped]
    exact hr.mapped r hrs
  obtain ⟨e, hat⟩ := hc.seg.at_of_mem freed_mem
  have hat₂ : At h₂ s.freed e := by
    apply hat.congr
    intro a hlo hhi
    apply hmem
    rintro ⟨y, hy, hylo, hyhi⟩
    have hap := (List.pairwise_append.mp (s.all_cleared_pairwise hr.apart)).2.2 y hy s.freed
      (by rw [s.cleared_eq]; simp)
    have := (Header.ok_of_mem hy).header_le
    have : 48 ≤ s.freed.size := s.block.header_le
    unfold Header.Apart at hap
    omega
  have hstart : h₂.get s.addr .region_start = .ok s.region.start := get_cleared hm₂ freed_mem hat₂ .region_start
  have hsize : h₂.get s.addr .region_size = .ok s.region.len := get_cleared hm₂ freed_mem hat₂ .region_size
  have hmapped' : (h₂.munmap env s.region.start s.region.len).mapped =
      if env.munmap then h.mapped.erase (s.region.start, s.region.len) else h.mapped := by
    rw [Heap.munmap, hmapped]
    rfl
  refine ⟨h₂.munmap env s.region.start s.region.len, ?_, hmapped', ?_⟩
  · unfold free
    rw [if_neg (Nat.succ_ne_zero _)]
    dsimp only
    rw [s.usub_eq, hset, ok_bind, hloop, ok_bind, decide_eq_true hfree, if_pos rfl, hunlink, ok_bind, hstart, ok_bind,
      hsize]
    rfl
  · apply frees_region hr hfree hmapped' _ hcount hhead₂ (hseg₂.mono fun _ _ _ h => h)
    · intro a ha
      have hbefore : ¬InHeader s.before a := by
        rintro ⟨y, hy, h⟩
        refine ha ⟨y, ?_, h⟩
        rw [s.flat_region]
        exact List.mem_append_left _ hy
      have : ¬(s.addr ≤ a ∧ a < s.addr + 48) := fun h => ha ⟨s.header, s.header_mem, h⟩
      refine (hmem a hbefore).trans (put_mem ?_)
      omega
    · rw [Heap.munmap, hlog]
      rfl

/-- **`free` frees.** -/
theorem free_spec (env : Env) (hr : Represents h rs) (hu : InUse (flat rs) p u) :
    ∃ h' rs', free env p h = .ok h' ∧ Frees env h rs p h' rs' := by
  obtain ⟨s, hused, rfl⟩ := hu.exists_spot
  by_cases hfree : ∀ x ∈ s.cleared, x.usage = 0
  · obtain ⟨h', hres, _, hall⟩ := free_region_spec env hr s hfree
    exact ⟨h', _, hres, hall⟩
  · have hset : h.set s.addr .usage 0 = .ok (h.put s.addr .usage 0) :=
      set_eq (s.accessible_field hr.mapped .usage)
    obtain ⟨current, hloop, _⟩ := region_is_free_spec (s.cleared_put hr)
    rw [decide_eq_false hfree] at hloop
    push Not at hfree
    obtain ⟨rs', hall⟩ := frees_block env hr hfree
    refine ⟨_, rs', ?_, hall⟩
    unfold free
    rw [if_neg (Nat.succ_ne_zero _)]
    dsimp only
    rw [s.usub_eq, hset, ok_bind, hloop]
    rfl

end Cs326.Allocator
