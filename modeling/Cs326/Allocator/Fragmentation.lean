import Cs326.Allocator.Dump
import Cs326.Allocator.Fit

/-!
# Blocks never merge

`malloc` cuts blocks, and `free` does not put them together again: it gives a mapping back once all its blocks are free,
and changes nothing but a usage before that. What has been cut stays cut (`Kept`): in every run each block is found
again where it was, and not larger, until its region is unmapped (`blocks_never_merge`).
-/

namespace Cs326.Allocator

variable {h h' : Heap} {rs rs' rs'' : List Region} {log log' : List Syscall} {page : PageSize} {env : Env}
  {x : Header} {p q u size : Nat}

/-- Every block of `rs` is one of `rs'`, and not larger, unless a mapping that it was in has been given back. -/
def Kept (log : List Syscall) (rs rs' : List Region) : Prop :=
  ∀ x ∈ flat rs, (∃ y ∈ flat rs', y.addr = x.addr ∧ y.size ≤ x.size) ∨
    ∃ start len, .munmap start len ∈ log ∧ start ≤ x.addr ∧ x.addr < start + len

theorem Kept.trans (h : Kept log rs rs') (h' : Kept log' rs' rs'') : Kept (log ++ log') rs rs'' := by
  intro x hx
  rcases h x hx with ⟨y, hy, haddr, hsize⟩ | ⟨start, len, hmem, hin⟩
  · rcases h' y hy with ⟨z, hz, haddr', hsize'⟩ | ⟨start, len, hmem, hin⟩
    · exact .inl ⟨z, hz, haddr'.trans haddr, hsize'.trans hsize⟩
    · exact .inr ⟨start, len, List.mem_append_right _ hmem, haddr ▸ hin⟩
  · exact .inr ⟨start, len, List.mem_append_left _ hmem, hin⟩

theorem kept_of_subset (h : flat rs ⊆ flat rs') : Kept log rs rs' :=
  fun x hx => .inl ⟨x, h hx, rfl, Nat.le_refl _⟩

theorem Kept.congr (h : Kept log rs rs') (he : flat rs' = flat rs'') : Kept log rs rs'' := by
  unfold Kept at *
  rwa [← he]

/-- A heap has one list of blocks. -/
theorem Represents.flat_unique (hr : Represents h rs) (hr' : Represents h rs') : flat rs = flat rs' :=
  hr.blockList.unique hr'.blockList

/-- Only the block at the spot changes, and it starts where it did. -/
theorem Spot.kept_replace {s : Spot rs} {b : Block} {bs : List Block} {ht : total (b :: bs) = s.block.size}
    {used : ∃ b' ∈ s.left ++ (b :: bs) ++ s.right, b'.usage ≠ 0} (hle : b.size ≤ s.block.size) :
    Kept log rs (s.replace (b :: bs) ht used) := by
  intro x hx
  rw [s.flat_eq, List.mem_append, List.mem_cons] at hx
  refine .inl ?_
  rw [Spot.flat_replace]
  rcases hx with hx | rfl | hx
  · exact ⟨x, List.mem_append_left _ hx, rfl, Nat.le_refl _⟩
  · exact ⟨b.header s.region.start s.region.len s.addr, by simp [layout], rfl, hle⟩
  · exact ⟨x, List.mem_append_right _ (List.mem_append_right _ hx), rfl, Nat.le_refl _⟩

/-- `malloc` cuts one block, or adds a region. -/
theorem Represents.malloc_kept (hr : Represents h rs) (hsize : size ≤ request_max)
    (hres : malloc page env size h = .ok (h', p)) : ∃ rs', Represents h' rs' ∧ ∀ log, Kept log rs rs' := by
  obtain ⟨hd, -, hlt⟩ := align_spec hsize
  have hread := readable_of_malloc hres
  by_cases h0 : reuseList env (align size) (flat rs) = 0
  · rw [malloc_eq_map page hr hread h0] at hres
    cases hfilter : env.mmap.filter fun start => h.mappable page (region_size page (align size)) start with
    | none =>
      unfold malloc_map at hres
      simp only [hfilter] at hres
      obtain ⟨rfl, -⟩ := Prod.mk.inj (Except.ok.inj hres)
      exact ⟨rs, hr, fun log => kept_of_subset (List.Subset.refl _)⟩
    | some start =>
      obtain ⟨henv, hmap⟩ := Option.filter_eq_some_iff.mp hfilter
      obtain ⟨h₁, r, hres', -, -, hall⟩ := malloc_map_success page env _ hr hd hlt henv (of_decide_eq_true hmap)
      obtain ⟨rfl, -⟩ := Prod.mk.inj (Except.ok.inj (hres'.symm.trans hres))
      refine ⟨_, hall.represents, fun log => kept_of_subset ?_⟩
      rw [flat_append]
      exact List.subset_append_left _ _
  · have hroom := reuseList_spec env (align size) (flat rs)
    unfold malloc at hres
    dsimp only at hres
    rw [reuse_eq hr hread, ok_bind] at hres
    generalize reuseList env (align size) (flat rs) = blk at *
    obtain ⟨x, hx, rfl, hfit⟩ := hroom.resolve_left h0
    rw [uadd_eq (by unfold sizeof_mem_block; omega)] at hfit
    obtain ⟨s, rfl⟩ := exists_spot hx
    rw [if_pos h0, hr.get hx (s.at_header hr), ok_bind] at hres
    by_cases hu : s.block.usage = 0
    · have hfit₀ : align size + 48 ≤ s.block.size := by
        rw [← Nat.sub_zero s.block.size, ← hu]
        exact hfit
      obtain ⟨h₁, hres', hall⟩ := malloc_reuse_spec env hr s hu hd hfit₀
      obtain ⟨rfl, -⟩ := Prod.mk.inj (Except.ok.inj (((if_pos hu).trans hres').symm.trans hres))
      exact ⟨_, hall.represents, fun log => Spot.kept_replace (Nat.le_refl _)⟩
    · obtain ⟨h₁, hres', hall⟩ := malloc_split_spec env hr s hu hd hfit
      obtain ⟨rfl, -⟩ := Prod.mk.inj (Except.ok.inj (((if_neg hu).trans hres').symm.trans hres))
      have hle := s.block.usage_ok.resolve_left hu
      exact ⟨_, hall.represents, fun log => Spot.kept_replace hle.2⟩

/-- The mapping of the region leaves the list with it. -/
theorem Frees.log_region {s : Spot rs} (hr : Represents h rs) (hall : Frees env h rs p h' (s.before ++ s.behind)) :
    h'.log = h.log ++ [.munmap s.region.start s.region.len] := by
  have hpos := s.len_pos
  have hap := hr.apart
  have hranges := s.ranges_eq
  rw [hranges, List.pairwise_append, List.pairwise_cons] at hap
  have hself : ¬RangeApart (s.region.start, s.region.len) (s.region.start, s.region.len) := by
    unfold RangeApart
    dsimp only
    omega
  have hout : (s.region.start, s.region.len) ∉ ranges (s.before ++ s.behind) := by
    rw [ranges_append, List.mem_append]
    rintro (hmem | hmem)
    · exact hself (hap.2.2 _ hmem _ List.mem_cons_self)
    · exact hself (hap.2.1.1 _ hmem)
  have hin : (s.region.start, s.region.len) ∈ ranges rs := by
    rw [hranges]
    exact List.mem_append_right _ List.mem_cons_self
  rcases hall.unmaps with ⟨-, -, hsame⟩ | ⟨r, -, hlog, -, herase⟩
  · exact absurd (hsame ▸ hin) hout
  · have hr : r = (s.region.start, s.region.len) := by
      by_contra hne
      exact hout (herase ▸ (List.mem_erase_of_ne (Ne.symm hne)).mpr hin)
    rw [hlog, hr]

/-- `free` of a block whose region is still in use. -/
theorem free_block_eq (env : Env) (hr : Represents h rs) {s : Spot rs} (hused : ∃ x ∈ s.cleared, x.usage ≠ 0) :
    free env (s.addr + 48) h = .ok (h.put s.addr .usage 0) := by
  have hset : h.set s.addr .usage 0 = .ok (h.put s.addr .usage 0) := set_eq (s.accessible_field hr.mapped .usage)
  obtain ⟨current, hloop, -⟩ := region_is_free_spec (s.cleared_put hr)
  have hnot : ¬∀ x ∈ s.cleared, x.usage = 0 := by
    push Not
    exact hused
  rw [decide_eq_false hnot] at hloop
  unfold free
  rw [if_neg (Nat.succ_ne_zero _)]
  dsimp only
  rw [s.usub_eq, hset, ok_bind, hloop]
  rfl

/-- `free` cuts nothing, and takes no block away but those of the mapping that it gives back. -/
theorem Represents.free_kept (hr : Represents h rs) (hu : InUse (flat rs) q u) (hres : free env q h = .ok h') :
    ∃ rs' log, Represents h' rs' ∧ h'.log = h.log ++ log ∧ Kept log rs rs' := by
  obtain ⟨s, -, rfl⟩ := hu.exists_spot
  by_cases hfree : ∀ x ∈ s.cleared, x.usage = 0
  · obtain ⟨h₁, hres', -, hall⟩ := free_region_spec env hr s hfree
    obtain rfl := Except.ok.inj (hres'.symm.trans hres)
    refine ⟨_, _, hall.represents, hall.log_region hr, fun x hx => ?_⟩
    rw [s.flat_region, List.mem_append, List.mem_append] at hx
    rw [flat_append]
    rcases hx with hx | hx | hx
    · exact .inl ⟨x, List.mem_append_left _ hx, rfl, Nat.le_refl _⟩
    · obtain ⟨hok, -, -, hlo, hhi⟩ := Region.of_mem hx
      have hle := hok.header_le
      exact .inr ⟨_, _, List.mem_singleton_self _, hlo, by omega⟩
    · exact .inl ⟨x, List.mem_append_right _ hx, rfl, Nat.le_refl _⟩
  · push Not at hfree
    obtain rfl := Except.ok.inj ((free_block_eq env hr hfree).symm.trans hres)
    obtain ⟨rs', hall⟩ := frees_block env hr hfree
    have hr' := hall.represents
    have hc := s.cleared_put hr
    -- the list of the heap is that of the regions, with the block at the spot free
    have hflat : flat s.before ++ (s.cleared ++ flat s.behind) = flat rs' := by
      refine hc.seg.unique hr'.seg ?_ (fun x hx => (s.all_cleared_mem hx).addr_ne)
        (fun x hx => (Header.ok_of_mem hx).addr_ne) fun _ _ _ _ => At.unique
      rw [first_append, s.first_cleared]
      exact hc.head.symm.trans hr'.head
    refine ⟨rs', [], hr', (List.append_nil _).symm, fun x hx => .inl ?_⟩
    rw [s.flat_eq, List.mem_append, List.mem_cons] at hx
    rw [← hflat, s.all_cleared]
    rcases hx with hx | rfl | hx
    · exact ⟨x, List.mem_append_left _ hx, rfl, Nat.le_refl _⟩
    · exact ⟨s.freed, List.mem_append_right _ List.mem_cons_self, rfl, Nat.le_refl _⟩
    · exact ⟨x, List.mem_append_right _ (List.mem_cons_of_mem _ hx), rfl, Nat.le_refl _⟩

/-- The calls of `mmap` and `munmap` that `malloc` adds to the log. -/
theorem Allocates.log_eq (hall : Allocates size h rs p h' rs') : ∃ log, h'.log = h.log ++ log := by
  rcases hall.maps with ⟨hlog, -⟩ | ⟨start, len, hlog, -⟩
  · exact ⟨[], hlog.trans (List.append_nil _).symm⟩
  · exact ⟨_, hlog⟩

/-- **What one call keeps.** -/
theorem Inv.kept {tr : List (Call × Nat)} {w : Client} {c : Call} (hI : Inv tr w rs) (hc : Permitted page w c)
    (hres : c.run page w.heap = .ok (h', p)) :
    ∃ log, h'.log = w.heap.log ++ log ∧ ∀ rs', Represents h' rs' → Kept log rs rs' := by
  have hr := hI.represents
  have hmalloc : ∀ {env n h' p}, n ≤ request_max → malloc page env n w.heap = .ok (h', p) →
      ∃ log, h'.log = w.heap.log ++ log ∧ ∀ rs', Represents h' rs' → Kept log rs rs' := by
    intro env n h' p hn hres
    obtain ⟨rs₁, hr₁, hkept⟩ := hr.malloc_kept hn hres
    have hany : ∀ log rs', Represents h' rs' → Kept log rs rs' :=
      fun log rs' hr' => (hkept log).congr (hr₁.flat_unique hr')
    obtain ⟨h₁, p₁, hres', hs⟩ := malloc_spec page hr (readable_of_malloc hres) hn
    obtain ⟨rfl, rfl⟩ := Prod.mk.inj (Except.ok.inj (hres'.symm.trans hres))
    rcases hs with ⟨-, rfl⟩ | ⟨-, rs₂, hall⟩
    · exact ⟨[], (List.append_nil _).symm, hany []⟩
    · obtain ⟨log, hlog⟩ := hall.log_eq
      exact ⟨log, hlog, hany log⟩
  have hfree : ∀ {env ptr h'}, ptr ∈ w.live.map Prod.fst → free env ptr w.heap = .ok h' →
      ∃ log, h'.log = w.heap.log ++ log ∧ ∀ rs', Represents h' rs' → Kept log rs rs' := by
    intro env ptr h' hlive hres
    obtain ⟨u, hu⟩ := (hI.live ptr).mp hlive
    obtain ⟨rs₁, log, hr₁, hlog, hkept⟩ := hr.free_kept hu hres
    exact ⟨log, hlog, fun rs' hr' => hkept.congr (hr₁.flat_unique hr')⟩
  cases c with
  | malloc env n => exact hmalloc hc hres
  | calloc env nmemb n =>
    obtain ⟨⟨h₁, p₁⟩, hres₁, hres⟩ := bind_ok hres
    obtain ⟨h₂, hset, hres⟩ := bind_ok hres
    obtain ⟨rfl, rfl⟩ := Prod.mk.inj (Except.ok.inj hres)
    obtain ⟨log, hlog, hkept⟩ := hmalloc hc.1 hres₁
    obtain ⟨h₃, p₃, hres₃, hs⟩ := malloc_spec page hr (readable_of_malloc hres₁) hc.1
    obtain ⟨rfl, rfl⟩ := Prod.mk.inj (Except.ok.inj (hres₃.symm.trans hres₁))
    obtain ⟨-, rs₁, hall⟩ := hs.resolve_left fun h => hc.2 h₃ (h.1 ▸ hres₃)
    obtain ⟨h₄, hset', hall'⟩ := hall.memset (align_le hc.1).1 0
    obtain rfl := Except.ok.inj (hset'.symm.trans hset)
    refine ⟨log, (memset_log hset).trans hlog, fun rs' hr' => ?_⟩
    exact (hkept rs₁ hall.represents).congr (hall'.represents.flat_unique hr')
  | realloc env ptr n =>
    by_cases hptr : ptr = 0
    · subst hptr
      have hn : n ≤ request_max := by simpa [Permitted] using hc
      exact hmalloc (align_le hn).2 hres
    · obtain ⟨hlive, rfl⟩ : ptr ∈ w.live.map Prod.fst ∧ n = 0 := by simpa only [Permitted, if_neg hptr] using hc
      unfold Call.run realloc at hres
      dsimp only at hres
      rw [if_neg hptr] at hres
      obtain ⟨h₁, hres', he⟩ := bind_ok hres
      obtain ⟨rfl, -⟩ := Prod.mk.inj (Except.ok.inj he)
      exact hfree hlive hres'
  | free env ptr =>
    obtain ⟨h₁, hres', he⟩ := bind_ok hres
    obtain ⟨rfl, -⟩ := Prod.mk.inj (Except.ok.inj he)
    exact hfree hc hres'
  | write ptr c =>
    obtain ⟨rs₁, he⟩ := hI.effect_of_run hc hres
    have hr₁ := (hI.step he).represents
    cases he with
    | fails hreq | allocates hreq => cases hreq
    | frees _ hends => cases hends
    | writes _ _ _ _ hlog _ _ _ hrs =>
      subst hrs
      refine ⟨[], hlog.trans (List.append_nil _).symm, fun rs' hr' => kept_of_subset ?_⟩
      exact hr₁.flat_unique hr' ▸ List.Subset.refl _

/-- What a run keeps. -/
theorem Inv.run_kept {tr tr' : List (Call × Nat)} {w w' : Client} (hI : Inv tr w rs) (hrun : Run (Step page) w tr' w') :
    ∃ rs' log, Inv (tr ++ tr') w' rs' ∧ w'.heap.log = w.heap.log ++ log ∧ Kept log rs rs' := by
  induction hrun with
  | nil =>
    exact ⟨rs, [], (List.append_nil tr).symm ▸ hI, (List.append_nil _).symm, kept_of_subset (List.Subset.refl _)⟩
  | snoc _ hstep ih =>
    obtain ⟨rs₁, log, hI₁, hlog, hkept⟩ := ih
    obtain ⟨c, p, h', hc, hres, rfl, rfl⟩ := hstep
    obtain ⟨rs₂, he⟩ := hI₁.effect_of_run hc hres
    have hI₂ := hI₁.step he
    obtain ⟨log', hlog', hkept'⟩ := hI₁.kept hc hres
    refine ⟨rs₂, log ++ log', (List.append_assoc ..) ▸ hI₂, ?_, hkept.trans (hkept' rs₂ hI₂.represents)⟩
    rw [← List.append_assoc, ← hlog]
    exact hlog'

/-- **Blocks never merge**: a block that is printed is printed again after any further calls, at its address and with no
larger size, unless a mapping that it was in has been unmapped by one of them. -/
theorem blocks_never_merge {tr tr' : List (Call × Nat)} {w w' : Client} {lines lines' : List Line}
    (h : Reaches page tr w) (hrun : Run (Step page) w tr' w')
    (hprint : print_memory w.heap = .ok (title ++ texts lines))
    (hprint' : print_memory w'.heap = .ok (title ++ texts lines'))
    {start stop size usage payload : Nat} {alloc_id : Int}
    (hline : Line.block start stop alloc_id size usage payload ∈ lines) :
    (∃ stop' alloc_id' size' usage' payload', Line.block start stop' alloc_id' size' usage' payload' ∈ lines' ∧
      size' ≤ size) ∨ ∃ region len log, w'.heap.log = w.heap.log ++ log ∧ .munmap region len ∈ log ∧ region ≤ start ∧
        start < region + len := by
  obtain ⟨rs, hI⟩ := h.inv
  obtain ⟨rs', log, hI', hlog, hkept⟩ := hI.run_kept hrun
  obtain rfl := hI.represents.lines_eq hprint
  obtain rfl := hI'.represents.lines_eq hprint'
  obtain ⟨x, hx, he⟩ := block_mem_dump.mp hline
  obtain ⟨rfl, -, -, rfl, -, -⟩ := Line.block.inj he
  rcases hkept x hx with ⟨y, hy, haddr, hsize⟩ | ⟨region, len, hmem, hlo, hhi⟩
  · have hline' : y.line ∈ dump rs' := block_mem_dump.mpr ⟨y, hy, rfl⟩
    rw [← haddr]
    exact .inl ⟨_, _, _, _, _, hline', hsize⟩
  · exact .inr ⟨region, len, log, hlog, hmem, hlo, hhi⟩

/-- After a second `malloc(8)` the block of the first one still starts where it did. -/
theorem blocks_never_merge_second : ∃ (w w' : Client) (lines' : List Line), w.live = [(4144, 8)] ∧
    print_memory w'.heap = .ok (title ++ texts lines') ∧
      ((∃ stop' alloc_id' size' usage' payload',
        Line.block 4096 stop' alloc_id' size' usage' payload' ∈ lines' ∧ size' ≤ 4096) ∨
          ∃ region len log, w'.heap.log = w.heap.log ++ log ∧ .munmap region len ∈ log ∧ region ≤ 4096 ∧
            4096 < region + len) := by
  obtain ⟨h, r, hreach, hr, hheaders, -⟩ := reaches_malloc
  obtain ⟨rs, hI⟩ := hreach.inv
  have hc : Permitted .default ⟨h, [(4144, 8)]⟩ (.malloc (.mapping 8192) 8) := by
    show 8 ≤ request_max
    decide
  obtain ⟨h', p, rs', hres, he⟩ := hI.effect .default hc (Env.mapping_readable _)
  have hstep : Step .default ⟨h, [(4144, 8)]⟩ [(.malloc (.mapping 8192) 8, p)] ⟨h', _⟩ :=
    ⟨_, p, h', hc, hres, rfl, rfl⟩
  have hline : Line.block 4096 8192 0 4096 56 8 ∈ dump [r] := by
    refine block_mem_dump.mpr ⟨⟨4096, 0, 4096, 56, 4096, 4096⟩, ?_, by decide⟩
    rw [flat_cons, hheaders]
    exact List.mem_cons_self
  exact ⟨_, _, _, rfl, (hI.step he).represents.print_eq,
    blocks_never_merge hreach (Run.single hstep) hr.print_eq (hI.step he).represents.print_eq hline⟩

end Cs326.Allocator
