import Cs326.Allocator.Capacity
import Cs326.Allocator.Fit

/-!
# What `calloc` and `realloc` promise

`calloc` clears what `malloc` returned without asking what that is: where it can read the name of its policy, it keeps
its promise iff the product stays below `request_max` and there is memory for it, or the product wraps to `0` and there
is none (`calloc_contract`). `realloc`
rounds the size up before it compares it with `0`, so a size that wraps frees the block (`realloc_atomic`).
-/

namespace Cs326.Allocator

variable {page : PageSize} {env : Env} {tr : List (Call × Nat)} {w : Client} {h h' : Heap} {rs : List Region}
  {a n p q size nmemb : Nat}

/-- The pointer to the payload of a block in use. -/
def Live (h : Heap) (p : Nat) : Prop := ∃ xs u, BlockList h xs ∧ InUse xs p u

theorem InUse.live {u : Nat} (hr : Represents h rs) (hu : InUse (flat rs) p u) : Live h p :=
  ⟨flat rs, u, hr.blockList, hu⟩

theorem Live.inUse (hr : Represents h rs) (hl : Live h p) : ∃ u, InUse (flat rs) p u := by
  obtain ⟨xs, u, hb, hu⟩ := hl
  exact ⟨u, hb.unique hr.blockList ▸ hu⟩

/-! ## `calloc` -/

/-- Nothing is ever mapped at `NULL`. -/
theorem Reaches.mapped_ne (hreach : Reaches page tr w) : ∀ r ∈ w.heap.mapped, r.1 ≠ 0 := by
  refine (Run.invariant (I := fun tr w => (∃ rs, Inv tr w rs) ∧ ∀ r ∈ w.heap.mapped, r.1 ≠ 0)
    ⟨⟨[], inv_init⟩, by simp [Client.init]⟩ ?_ hreach).2
  rintro tr w ev w' ⟨⟨rs, hI⟩, hne⟩ ⟨c, p, h', hc, hres, rfl, rfl⟩
  obtain ⟨rs', he⟩ := hI.effect_of_run hc hres
  refine ⟨⟨rs', hI.step he⟩, fun r hr => ?_⟩
  cases he with
  | fails _ _ hh _ => exact hne r (hh ▸ hr)
  | allocates _ _ _ hall =>
    rcases hall.maps with ⟨_, hmapped, _⟩ | ⟨start, len, _, hmapped, hranges⟩ <;> dsimp only at hr <;>
      rw [hmapped] at hr
    · exact hne r hr
    · rcases List.mem_cons.mp hr with rfl | hr
      · have hmem : (start, len) ∈ ranges rs' := by rw [hranges]; simp
        obtain ⟨r, _, he⟩ := List.mem_map.mp hmem
        exact he ▸ r.start_ne
      · exact hne r hr
  | frees _ _ _ hall =>
    rcases hall.unmaps with ⟨_, hmapped, _⟩ | ⟨_, _, _, hmapped, _⟩ <;> dsimp only at hr <;> rw [hmapped] at hr
    · exact hne r hr
    · split at hr
      · exact hne r (List.mem_of_mem_erase hr)
      · exact hne r hr
  | writes _ _ _ hmapped => exact hne r (hmapped ▸ hr)

/-- There is memory for a request: a block that the policy takes, or a range that `mmap` returns. -/
def Available (page : PageSize) (env : Env) (n : Nat) (h : Heap) : Prop :=
  (∃ xs, BlockList h xs ∧ ∃ x ∈ xs, env.Accepts (align n) x) ∨
    ∃ start, env.mmap = some start ∧ h.mappable page (region_size page (align n)) start

theorem serviceable_iff (hr : Represents h rs) (hn : n ≤ request_max) :
    Serviceable page env n h rs ↔ Available page env n h := by
  have hsize : align n + sizeof_mem_block < 2 ^ 64 := (align_spec hn).2.2
  unfold Serviceable Available
  rw [ne_eq, reuseList_eq_zero hr.blockList.addr_ne hsize]
  apply or_congr_left
  constructor
  · intro hno
    push Not at hno
    exact ⟨flat rs, hr.blockList, hno⟩
  · rintro ⟨xs, hb, x, hx, hacc⟩ hno
    exact hno x (hb.unique hr.blockList ▸ hx) hacc

/-- `calloc` returns `NULL` and nothing has changed, or a live pointer to that many bytes, all zero. -/
def CallocOk (page : PageSize) (env : Env) (nmemb size : Nat) (h : Heap) : Prop :=
  ∃ h' p, calloc page env nmemb size h = .ok (h', p) ∧
    (p = 0 ∧ h' = h ∨ p ≠ 0 ∧ Live h' p ∧ Holds h' p (nmemb * size) ∧
      ∀ a, p ≤ a → a < p + nmemb * size → h'.mem a = 0)

theorem accessible_start (ha : h.accessible a n = true) (hn : 0 < n) : ∃ r ∈ h.mapped, r.1 ≤ a := by
  unfold Heap.accessible at ha
  cases hlen : h.mapped.length with
  | zero =>
    rw [hlen] at ha
    simp [covered] at ha
    omega
  | succ k =>
    rw [hlen, covered, Bool.or_eq_true, List.any_eq_true] at ha
    obtain ⟨r, hr, hra⟩ := ha.resolve_left (by simp; omega)
    simp only [Bool.and_eq_true, decide_eq_true_eq] at hra
    exact ⟨r, hr, hra.1.1⟩

/-- `NULL` is not written to. -/
theorem memset_null (hne : ∀ r ∈ h.mapped, r.1 ≠ 0) (hn : 0 < n) : h.memset 0 0 n = .error .segv := by
  refine if_neg fun ha => ?_
  obtain ⟨r, hr, h0⟩ := accessible_start ha hn
  exact hne r hr (Nat.le_zero.mp h0)

theorem memset_zero (h : Heap) (p : Nat) (c : UInt8) : h.memset p c 0 = .ok h := by
  have hmem : fillBytes h.mem 0 p c = h.mem := funext fun a => fillBytes_of_not_mem (by omega)
  have hacc : h.accessible p 0 = true := covered_zero _ _ _
  unfold Heap.memset
  rw [if_pos hacc, hmem]

/-- A request that wraps is never met: no memory holds it. -/
theorem calloc_wraps (hI : Inv tr w rs) (hne : ∀ r ∈ w.heap.mapped, r.1 ≠ 0) (hn : request_max < umul nmemb size)
    (h' : Heap) : calloc page env nmemb size w.heap ≠ .ok (h', p) := by
  intro hres
  unfold calloc at hres
  obtain ⟨⟨h₁, q⟩, hmalloc, hres⟩ := bind_ok hres
  obtain ⟨h₂, hset, hres⟩ := bind_ok hres
  unfold request_max at hn
  rcases malloc_header hI.represents hI.mapped_lt hmalloc with ⟨_, rfl, rfl⟩ | ⟨_, h₃, x, _, _, hx, _, _, hlt, hs⟩
  · rw [memset_null hne (by omega)] at hset
    cases hset
  · obtain ⟨rfl, hmapped, _⟩ := scribble_ok hs
    have hacc : h₁.accessible (x.addr + 48) (umul nmemb size) = true := by
      by_contra hno
      rw [Heap.memset, if_neg hno] at hset
      cases hset
    obtain ⟨r, hr, hle⟩ := accessible_le hacc (by omega)
    have := hlt r (hmapped ▸ hr)
    omega

theorem umul_eq_or (nmemb size : Nat) : umul nmemb size = nmemb * size ∨ 2 ^ 64 ≤ nmemb * size := by
  by_cases hlt : nmemb * size < 2 ^ 64
  · exact .inl (umul_eq hlt)
  · exact .inr (Nat.le_of_not_lt hlt)

/-- Where `calloc` can read the name of its policy. -/
theorem calloc_readable (hreach : Reaches page tr w) (hread : env.Readable) :
    CallocOk page env nmemb size w.heap ↔
      nmemb * size ≤ request_max ∧ Available page env (nmemb * size) w.heap ∨
        umul nmemb size = 0 ∧ ¬Available page env 0 w.heap := by
  obtain ⟨rs, hI⟩ := hreach.inv
  have hr := hI.represents
  have hne := hreach.mapped_ne
  have hmul := umul_eq_or nmemb size
  have hmax : request_max < 2 ^ 64 := by decide
  by_cases hn : umul nmemb size ≤ request_max
  · obtain ⟨h₁, p, hmalloc, hserves⟩ := malloc_spec page hr hread hn
    have havail := (malloc_ne_zero hr hI.mapped_lt hmalloc).trans (serviceable_iff hr hn)
    rcases hserves with ⟨rfl, rfl⟩ | ⟨hp, rs', hall⟩
    · have hno : ¬Available page env (umul nmemb size) w.heap := fun h => havail.mpr h rfl
      have hcalloc : calloc page env nmemb size w.heap =
          (w.heap.memset 0 0 (umul nmemb size) >>= fun h => .ok (h, 0)) := by
        unfold calloc
        rw [hmalloc]
        rfl
      by_cases h0 : umul nmemb size = 0
      · rw [h0] at hno hcalloc
        rw [memset_zero] at hcalloc
        exact ⟨fun _ => .inr ⟨h0, hno⟩, fun _ => ⟨w.heap, 0, hcalloc, .inl ⟨rfl, rfl⟩⟩⟩
      · rw [memset_null hne (Nat.pos_of_ne_zero h0)] at hcalloc
        constructor
        · rintro ⟨h', q, hres, _⟩
          rw [hcalloc] at hres
          cases hres
        · rintro (⟨hle, hav⟩ | ⟨hz, _⟩)
          · rw [hmul.resolve_right (by omega)] at hno
            exact absurd hav hno
          · exact absurd hz h0
    · have hav : Available page env (umul nmemb size) w.heap := havail.mp hp
      obtain ⟨h₂, hset, hall⟩ := hall.memset (align_le hn).1 0
      have hcalloc : calloc page env nmemb size w.heap = .ok (h₂, p) := by
        unfold calloc
        simp only [hmalloc, ok_bind, hset, pure_ok]
      have hu : InUse (flat rs') p (align (umul nmemb size) + 48) := (hall.inUse p _).mpr (.inr ⟨rfl, rfl⟩)
      constructor
      · rintro ⟨h', q, hres, hok⟩
        obtain ⟨rfl, rfl⟩ := Prod.mk.inj (Except.ok.inj (hcalloc.symm.trans hres))
        obtain ⟨_, _, hholds, _⟩ := hok.resolve_left fun h0 => hp h0.1
        -- no block holds a product that wraps
        have hroom := hholds.le_usage
        have hload := h₂.load_lt (usub p sizeof_mem_block) .usage
        have heq := hmul.resolve_right (by omega)
        rw [heq] at hn hav
        exact .inl ⟨hn, hav⟩
      · rintro (⟨hle, _⟩ | ⟨h0, hno⟩)
        · have heq := hmul.resolve_right (by omega)
          refine ⟨h₂, p, hcalloc, .inr ⟨hp, hu.live hall.represents, ?_, fun a h₁ h₂' => ?_⟩⟩
          · apply hu.holds hall.represents
            have := (align_le hn).1
            omega
          · unfold Heap.memset at hset
            split at hset
            · rw [← Except.ok.inj hset]
              exact if_pos ⟨h₁, by omega⟩
            · cases hset
        · rw [h0] at hav
          exact absurd hav hno
  · have hn := Nat.lt_of_not_le hn
    constructor
    · rintro ⟨h', p, hres, _⟩
      exact absurd hres (calloc_wraps hI hne hn h')
    · rintro (⟨hle, _⟩ | ⟨h0, _⟩)
      · rw [hmul.resolve_right (by omega)] at hn
        omega
      · omega

/-- **The promise of `calloc`.** -/
theorem calloc_contract (hreach : Reaches page tr w) :
    CallocOk page env nmemb size w.heap ↔ env.Readable ∧
      (nmemb * size ≤ request_max ∧ Available page env (nmemb * size) w.heap ∨
        umul nmemb size = 0 ∧ ¬Available page env 0 w.heap) := by
  by_cases hread : env.Readable
  · exact (calloc_readable hreach hread).trans (and_iff_right hread).symm
  · refine iff_of_false ?_ fun h => hread h.1
    rintro ⟨h', p, hres, _⟩
    exact hread (Call.readable_of_run (c := .calloc env nmemb size) hres)

/-- `calloc(2, 4)` in a program that has called nothing. -/
theorem calloc_contract_first : CallocOk .default (.mapping 4096) 2 4 Client.init.heap := by
  have hreach : Reaches .default [] Client.init := Run.nil
  exact (calloc_contract hreach).mpr ⟨by decide, .inl ⟨by decide, .inr ⟨4096, rfl, by decide⟩⟩⟩

/-- `calloc(1 << 32, 1 << 32)` returns a pointer to nothing. -/
theorem calloc_contract_wraps : ¬∀ page tr w env nmemb size, Reaches page tr w → nmemb < 2 ^ 64 → size < 2 ^ 64 →
    CallocOk page env nmemb size w.heap := by
  intro hall
  obtain ⟨h', p, hres, hok⟩ := hall .default [] Client.init (.mapping 4096) (2 ^ 32) (2 ^ 32) Run.nil (by decide)
    (by decide)
  have hptr : (calloc .default (.mapping 4096) (2 ^ 32) (2 ^ 32) Client.init.heap).toOption.map Prod.snd = some 4144 :=
    by decide
  rw [hres] at hptr
  obtain rfl : p = 4144 := Option.some.inj hptr
  obtain ⟨_, _, hholds, _⟩ := hok.resolve_left fun h0 => absurd h0.1 (by decide)
  have hroom := hholds.le_usage
  have hload := h'.load_lt (usub 4144 sizeof_mem_block) .usage
  omega

/-! ## `realloc` -/

/-- The program and the system see no change. -/
structure Untouched (h h' : Heap) : Prop where
  blocks : ∀ xs, BlockList h xs → BlockList h' xs
  mapped : h'.mapped = h.mapped
  payload : ∀ xs, BlockList h xs → ∀ q u, InUse xs q u → ∀ a, q ≤ a → a + 48 < q + u → h'.mem a = h.mem a

/-- `realloc` fails and leaves `p` and everything else as it was, or returns room for `size` bytes that start with what
`p` held. -/
def ReallocOk (page : PageSize) (env : Env) (p size : Nat) (w : Client) : Prop :=
  ∃ h' q, realloc page env p size w.heap = .ok (h', q) ∧
    (q = 0 → Live h' p ∧ Untouched w.heap h') ∧
    (q ≠ 0 → Holds h' q size ∧ ∀ old, (p, old) ∈ w.live → ∀ i < min old size, h'.mem (q + i) = w.heap.mem (p + i))

theorem align_eq_zero (hpos : 1 ≤ size) (hlt : size < 2 ^ 64) : align size = 0 ↔ 2 ^ 64 - 8 < size := by
  unfold align uadd
  split <;> omega

/-- A size that wraps: the block is free and `NULL` is returned. -/
theorem realloc_wraps (hr : Represents w.heap rs) {u : Nat} (hu : InUse (flat rs) p u) (hsize : align size = 0) :
    ¬ReallocOk page env p size w := by
  rintro ⟨h', q, hres, hnull, _⟩
  obtain ⟨h₁, rs', hfree, hfrees⟩ := free_spec env hr hu
  have hp₀ : p ≠ 0 := by
    obtain ⟨x, _, _, rfl, _⟩ := hu
    omega
  unfold realloc at hres
  simp only [if_neg hp₀, if_pos hsize, hfree, ok_bind] at hres
  obtain ⟨rfl, rfl⟩ := Prod.mk.inj (Except.ok.inj hres)
  obtain ⟨v, hv⟩ := (hnull rfl).1.inUse hfrees.represents
  exact ((hfrees.inUse p v).mp hv).2 rfl

/-- **When `realloc` is atomic.** -/
theorem realloc_atomic (hreach : Reaches page tr w) (hp : p ∈ w.live.map Prod.fst) (hpos : 1 ≤ size)
    (hlt : size < 2 ^ 64) : ReallocOk page env p size w ↔ size ≤ 2 ^ 64 - 8 := by
  obtain ⟨rs, hI⟩ := hreach.inv
  have hr := hI.represents
  obtain ⟨u, hu⟩ := (hI.live p).mp hp
  have hzero := align_eq_zero hpos hlt
  constructor
  · intro hok
    by_contra hsize
    exact realloc_wraps hr hu (hzero.mpr (Nat.lt_of_not_le hsize)) hok
  · intro hsize
    have hne : align size ≠ 0 := fun h0 => absurd (hzero.mp h0) (Nat.not_lt.mpr hsize)
    have hp₀ : p ≠ 0 := by
      obtain ⟨x, _, _, rfl, _⟩ := hu
      omega
    refine ⟨w.heap, 0, ?_, fun _ => ⟨hu.live hr, ⟨fun _ hb => hb, rfl, fun _ _ _ _ _ _ _ _ => rfl⟩⟩,
      fun h0 => absurd rfl h0⟩
    unfold realloc
    simp only [if_neg hp₀, if_neg hne]
    rfl

theorem realloc_atomic_first : ∃ tr w, Reaches .default tr w ∧ w.live = [(4144, 8)] ∧
    ReallocOk .default (.mapping 0) 4144 16 w := by
  obtain ⟨h, r, hreach, _⟩ := reaches_malloc
  exact ⟨_, _, hreach, rfl, (realloc_atomic hreach List.mem_cons_self (by decide) (by decide)).mpr (by decide)⟩

/-- `realloc(p, SIZE_MAX)` frees `p`. -/
theorem realloc_atomic_wraps : ¬∀ page tr w env p size, Reaches page tr w → p ∈ w.live.map Prod.fst → 1 ≤ size →
    size < 2 ^ 64 → ReallocOk page env p size w := by
  intro hall
  obtain ⟨h, r, hreach, hr, hheaders, _⟩ := reaches_malloc
  have hu : InUse (flat [r]) 4144 56 := by
    rw [flat_cons, hheaders]
    exact ⟨_, List.mem_cons_self, by decide, rfl, rfl⟩
  refine realloc_wraps hr hu (by decide) (hall .default _ _ (.mapping 0) 4144 (2 ^ 64 - 1) hreach ?_ ?_ ?_)
  · exact List.mem_cons_self
  · decide
  · decide

end Cs326.Allocator
