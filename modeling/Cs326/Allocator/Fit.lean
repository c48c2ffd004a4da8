import Cs326.Allocator.Malloc
import Cs326.Lib.Selection
import Mathlib.Data.List.Nodup

/-!
# The policies

What `reuse` finds under each policy, in any list of blocks. The loops are selections by the free space of the blocks
(`reuseList_first_fit`, `reuseList_best_fit`, `reuseList_worst_fit`):

* `first_fit` passes over blocks that fit exactly, so it finds the first block that fits iff none of these comes first
  (`first_fit`);
* `best_fit` starts from the bound `INT_MAX`, so it finds the tightest block iff that is no larger, or none fits
  (`best_fit`);
* `worst_fit` finds the block with the most free space (`worst_fit`).

All three need the name of the policy to be readable, which it is where the variable is not set.
-/

namespace Cs326.Allocator

variable {h h' : Heap} {xs : List Header} {x : Header} {env : Env} {field : Field} {size blk ptr n p v : Nat}
  {c : UInt8}

/-- The free space of a block. -/
def Header.slack (x : Header) : Nat := x.size - x.usage

/-- The block has room for the request and its header. -/
def Fits (size : Nat) (x : Header) : Prop := size + sizeof_mem_block ≤ x.slack

instance (size : Nat) (x : Header) : Decidable (Fits size x) := inferInstanceAs (Decidable (_ ≤ _))

/-! ## The loops -/

section Loops

/-- The address of a block, or `NULL`. -/
def addrOf (x : Option Header) : Nat := (x.map Header.addr).getD 0

theorem addrOf_eq_zero {o : Option Header} (hne : ∀ x, o = some x → x.addr ≠ 0) : addrOf o = 0 ↔ o = none := by
  cases o with
  | none => simp [addrOf]
  | some x => simpa [addrOf] using hne x rfl

/-- The step of a loop that keeps the address of a block. -/
def addrStep (better : Nat → Nat → Prop) [DecidableRel better] (size : Nat) (acc : Nat × Nat) (x : Header) :
    Nat × Nat :=
  if size + sizeof_mem_block ≤ x.slack ∧ better x.slack acc.1 then (x.slack, x.addr) else acc

/-- Such a loop selects that block. -/
theorem foldl_addrStep (better : Nat → Nat → Prop) [DecidableRel better] (bound : Nat) :
    (xs.foldl (addrStep better size) (bound, 0)).2 =
      addrOf (selection better (fun x => decide (Fits size x)) Header.slack bound xs) := by
  have hstep : ∀ acc x, addrStep better size (Prod.map id addrOf acc) x =
      Prod.map id addrOf (selectStep better (fun x => decide (Fits size x)) Header.slack acc x) := by
    intro acc x
    have hiff : decide (Fits size x) = true ∧ better x.slack acc.1 ↔
        size + sizeof_mem_block ≤ x.slack ∧ better x.slack acc.1 := by rw [decide_eq_true_eq]; rfl
    unfold addrStep selectStep
    rw [if_congr hiff rfl rfl, Prod.map_fst, id]
    split <;> rfl
  have hfold : xs.foldl (addrStep better size) (Prod.map id addrOf (bound, none)) = Prod.map id addrOf
      (xs.foldl (selectStep better (fun x => decide (Fits size x)) Header.slack) (bound, none)) :=
    List.foldl_hom _ hstep
  exact congrArg Prod.snd hfold

theorem reuseList_first_fit (halgo : env.policy = "first_fit")
    (hsize : size + sizeof_mem_block < 2 ^ 64) :
    reuseList env size xs = addrOf (xs.find? fun x => size + sizeof_mem_block < x.slack) := by
  unfold reuseList
  dsimp only
  rw [if_pos halgo, uadd_eq hsize]
  exact walkList_find _ Header.addr

theorem reuseList_best_fit (halgo : env.policy = "best_fit")
    (hsize : size + sizeof_mem_block < 2 ^ 64) :
    reuseList env size xs =
      addrOf (selection (fun a b => a ≤ b) (fun x => decide (Fits size x)) Header.slack INT_MAX xs) := by
  unfold reuseList
  dsimp only
  rw [halgo, if_neg (by decide), if_pos rfl, uadd_eq hsize, ← foldl_addrStep]
  exact walkList_foldl (addrStep (fun a b => a ≤ b) size) (INT_MAX, 0)

theorem reuseList_worst_fit (halgo : env.policy = "worst_fit")
    (hsize : size + sizeof_mem_block < 2 ^ 64) :
    reuseList env size xs =
      addrOf (selection (fun a b => b ≤ a) (fun x => decide (Fits size x)) Header.slack 0 xs) := by
  unfold reuseList
  dsimp only
  rw [halgo, if_neg (by decide), if_neg (by decide), if_pos rfl, uadd_eq hsize,
    ← foldl_addrStep]
  exact walkList_foldl (addrStep (fun a b => b ≤ a) size) (0, 0)

end Loops

/-- The policy takes the block for the request. -/
def Env.Accepts (env : Env) (size : Nat) (x : Header) : Prop :=
  let algo := env.policy
  algo = "first_fit" ∧ size + sizeof_mem_block < x.slack ∨ algo = "best_fit" ∧ Fits size x ∧ x.slack ≤ INT_MAX ∨
    algo = "worst_fit" ∧ Fits size x

/-- **`reuse` finds a block** iff its policy takes one. -/
theorem reuseList_eq_zero (hne : ∀ x ∈ xs, x.addr ≠ 0) (hsize : size + sizeof_mem_block < 2 ^ 64) :
    reuseList env size xs = 0 ↔ ∀ x ∈ xs, ¬env.Accepts size x := by
  by_cases h₁ : env.policy = "first_fit"
  · rw [reuseList_first_fit h₁ hsize, addrOf_eq_zero fun x ho => hne x (List.mem_of_find?_eq_some ho)]
    simp [Env.Accepts, h₁]
  have hmem : ∀ {better : Nat → Nat → Prop} [DecidableRel better] {bound x}, Ranking better →
      selection better (fun x => decide (Fits size x)) Header.slack bound xs = some x → x.addr ≠ 0 := by
    intro better _ bound x hr ho
    obtain ⟨_, _, l₁, l₂, hxs, _⟩ := selection_eq_some hr ho
    exact hne x (by rw [hxs]; simp)
  by_cases h₂ : env.policy = "best_fit"
  · rw [reuseList_best_fit h₂ hsize, addrOf_eq_zero fun x => hmem ranking_le, selection_eq_none ranking_le]
    simp [Env.Accepts, h₂]
  by_cases h₃ : env.policy = "worst_fit"
  · rw [reuseList_worst_fit h₃ hsize, addrOf_eq_zero fun x => hmem ranking_ge, selection_eq_none ranking_ge]
    simp [Env.Accepts, h₃]
  · unfold reuseList
    dsimp only
    rw [if_neg h₁, if_neg h₂, if_neg h₃]
    simp [Env.Accepts, h₁, h₂, h₃]

/-! ## What `malloc` maps -/

section Log

theorem set_log (hs : h.set blk field v = .ok h') : h'.log = h.log := by
  obtain ⟨_, rfl⟩ := accessible_of_set hs
  rfl

theorem memset_log (hs : h.memset ptr c n = .ok h') : h'.log = h.log := by
  unfold Heap.memset at hs
  split at hs
  · rw [← Except.ok.inj hs]
  · cases hs

theorem scribble_log (hs : scribble env ptr n h = .ok h') : h'.log = h.log := by
  unfold scribble at hs
  split at hs
  · exact memset_log hs
  · rw [← Except.ok.inj hs]

theorem malloc_reuse_log (hs : malloc_reuse env blk size h = .ok (h', p)) : h'.log = h.log := by
  unfold malloc_reuse at hs
  obtain ⟨h₁, hid, hs⟩ := bind_ok hs
  obtain ⟨h₂, husage, hs⟩ := bind_ok hs
  obtain ⟨h₃, hscribble, hs⟩ := bind_ok hs
  obtain rfl := (Prod.mk.inj (Except.ok.inj hs)).1
  calc h₃.log = h₂.log := scribble_log hscribble
    _ = h₁.countAllocation.log := set_log husage
    _ = h₁.log := rfl
    _ = h.log := set_log hid

theorem malloc_split_log (hs : malloc_split env blk size h = .ok (h', p)) : h'.log = h.log := by
  unfold malloc_split at hs
  obtain ⟨_, _, hs⟩ := bind_ok hs
  obtain ⟨h₁, hid, hs⟩ := bind_ok hs
  obtain ⟨_, _, hs⟩ := bind_ok hs
  obtain ⟨_, _, hs⟩ := bind_ok hs
  obtain ⟨h₂, hsize, hs⟩ := bind_ok hs
  obtain ⟨h₃, husage, hs⟩ := bind_ok hs
  obtain ⟨_, _, hs⟩ := bind_ok hs
  obtain ⟨h₄, hstart, hs⟩ := bind_ok hs
  obtain ⟨_, _, hs⟩ := bind_ok hs
  obtain ⟨h₅, hregion, hs⟩ := bind_ok hs
  obtain ⟨_, _, hs⟩ := bind_ok hs
  obtain ⟨h₆, hnext, hs⟩ := bind_ok hs
  obtain ⟨_, _, hs⟩ := bind_ok hs
  obtain ⟨h₇, hshrink, hs⟩ := bind_ok hs
  obtain ⟨h₈, hlink, hs⟩ := bind_ok hs
  obtain ⟨h₉, hscribble, hs⟩ := bind_ok hs
  obtain rfl := (Prod.mk.inj (Except.ok.inj hs)).1
  calc h₉.log = h₈.log := scribble_log hscribble
    _ = h₇.log := set_log hlink
    _ = h₆.log := set_log hshrink
    _ = h₅.log := set_log hnext
    _ = h₄.log := set_log hregion
    _ = h₃.log := set_log hstart
    _ = h₂.log := set_log husage
    _ = h₁.countAllocation.log := set_log hsize
    _ = h₁.log := rfl
    _ = h.log := set_log hid

/-- `malloc` maps only when `reuse` finds nothing. -/
theorem reuse_of_malloc_log {page : PageSize} (hres : malloc page env size h = .ok (h', p)) (hlog : h'.log ≠ h.log) :
    reuse env (align size) h = .ok 0 := by
  unfold malloc at hres
  obtain ⟨found, hreuse, hres⟩ := bind_ok hres
  by_cases hfound : found = 0
  · rw [hreuse, hfound]
  · rw [if_pos hfound] at hres
    obtain ⟨usage, _, hres⟩ := bind_ok hres
    split at hres
    · exact absurd (malloc_reuse_log hres) hlog
    · exact absurd (malloc_split_log hres) hlog

end Log

/-! ## Lists in memory -/

section HeapOf

/-- A heap in which the blocks `xs`, each mapped on its own, make up the list. -/
def heapOf : List Header → Heap
  | [] => ⟨fun _ => 0, [], [], 0, 0⟩
  | x :: xs => { (heapOf xs).putHeader x (first Header.addr xs 0) with
      mapped := (x.addr, x.size) :: (heapOf xs).mapped
      g_head := x.addr }

theorem heapOf_g_head (xs : List Header) : (heapOf xs).g_head = first Header.addr xs 0 := by cases xs <;> rfl

theorem heapOf_mapped (hx : x ∈ xs) : (x.addr, x.size) ∈ (heapOf xs).mapped := by
  induction xs with
  | nil => cases hx
  | cons y xs ih =>
    rcases List.mem_cons.mp hx with rfl | hx
    · exact List.mem_cons_self
    · exact List.mem_cons_of_mem _ (ih hx)

/-- **Any blocks that do not overlap make up a list** in some memory. -/
theorem heapOf_blockList (hap : xs.Pairwise Header.Apart) (hok : ∀ x ∈ xs, x.Ok)
    (hlt : ∀ x ∈ xs, x.region_start < 2 ^ 64 ∧ x.region_size < 2 ^ 64) : BlockList (heapOf xs) xs where
  chain := by
    refine ⟨heapOf_g_head xs, ?_⟩
    induction xs with
    | nil => trivial
    | cons x xs ih =>
      obtain ⟨hx, hap⟩ := List.pairwise_cons.mp hap
      have hokx := hok x List.mem_cons_self
      have hend := hokx.end_lt
      have hseg := ih hap (fun y hy => hok y (List.mem_cons_of_mem _ hy)) fun y hy => hlt y (List.mem_cons_of_mem _ hy)
      have hnext : first Header.addr xs 0 < 2 ^ 64 := by
        cases xs with
        | nil => decide
        | cons y xs => exact (hok y (by simp)).addr_lt
      refine ⟨at_putHeader fun f => ?_, hseg.mono fun y hy e hat => hat.congr fun a h₁ h₂ => ?_⟩
      · cases f
        · exact hokx.alloc_id_lt
        · show x.size < 2 ^ 64
          omega
        · show x.usage < 2 ^ 64
          have := hokx.usage_ok
          omega
        · exact (hlt x List.mem_cons_self).1
        · exact (hlt x List.mem_cons_self).2
        · exact hnext
      · have := hx y hy
        have := hokx.header_le
        have := (hok y (List.mem_cons_of_mem _ hy)).header_le
        exact putHeader_mem (by unfold Header.Apart at *; omega)
  head_lt := by
    rw [heapOf_g_head]
    cases xs with
    | nil => decide
    | cons x xs => exact (hok x List.mem_cons_self).addr_lt
  addr_ne x hx := (hok x hx).addr_ne
  accessible x hx field := by
    have := field.offset_le
    have := (hok x hx).header_le
    exact accessible_of_mem (heapOf_mapped hx) (by dsimp only; omega) (by dsimp only; omega)
  usage_le x hx := by rcases (hok x hx).usage_ok with h0 | h0 <;> omega

end HeapOf

/-! ## What `reuse` finds -/

/-- `reuse` returns `NULL` iff no block fits, and else a block that does, chosen among those before and behind it. -/
def Finds (choice : List Header → Header → List Header → Prop) (env : Env) (size : Nat) (h : Heap) (xs : List Header) :
    Prop :=
  ∃ p, reuse env size h = .ok p ∧ (p = 0 ↔ ∀ x ∈ xs, ¬Fits size x) ∧
    (p ≠ 0 → ∃ l₁ x l₂, xs = l₁ ++ x :: l₂ ∧ p = x.addr ∧ Fits size x ∧ choice l₁ x l₂)

/-- The first block that fits. -/
def Earliest (size : Nat) (l₁ : List Header) (_ : Header) (_ : List Header) : Prop := ∀ y ∈ l₁, ¬Fits size y

/-- The block that fits with the least free space, the last one of these. -/
def Tightest (size : Nat) (l₁ : List Header) (x : Header) (l₂ : List Header) : Prop :=
  (∀ y ∈ l₁, Fits size y → x.slack ≤ y.slack) ∧ ∀ y ∈ l₂, Fits size y → x.slack < y.slack

/-- The block with the most free space, the last one of these. -/
def Loosest (l₁ : List Header) (x : Header) (l₂ : List Header) : Prop :=
  (∀ y ∈ l₁, y.slack ≤ x.slack) ∧ ∀ y ∈ l₂, y.slack < x.slack

/-- `malloc` maps a region only when no block can hold the request. -/
def MapsLast (env : Env) (size : Nat) (h : Heap) (xs : List Header) : Prop :=
  ∀ page n h' p, align n = size → malloc page env n h = .ok (h', p) → h'.log ≠ h.log → ∀ x ∈ xs, ¬Fits size x

/-- A search for `o` finds its address. -/
theorem BlockList.finds {choice : List Header → Header → List Header → Prop} {o : Option Header}
    (hb : BlockList h xs) (hread : env.Readable) (hreuse : reuseList env size xs = addrOf o)
    (hnone : o = none → ∀ x ∈ xs, ¬Fits size x)
    (hsome : ∀ x, o = some x → Fits size x ∧ ∃ l₁ l₂, xs = l₁ ++ x :: l₂ ∧ choice l₁ x l₂) :
    Finds choice env size h xs := by
  refine ⟨addrOf o, by rw [hb.reuse_eq hread, hreuse], ?_⟩
  cases o with
  | none => exact ⟨⟨fun _ => hnone rfl, fun _ => rfl⟩, fun h0 => absurd rfl h0⟩
  | some x =>
    obtain ⟨hfits, l₁, l₂, hl, hchoice⟩ := hsome x rfl
    have hx : x ∈ xs := by rw [hl]; simp
    refine ⟨⟨fun h0 => absurd h0 (hb.addr_ne x hx), fun h0 => absurd hfits (h0 x hx)⟩, fun _ => ?_⟩
    exact ⟨l₁, x, l₂, hl, rfl, hfits, hchoice⟩

theorem Finds.readable {choice : List Header → Header → List Header → Prop} (hf : Finds choice env size h xs) :
    env.Readable := by
  obtain ⟨p, hreuse, _⟩ := hf
  exact readable_of_reuse hreuse

theorem Finds.mapsLast {choice : List Header → Header → List Header → Prop} (hf : Finds choice env size h xs) :
    MapsLast env size h xs := by
  rintro page n h' p rfl hres hlog
  obtain ⟨q, hreuse, hnull, _⟩ := hf
  rw [reuse_of_malloc_log hres hlog] at hreuse
  exact hnull.mp (Except.ok.inj hreuse).symm

/-- What has no `z` at or before it comes behind `z`. -/
theorem mem_of_behind {l₁ l₂ m₁ m₂ : List Header} {z : Header} (heq : l₁ ++ x :: l₂ = m₁ ++ z :: m₂) (hm : x ∉ m₁)
    (hne : x ≠ z) : z ∈ l₁ := by
  rcases List.append_eq_append_iff.mp heq with ⟨a, hm₁, htail⟩ | ⟨a, hl₁, htail⟩
  · cases a with
    | nil => exact absurd (List.cons.inj htail).1 hne
    | cons y a =>
      refine absurd ?_ hm
      rw [hm₁, (List.cons.inj htail).1]
      simp
  · cases a with
    | nil => exact absurd (List.cons.inj htail).1.symm hne
    | cons y a =>
      rw [hl₁, (List.cons.inj htail).1]
      simp

/-- **First fit**, up to blocks that fit exactly. -/
theorem first_fit (hb : BlockList h xs) (halgo : env.policy = "first_fit")
    (hsize : size + sizeof_mem_block < 2 ^ 64) :
    Finds (Earliest size) env size h xs ∧ MapsLast env size h xs ↔ env.Readable ∧
      ∀ l₁ x l₂, xs = l₁ ++ x :: l₂ → x.slack = size + sizeof_mem_block →
        ∃ y ∈ l₁, size + sizeof_mem_block < y.slack := by
  have hfind : reuseList env size xs = addrOf _ := reuseList_first_fit halgo hsize
  constructor
  · rintro ⟨hf, _⟩
    have hread := hf.readable
    refine ⟨hread, fun l₁ x l₂ hxs hexact => ?_⟩
    obtain ⟨p, hreuse, hnull, hp⟩ := hf
    have hfits : Fits size x := hexact.ge
    have hx : x ∈ xs := by rw [hxs]; simp
    have hp₀ : p ≠ 0 := fun h0 => hnull.mp h0 x hx hfits
    obtain ⟨m₁, z, m₂, hzs, rfl, _, hbefore⟩ := hp hp₀
    rw [hb.reuse_eq hread, hfind] at hreuse
    -- the block found has more free space than asked for
    have hroom : size + sizeof_mem_block < z.slack := by
      cases ho : xs.find? fun x => size + sizeof_mem_block < x.slack with
      | none =>
        rw [ho] at hreuse
        exact absurd (Except.ok.inj hreuse).symm hp₀
      | some z' =>
        rw [ho] at hreuse
        obtain ⟨hroom, a, b, hz's, _⟩ := List.find?_eq_some_iff_append.mp ho
        have hz : z' = z := List.inj_on_of_nodup_map (addr_nodup hb.chain.seg hb.addr_ne) (by rw [hz's]; simp)
          (by rw [hzs]; simp) (Except.ok.inj hreuse)
        rw [← hz]
        exact of_decide_eq_true hroom
    refine ⟨z, mem_of_behind (hxs.symm.trans hzs) (fun hm => hbefore x hm hfits) ?_, hroom⟩
    rintro rfl
    omega
  · rintro ⟨hread, hexact⟩
    -- a block that fits and has no more free space than asked for comes behind one that has
    have hbehind : ∀ l₁ x l₂, xs = l₁ ++ x :: l₂ → Fits size x → (∀ y ∈ l₁, ¬size + sizeof_mem_block < y.slack) →
        size + sizeof_mem_block < x.slack := by
      intro l₁ x l₂ hxs hfits hno
      by_contra hlt
      obtain ⟨y, hy, hroom⟩ := hexact l₁ x l₂ hxs (Nat.le_antisymm (Nat.le_of_not_lt hlt) hfits)
      exact hno y hy hroom
    have hfinds : Finds (Earliest size) env size h xs := by
      refine hb.finds hread hfind (fun ho x hx hfits => ?_) fun x ho => ?_
      · have hno : ∀ y ∈ xs, ¬size + sizeof_mem_block < y.slack := by simpa using ho
        obtain ⟨l₁, l₂, hxs⟩ := List.append_of_mem hx
        exact hno x hx (hbehind l₁ x l₂ hxs hfits fun y hy => hno y (by rw [hxs]; simp [hy]))
      · obtain ⟨hroom, l₁, l₂, hxs, hno⟩ := List.find?_eq_some_iff_append.mp ho
        refine ⟨(of_decide_eq_true hroom).le, l₁, l₂, hxs, fun y hy hfits => ?_⟩
        have hno : ∀ y ∈ l₁, ¬size + sizeof_mem_block < y.slack := by simpa using hno
        obtain ⟨a, b, rfl⟩ := List.append_of_mem hy
        refine hno y hy (hbehind a y (b ++ x :: l₂) (by simp [hxs]) hfits fun z hz => hno z (by simp [hz]))
    exact ⟨hfinds, hfinds.mapsLast⟩

/-- A page of which 4040 bytes are free. -/
def page_block : List Header := [⟨4096, 0, 4096, 56, 4096, 4096⟩]

theorem page_block_list : BlockList (heapOf page_block) page_block := by
  refine heapOf_blockList (List.pairwise_singleton _ _) (List.forall_mem_singleton.mpr ?_)
    (List.forall_mem_singleton.mpr (by decide))
  constructor <;> decide

/-- A page in three blocks, the first of which is full up to 40 bytes. -/
def page_blocks : List Header :=
  [⟨4096, 0, 96, 56, 4096, 4096⟩, ⟨4192, 1, 568, 56, 4096, 4096⟩, ⟨4760, 2, 3432, 2464, 4096, 4096⟩]

theorem page_blocks_list : BlockList (heapOf page_blocks) page_blocks := by
  refine heapOf_blockList ?_ ?_ (by decide)
  · simp [page_blocks, Header.Apart]
  · simp only [page_blocks, List.forall_mem_cons]
    refine ⟨?_, ?_, ?_, fun x hx => absurd hx List.not_mem_nil⟩ <;> constructor <;> decide

/-- The variable is not set. -/
def Env.unset : Env := ⟨none, false, none, true⟩

theorem first_fit_page : Finds (Earliest 8) .unset 8 (heapOf page_blocks) page_blocks ∧
    MapsLast .unset 8 (heapOf page_blocks) page_blocks := by
  refine (first_fit page_blocks_list rfl (by decide)).mpr ⟨by decide, fun l₁ x l₂ hxs hexact => ?_⟩
  have hno : ∀ y ∈ page_blocks, y.slack ≠ 8 + sizeof_mem_block := by decide
  exact absurd hexact (hno x (by rw [hxs]; simp))

/-- All of the free space is asked for. -/
theorem first_fit_exact : ¬∀ h xs env size, BlockList h xs → env.policy = "first_fit" →
    size + sizeof_mem_block < 2 ^ 64 → Finds (Earliest size) env size h xs ∧ MapsLast env size h xs := by
  intro hall
  obtain ⟨⟨p, hreuse, hnull, _⟩, _⟩ := hall _ _ .unset 3992 page_block_list rfl (by decide)
  have hnone : reuse .unset 3992 (heapOf page_block) = .ok 0 := page_block_list.reuse_eq (by decide)
  rw [hnone] at hreuse
  exact hnull.mp (Except.ok.inj hreuse).symm _ List.mem_cons_self (by decide)

/-- **Best fit**, up to the bound the search starts from. -/
theorem best_fit (hb : BlockList h xs) (halgo : env.policy = "best_fit")
    (hsize : size + sizeof_mem_block < 2 ^ 64) :
    Finds (Tightest size) env size h xs ↔ env.Readable ∧
      ((∃ x ∈ xs, Fits size x) → ∃ x ∈ xs, Fits size x ∧ x.slack ≤ INT_MAX) := by
  have hsel : reuseList env size xs = addrOf _ := reuseList_best_fit halgo hsize
  constructor
  · intro hf
    have hread := hf.readable
    refine ⟨hread, ?_⟩
    rintro ⟨x, hx, hfits⟩
    obtain ⟨p, hreuse, hnull, _⟩ := hf
    rw [hb.reuse_eq hread, hsel] at hreuse
    cases ho : selection (fun a b => a ≤ b) (fun x => decide (Fits size x)) Header.slack INT_MAX xs with
    | none =>
      rw [ho] at hreuse
      exact absurd hfits (hnull.mp (Except.ok.inj hreuse).symm x hx)
    | some z =>
      obtain ⟨hz, hbound, l₁, l₂, hxs, _⟩ := selection_eq_some ranking_le ho
      exact ⟨z, by rw [hxs]; simp, of_decide_eq_true hz, hbound⟩
  · rintro ⟨hread, hbound⟩
    refine hb.finds hread hsel (fun ho x hx hfits => ?_) fun x ho => ?_
    · obtain ⟨z, hz, hzfits, hzle⟩ := hbound ⟨x, hx, hfits⟩
      exact (selection_eq_none ranking_le).mp ho z hz (decide_eq_true hzfits) hzle
    · obtain ⟨hx, _, l₁, l₂, hxs, hbefore, hbehind⟩ := selection_eq_some ranking_le ho
      refine ⟨of_decide_eq_true hx, l₁, l₂, hxs, ?_, ?_⟩
      · intro y hy hfits
        exact hbefore y hy (decide_eq_true hfits)
      · intro y hy hfits
        exact Nat.lt_of_not_le (hbehind y hy (decide_eq_true hfits))

/-- A region of which more than `INT_MAX` bytes are free, in front of a block in use. -/
def large_block : List Header :=
  [⟨4096, 0, 2 ^ 31 + 48, 0, 4096, 2 ^ 31 + 4096⟩, ⟨2 ^ 31 + 4144, 1, 4048, 4048, 4096, 2 ^ 31 + 4096⟩]

theorem large_block_list : BlockList (heapOf large_block) large_block := by
  refine heapOf_blockList (List.pairwise_pair.mpr (.inl (by decide)))
    (List.forall_mem_cons.mpr ⟨?_, List.forall_mem_singleton.mpr ?_⟩) (by decide)
  · constructor <;> decide
  · constructor <;> decide

/-- The variable is set, and its value lies in the data of a program that is linked at a fixed address. -/
def Env.naming (text : String) : Env := ⟨some ⟨text, 0x4052a0, by decide, by decide⟩, false, none, true⟩

theorem Env.naming_readable (text : String) : (Env.naming text).Readable := by
  rintro v hv
  obtain rfl := Option.some.inj hv
  exact (by decide : cutToInt 0x4052a0 = 0x4052a0)

theorem best_fit_page : Finds (Tightest 8) (.naming "best_fit") 8 (heapOf page_blocks) page_blocks :=
  (best_fit page_blocks_list rfl (by decide)).mpr
    ⟨Env.naming_readable _, fun _ => ⟨_, .tail _ List.mem_cons_self, by decide, by decide⟩⟩

/-- The free block is passed over. -/
theorem best_fit_large : ¬∀ h xs env size, BlockList h xs → env.policy = "best_fit" →
    size + sizeof_mem_block < 2 ^ 64 → Finds (Tightest size) env size h xs := by
  intro hall
  obtain ⟨p, hreuse, hnull, _⟩ := hall _ _ (.naming "best_fit") 8 large_block_list rfl (by decide)
  have hnone : reuse (.naming "best_fit") 8 (heapOf large_block) = .ok 0 :=
    large_block_list.reuse_eq (Env.naming_readable _)
  rw [hnone] at hreuse
  exact hnull.mp (Except.ok.inj hreuse).symm _ List.mem_cons_self (by decide)

/-- **Worst fit**, once `reuse` can read the name. -/
theorem worst_fit (hb : BlockList h xs) (halgo : env.policy = "worst_fit")
    (hsize : size + sizeof_mem_block < 2 ^ 64) : Finds Loosest env size h xs ↔ env.Readable := by
  refine ⟨Finds.readable, fun hread => ?_⟩
  refine hb.finds hread (reuseList_worst_fit halgo hsize) (fun ho x hx hfits => ?_) fun x ho => ?_
  · exact (selection_eq_none ranking_ge).mp ho x hx (decide_eq_true hfits) (Nat.zero_le _)
  · obtain ⟨hx, _, l₁, l₂, hxs, hbefore, hbehind⟩ := selection_eq_some ranking_ge ho
    have hfits : Fits size x := of_decide_eq_true hx
    -- what does not fit has less free space than what does
    have hsmall : ∀ y, ¬Fits size y → y.slack < x.slack := by
      intro y hy
      exact Nat.lt_of_lt_of_le (Nat.lt_of_not_le hy) hfits
    refine ⟨hfits, l₁, l₂, hxs, ?_, ?_⟩
    · intro y hy
      by_cases hyf : Fits size y
      · exact hbefore y hy (decide_eq_true hyf)
      · exact (hsmall y hyf).le
    · intro y hy
      by_cases hyf : Fits size y
      · exact Nat.lt_of_not_le (hbehind y hy (decide_eq_true hyf))
      · exact hsmall y hyf

theorem worst_fit_large : Finds Loosest (.naming "worst_fit") 8 (heapOf large_block) large_block :=
  (worst_fit large_block_list rfl (by decide)).mpr (Env.naming_readable _)

/-- The variable is set, and its value lies on the stack, where the system puts it. -/
def Env.exported (text : String) : Env := ⟨some ⟨text, 0x7ffd1c0de2a0, by decide, by decide⟩, false, none, true⟩

/-- `ALLOCATOR_ALGORITHM=worst_fit`: the loop is not reached. -/
theorem worst_fit_exported : ¬∀ h xs env size, BlockList h xs → env.policy = "worst_fit" →
    size + sizeof_mem_block < 2 ^ 64 → Finds Loosest env size h xs := by
  intro hall
  have hread := (hall _ _ (.exported "worst_fit") 8 page_blocks_list rfl (by decide)).readable
  exact absurd (hread _ rfl) (by decide)

end Cs326.Allocator
