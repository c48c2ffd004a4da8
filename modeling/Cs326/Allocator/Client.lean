import Cs326.Allocator.Free
import Cs326.Lib.Run
import Mathlib.Data.List.Induction

/-!
# Programs that use the allocator

A program calls the allocator and writes to what it has allocated (`Step`). What one permitted call does to the
regions is one of four effects (`Effect`, `Inv.effect`). From them follows the invariant of the runs (`Inv`): the live
allocations are the blocks in use, the system calls match, and the numbers of the blocks are distinct until the counter
wraps.
-/

namespace Cs326.Allocator

variable {h h' : Heap} {rs rs' : List Region} {page : PageSize} {p q u a n : Nat}

/-! ## System calls -/

/-- The mappings of a log that have not been passed to `munmap`, oldest first. -/
def outstanding (log : List Syscall) : List (Nat × Nat) :=
  log.foldl (fun rs call => match call with
    | .mmap start len => rs ++ [(start, len)]
    | .munmap start len => rs.erase (start, len)) []

/-- Every call of `munmap` is given a mapping that is outstanding. -/
def Matched (log : List Syscall) : Prop :=
  ∀ l₁ start len l₂, log = l₁ ++ .munmap start len :: l₂ → (start, len) ∈ outstanding l₁

@[simp] theorem outstanding_mmap (log : List Syscall) (start len : Nat) :
    outstanding (log ++ [.mmap start len]) = outstanding log ++ [(start, len)] := by
  simp [outstanding, List.foldl_append]

@[simp] theorem outstanding_munmap (log : List Syscall) (start len : Nat) :
    outstanding (log ++ [.munmap start len]) = (outstanding log).erase (start, len) := by
  simp [outstanding, List.foldl_append]

theorem matched_nil : Matched [] := fun l₁ _ _ _ h => absurd h.symm (by simp)

theorem Matched.snoc {log : List Syscall} {call : Syscall} (h : Matched log)
    (hcall : ∀ start len, call = .munmap start len → (start, len) ∈ outstanding log) : Matched (log ++ [call]) := by
  intro l₁ start len l₂ he
  rcases List.eq_nil_or_concat l₂ with rfl | ⟨l₂, c, rfl⟩
  · obtain ⟨rfl, hc⟩ := List.append_inj' he rfl
    exact hcall start len (List.singleton_inj.mp hc)
  · rw [List.concat_eq_append, ← List.cons_append, ← List.append_assoc] at he
    exact h l₁ start len l₂ (List.append_inj' he rfl).1

theorem Matched.of_append {l₁ l₂ : List Syscall} (h : Matched (l₁ ++ l₂)) : Matched l₁ :=
  fun a start len b he => h a start len (b ++ l₂) (by rw [he]; simp)

/-- In a matched log the calls of `mmap` are those of `munmap` and the outstanding mappings. -/
theorem Matched.count {log : List Syscall} (h : Matched log) (start len : Nat) :
    log.count (.mmap start len) = log.count (.munmap start len) + (outstanding log).count (start, len) := by
  induction log using List.reverseRecOn with
  | nil => rfl
  | append_singleton log call ih =>
    have ih := ih h.of_append
    cases call with
    | mmap s n =>
      rw [outstanding_mmap, List.count_append, List.count_append, List.count_append, ih]
      by_cases he : (s, n) = (start, len)
      · obtain ⟨rfl, rfl⟩ := Prod.mk.inj he
        simp
        omega
      · have : Syscall.mmap s n ≠ .mmap start len := by simpa using he
        simp [he, this]
    | munmap s n =>
      have hmem : (s, n) ∈ outstanding log := h log s n [] rfl
      rw [outstanding_munmap, List.count_append, List.count_append, ih]
      by_cases he : (s, n) = (start, len)
      · obtain ⟨rfl, rfl⟩ := Prod.mk.inj he
        have := List.count_pos_iff.mpr hmem
        rw [List.count_erase_self]
        simp
        omega
      · have : Syscall.munmap s n ≠ .munmap start len := by simpa using he
        rw [List.count_erase_of_ne (Ne.symm he)]
        simp [this]

/-! ## Calls -/

inductive Call
  | malloc (env : Env) (size : Nat)
  | calloc (env : Env) (nmemb size : Nat)
  | realloc (env : Env) (ptr size : Nat)
  | free (env : Env) (ptr : Nat)
  /-- The program writes a byte. -/
  | write (ptr : Nat) (c : UInt8)

namespace Call

/-- The heap after the call and the pointer returned. -/
def run (page : PageSize) : Call → Heap → Except Fault (Heap × Nat)
  | .malloc env size, h => Allocator.malloc page env size h
  | .calloc env nmemb size, h => Allocator.calloc page env nmemb size h
  | .realloc env ptr size, h => Allocator.realloc page env ptr size h
  | .free env ptr, h => do return (← Allocator.free env ptr h, 0)
  | .write ptr c, h => do return (← h.memset ptr c 1, 0)

/-- A call that searches the list can read the name of its policy. -/
def Readable : Call → Prop
  | .malloc env _ => env.Readable
  | .calloc env _ _ => env.Readable
  | .realloc env ptr _ => ptr = 0 → env.Readable
  | _ => True

/-- The number of bytes that a call asks for. -/
def request : Call → Option Nat
  | .malloc _ size => some size
  | .calloc _ nmemb size => some (umul nmemb size)
  | .realloc _ ptr size => if ptr = 0 then some size else none
  | _ => none

/-- The allocation that a call ends. -/
def ends : Call → Option Nat
  | .realloc _ ptr _ => if ptr = 0 then none else some ptr
  | .free _ ptr => some ptr
  | _ => none

/-- The call does not make `munmap` fail. -/
def unmaps : Call → Bool
  | .realloc env _ _ => env.munmap
  | .free env _ => env.munmap
  | _ => true

/-- The live allocations, as pointer and size, after a call that has returned `p`. -/
def live (c : Call) (p : Nat) (live : List (Nat × Nat)) : List (Nat × Nat) :=
  match c.request, c.ends with
  | some n, _ => if p = 0 then live else (p, n) :: live
  | none, some q => live.filter fun a => a.1 ≠ q
  | none, none => live

end Call

/-- A program: the heap, and as ghost state its live allocations. -/
structure Client where
  heap : Heap
  live : List (Nat × Nat)

def Client.init : Client := ⟨⟨fun _ => 0, [], [], 0, 0⟩, []⟩

/-- The largest request that does not wrap once it is aligned and has its header. -/
def request_max : Nat := 2 ^ 64 - 56

/-- What a program may call. -/
def Permitted (page : PageSize) (w : Client) : Call → Prop
  | .malloc _ size => size ≤ request_max
  | .calloc env nmemb size => umul nmemb size ≤ request_max ∧
      ∀ h', malloc page env (umul nmemb size) w.heap ≠ .ok (h', 0)
  | .realloc _ ptr size => if ptr = 0 then size ≤ request_max else ptr ∈ w.live.map Prod.fst ∧ size = 0
  | .free _ ptr => ptr ∈ w.live.map Prod.fst
  | .write ptr _ => ∃ a ∈ w.live, a.1 ≤ ptr ∧ ptr < a.1 + a.2

/-- One permitted call, which shows the call and the pointer returned. -/
def Step (page : PageSize) (w : Client) (ev : List (Call × Nat)) (w' : Client) : Prop :=
  ∃ c p h', Permitted page w c ∧ c.run page w.heap = .ok (h', p) ∧ ev = [(c, p)] ∧ w' = ⟨h', c.live p w.live⟩

/-- The runs of programs. -/
def Reaches (page : PageSize) (tr : List (Call × Nat)) (w : Client) : Prop := Run (Step page) Client.init tr w

/-- The number of allocations that have been made. -/
def allocations (tr : List (Call × Nat)) : Nat := tr.countP fun e => e.1.request.isSome && e.2 ≠ 0

/-! ## The effect of a call -/

/-- What a call does, which takes the heap `h` with the regions `rs` to `h'` with `rs'` and returns `p`. -/
inductive Effect (c : Call) (h : Heap) (rs : List Region) (p : Nat) (h' : Heap) (rs' : List Region) : Prop
  | fails {n : Nat} : c.request = some n → p = 0 → h' = h → rs' = rs → Effect c h rs p h' rs'
  | allocates {n size : Nat} : c.request = some n → n ≤ size → p ≠ 0 → Allocates size h rs p h' rs' →
      Effect c h rs p h' rs'
  | frees {env : Env} {q : Nat} : c.request = none → c.ends = some q → c.unmaps = env.munmap →
      Frees env h rs q h' rs' → Effect c h rs p h' rs'
  | writes {q u : Nat} : c.request = none → c.ends = none → InUse (flat rs) q u → h'.mapped = h.mapped →
      h'.log = h.log → h'.g_head = h.g_head → h'.g_allocations = h.g_allocations →
      (∀ a, a < q ∨ q + u ≤ a + 48 → h'.mem a = h.mem a) → rs' = rs → Effect c h rs p h' rs'

/-- The program between two calls. -/
structure Inv (tr : List (Call × Nat)) (w : Client) (rs : List Region) : Prop where
  represents : Represents w.heap rs
  nodup : (w.live.map Prod.fst).Nodup
  live : ∀ p, p ∈ w.live.map Prod.fst ↔ ∃ u, InUse (flat rs) p u
  room : ∀ p n u, (p, n) ∈ w.live → InUse (flat rs) p u → n + 48 ≤ u
  matched : Matched w.heap.log
  outstanding : outstanding w.heap.log = ranges rs
  mapped : (∀ e ∈ tr, e.1.unmaps = true) → w.heap.mapped.Perm (ranges rs)
  mapped_lt : ∀ r ∈ w.heap.mapped, r.1 + r.2 < 2 ^ 64
  ids : allocations tr < 2 ^ 64 → w.heap.g_allocations = allocations tr ∧ ((flat rs).map Header.alloc_id).Nodup ∧
    ∀ i ∈ (flat rs).map Header.alloc_id, i < allocations tr

theorem inv_init : Inv [] Client.init [] where
  represents := ⟨rfl, trivial, .nil, fun r hr => absurd hr List.not_mem_nil, by decide⟩
  nodup := .nil
  live p := by simp [Client.init]
  room p n u h := absurd h List.not_mem_nil
  matched := matched_nil
  outstanding := rfl
  mapped _ := .refl _
  mapped_lt r hr := absurd hr List.not_mem_nil
  ids _ := ⟨rfl, .nil, fun i hi => absurd hi List.not_mem_nil⟩

/-- Clearing the payload leaves an allocation one. -/
theorem Allocates.memset {size : Nat} (hall : Allocates size h rs p h' rs') (hn : n ≤ size) (c : UInt8) :
    ∃ h'', h'.memset p c n = .ok h'' ∧ Allocates size h rs p h'' rs' := by
  have hu : InUse (flat rs') p (size + 48) := (hall.inUse p _).mpr (.inr ⟨rfl, rfl⟩)
  obtain ⟨r, hr, hlo, hhi⟩ := hu.mem_range
  have hacc : h'.accessible p n = true := accessible_of_mem (hall.represents.mapped r hr) (by omega) (by omega)
  have hmem : ∀ a, a < p ∨ p + (size + 48) ≤ a + 48 → fillBytes h'.mem n p c a = h'.mem a :=
    fun a ha => fillBytes_of_not_mem (by omega)
  refine ⟨_, if_pos hacc, hall.represents.payload hu rfl rfl hall.represents.count_lt hmem, hall.fresh, hall.inUse,
    fun q u hq a h₁ h₂ => ?_, hall.ids, hall.count, hall.maps⟩
  refine (fillBytes_of_not_mem ?_).trans (hall.keep q u hq a h₁ h₂)
  have hne : p ≠ q := fun he => hall.fresh u (he ▸ hq)
  have := hu.apart hall.represents.apart ((hall.inUse q u).mpr (.inl hq)) hne
  omega

theorem align_le (hn : n ≤ request_max) : n ≤ align n ∧ align n ≤ request_max := by
  obtain ⟨hd, hle, hlt⟩ := align_spec hn
  unfold request_max
  omega

/-- **What a permitted call does.** It returns, where it can read the name of its policy, and has one of the four
effects. -/
theorem Inv.effect {tr : List (Call × Nat)} {w : Client} {c : Call} (hI : Inv tr w rs) (page : PageSize)
    (hc : Permitted page w c) (hread : c.Readable) :
    ∃ h' p rs', c.run page w.heap = .ok (h', p) ∧ Effect c w.heap rs p h' rs' := by
  have hr := hI.represents
  -- the effect of `malloc` on behalf of a call that asks for `n` bytes
  have hserves : ∀ {h' p size n}, c.request = some n → n ≤ size → Serves size w.heap rs p h' →
      ∃ rs', Effect c w.heap rs p h' rs' := by
    rintro h' p size n hreq hn (⟨hp, hh⟩ | ⟨hp, rs', hall⟩)
    · exact ⟨rs, .fails hreq hp hh rfl⟩
    · exact ⟨rs', .allocates hreq hn hp hall⟩
  have hfrees : ∀ env {ptr}, c.request = none → c.ends = some ptr → c.unmaps = env.munmap →
      ptr ∈ w.live.map Prod.fst → ∃ h' rs', free env ptr w.heap = .ok h' ∧ Effect c w.heap rs 0 h' rs' := by
    intro env ptr hreq hends hun hlive
    obtain ⟨u, hu⟩ := (hI.live ptr).mp hlive
    obtain ⟨h', rs', hres, hall⟩ := free_spec env hr hu
    exact ⟨h', rs', hres, .frees hreq hends hun hall⟩
  cases c with
  | malloc env size =>
    obtain ⟨h', p, hres, hs⟩ := malloc_spec page hr hread hc
    obtain ⟨rs', he⟩ := hserves rfl (align_le hc).1 hs
    exact ⟨h', p, rs', hres, he⟩
  | calloc env nmemb size =>
    obtain ⟨hle, hne⟩ := hc
    obtain ⟨h', p, hres, hs⟩ := malloc_spec page hr hread hle
    obtain ⟨hp, rs', hall⟩ := hs.resolve_left fun h => hne h' (h.1 ▸ hres)
    obtain ⟨h'', hset, hall⟩ := hall.memset (align_le hle).1 0
    refine ⟨h'', p, rs', ?_, .allocates rfl (align_le hle).1 hp hall⟩
    simp only [Call.run, calloc, hres, ok_bind, hset, pure_ok]
  | realloc env ptr size =>
    by_cases hptr : ptr = 0
    · subst hptr
      have hc : size ≤ request_max := by simpa [Permitted] using hc
      obtain ⟨h', p, hres, hs⟩ := malloc_spec page hr (hread rfl) (align_le hc).2
      obtain ⟨rs', he⟩ := hserves rfl ((align_le hc).1.trans (align_le (align_le hc).2).1) hs
      exact ⟨h', p, rs', hres, he⟩
    · obtain ⟨hlive, rfl⟩ : ptr ∈ w.live.map Prod.fst ∧ size = 0 := by simpa only [Permitted, if_neg hptr] using hc
      obtain ⟨h', rs', hres, he⟩ := hfrees env (if_neg hptr) (if_neg hptr) rfl hlive
      refine ⟨h', 0, rs', ?_, he⟩
      simp only [Call.run, realloc, if_neg hptr, hres]
      rfl
  | free env ptr =>
    obtain ⟨h', rs', hres, he⟩ := hfrees env rfl rfl rfl hc
    refine ⟨h', 0, rs', ?_, he⟩
    simp only [Call.run, hres, ok_bind, pure_ok]
  | write ptr c =>
    obtain ⟨⟨q, n⟩, hlive, hlo, hhi⟩ := hc
    obtain ⟨u, hu⟩ := (hI.live q).mp (List.mem_map_of_mem hlive)
    have hroom := hI.room q n u hlive hu
    obtain ⟨r, hrr, hrlo, hrhi⟩ := hu.mem_range
    have hacc : w.heap.accessible ptr 1 = true := by
      refine accessible_of_mem (hr.mapped r hrr) ?_ ?_ <;> dsimp only at * <;> omega
    refine ⟨{ w.heap with mem := fillBytes w.heap.mem 1 ptr c }, 0, rs, ?_,
      .writes rfl rfl hu rfl rfl rfl rfl (fun a ha => ?_) rfl⟩
    · simp only [Call.run, Heap.memset, if_pos hacc, ok_bind, pure_ok]
    · exact fillBytes_of_not_mem (by dsimp only at *; omega)

/-- A call that returns could read the name of its policy. -/
theorem Call.readable_of_run {c : Call} {r : Heap × Nat} (hres : c.run page h = .ok r) : c.Readable := by
  cases c with
  | malloc env size => exact readable_of_malloc hres
  | calloc env nmemb size =>
    obtain ⟨_, hmalloc, _⟩ := bind_ok hres
    exact readable_of_malloc hmalloc
  | realloc env ptr size =>
    rintro rfl
    exact readable_of_malloc hres
  | free => exact trivial
  | write => exact trivial

/-- What a permitted call that returns has done. -/
theorem Inv.effect_of_run {tr : List (Call × Nat)} {w : Client} {c : Call} (hI : Inv tr w rs)
    (hc : Permitted page w c) (hres : c.run page w.heap = .ok (h', p)) : ∃ rs', Effect c w.heap rs p h' rs' := by
  obtain ⟨h'', p', rs', hres', he⟩ := hI.effect page hc (Call.readable_of_run hres)
  obtain ⟨rfl, rfl⟩ := Prod.mk.inj (Except.ok.inj (hres.symm.trans hres'))
  exact ⟨rs', he⟩

/-! ## Runs -/

theorem allocations_snoc (tr : List (Call × Nat)) (c : Call) (p : Nat) :
    allocations (tr ++ [(c, p)]) = allocations tr + if c.request.isSome ∧ p ≠ 0 then 1 else 0 := by
  simp [allocations, List.countP_append, List.countP_singleton]

section Step

variable {tr : List (Call × Nat)} {w : Client} {c : Call}

/-- A call that leaves the regions alone. -/
theorem Inv.keep (hI : Inv tr w rs) (hr : Represents h' rs) (hlive : c.live p w.live = w.live)
    (hlog : h'.log = w.heap.log) (hmapped : h'.mapped = w.heap.mapped)
    (hcount : h'.g_allocations = w.heap.g_allocations) (hall : ¬(c.request.isSome ∧ p ≠ 0)) :
    Inv (tr ++ [(c, p)]) ⟨h', c.live p w.live⟩ rs where
  represents := hr
  nodup := hlive.symm ▸ hI.nodup
  live := hlive.symm ▸ hI.live
  room := hlive.symm ▸ hI.room
  matched := hlog ▸ hI.matched
  outstanding := hlog ▸ hI.outstanding
  mapped hun := hmapped ▸ hI.mapped fun e he => hun e (List.mem_append_left _ he)
  mapped_lt := hmapped ▸ hI.mapped_lt
  ids hlt := by
    rw [allocations_snoc, if_neg hall, Nat.add_zero] at hlt ⊢
    rw [hcount]
    exact hI.ids hlt

theorem Inv.allocates {size : Nat} (hI : Inv tr w rs) (hreq : c.request = some n) (hn : n ≤ size) (hp : p ≠ 0)
    (hall : Allocates size w.heap rs p h' rs') : Inv (tr ++ [(c, p)]) ⟨h', c.live p w.live⟩ rs' := by
  have hlive : c.live p w.live = (p, n) :: w.live := by
    unfold Call.live
    rw [hreq]
    exact if_neg hp
  have hfresh : p ∉ w.live.map Prod.fst := fun hm => by
    obtain ⟨u, hu⟩ := (hI.live p).mp hm
    exact hall.fresh u hu
  rw [hlive]
  refine ⟨hall.represents, List.nodup_cons.mpr ⟨hfresh, hI.nodup⟩, fun q => ?_, fun q m u hm hu => ?_, ?_, ?_, ?_,
    fun r hr => ?_, ?_⟩
  · rw [List.map_cons, List.mem_cons, hI.live]
    simp only [hall.inUse, exists_or, exists_and_left, exists_eq, and_true]
    tauto
  · rcases List.mem_cons.mp hm with he | hm
    · obtain ⟨rfl, rfl⟩ := Prod.mk.inj he
      obtain ⟨_, rfl⟩ := ((hall.inUse q u).mp hu).resolve_left (hall.fresh u)
      omega
    · refine hI.room q m u hm (((hall.inUse q u).mp hu).resolve_right fun h => hfresh ?_)
      exact h.1 ▸ List.mem_map_of_mem hm
  · rcases hall.maps with ⟨hlog, _, _⟩ | ⟨start, len, hlog, _, _⟩ <;> dsimp only <;> rw [hlog]
    · exact hI.matched
    · exact hI.matched.snoc fun _ _ h => by cases h
  · rcases hall.maps with ⟨hlog, _, hranges⟩ | ⟨start, len, hlog, _, hranges⟩ <;> dsimp only <;> rw [hlog, hranges]
    · exact hI.outstanding
    · rw [outstanding_mmap, hI.outstanding]
  · intro hun
    have hperm := hI.mapped fun e he => hun e (List.mem_append_left _ he)
    rcases hall.maps with ⟨_, hmapped, hranges⟩ | ⟨start, len, _, hmapped, hranges⟩ <;> dsimp only <;>
      rw [hmapped, hranges]
    · exact hperm
    · exact (hperm.cons _).trans (List.perm_append_singleton _ _).symm
  · rcases hall.maps with ⟨_, hmapped, _⟩ | ⟨start, len, _, hmapped, hranges⟩ <;> dsimp only at hr <;>
      rw [hmapped] at hr
    · exact hI.mapped_lt r hr
    · rcases List.mem_cons.mp hr with rfl | hr
      · have hmem : (start, len) ∈ ranges rs' := by rw [hranges]; simp
        obtain ⟨r, _, he⟩ := List.mem_map.mp hmem
        exact he ▸ r.end_lt
      · exact hI.mapped_lt r hr
  · intro hlt
    rw [allocations_snoc, if_pos ⟨by rw [hreq]; rfl, hp⟩] at hlt ⊢
    obtain ⟨hcount, hnodup, hbound⟩ := hI.ids (by omega)
    obtain ⟨l, hsub, hperm⟩ := hall.ids
    refine ⟨by rw [hall.count, hcount, uadd_eq hlt], ?_, fun i hi => ?_⟩
    · rw [hperm.nodup_iff, List.nodup_cons]
      constructor
      · intro hm
        have := hbound _ (hsub.subset hm)
        omega
      · exact hnodup.sublist hsub
    · rcases List.mem_cons.mp (hperm.mem_iff.mp hi) with rfl | hi
      · omega
      · exact Nat.lt_succ_of_lt (hbound i (hsub.subset hi))

theorem Inv.frees {env : Env} (hI : Inv tr w rs) (hreq : c.request = none) (hends : c.ends = some q)
    (hun : c.unmaps = env.munmap) (hall : Frees env w.heap rs q h' rs') :
    Inv (tr ++ [(c, p)]) ⟨h', c.live p w.live⟩ rs' := by
  have hlive : c.live p w.live = w.live.filter fun a => a.1 ≠ q := by
    unfold Call.live
    rw [hreq, hends]
  have hsub : (c.live p w.live).Sublist w.live := hlive ▸ List.filter_sublist
  refine ⟨hall.represents, hI.nodup.sublist (hsub.map _), fun v => ?_,
    fun v m u hm hu => hI.room v m u (hsub.subset hm) ((hall.inUse v u).mp hu).1, ?_, ?_, ?_, fun r hr => ?_, ?_⟩
  · simp only [hall.inUse, exists_and_right, ← hI.live, hlive, List.mem_map, List.mem_filter, decide_eq_true_eq]
    constructor
    · rintro ⟨a, ⟨ha, hne⟩, rfl⟩
      exact ⟨⟨a, ha, rfl⟩, hne⟩
    · rintro ⟨⟨a, ha, rfl⟩, hne⟩
      exact ⟨a, ⟨ha, hne⟩, rfl⟩
  · rcases hall.unmaps with ⟨hlog, _, _⟩ | ⟨r, hr, hlog, _, _⟩ <;> dsimp only <;> rw [hlog]
    · exact hI.matched
    · refine hI.matched.snoc fun start len h => ?_
      obtain ⟨rfl, rfl⟩ := Syscall.munmap.inj h
      exact hI.outstanding ▸ hr
  · rcases hall.unmaps with ⟨hlog, _, hranges⟩ | ⟨r, hr, hlog, _, hranges⟩ <;> dsimp only <;> rw [hlog, hranges]
    · exact hI.outstanding
    · rw [outstanding_munmap, hI.outstanding]
  · intro hall'
    have hperm := hI.mapped fun e he => hall' e (List.mem_append_left _ he)
    have hmun : env.munmap = true := hun ▸ hall' (c, p) (by simp)
    rcases hall.unmaps with ⟨_, hmapped, hranges⟩ | ⟨r, _, _, hmapped, hranges⟩ <;> dsimp only <;> rw [hmapped, hranges]
    · exact hperm
    · rw [if_pos hmun]
      exact hperm.erase r
  · apply hI.mapped_lt r
    rcases hall.unmaps with ⟨_, hmapped, _⟩ | ⟨_, _, _, hmapped, _⟩ <;> dsimp only at hr <;> rw [hmapped] at hr
    · exact hr
    · split at hr
      · exact List.mem_of_mem_erase hr
      · exact hr
  · intro hlt
    have hnone : ¬(c.request.isSome ∧ p ≠ 0) := by simp [hreq]
    rw [allocations_snoc, if_neg hnone, Nat.add_zero] at hlt ⊢
    obtain ⟨hcount, hnodup, hbound⟩ := hI.ids hlt
    exact ⟨hall.count.trans hcount, hnodup.sublist hall.ids, fun i hi => hbound i (hall.ids.subset hi)⟩

/-- **One call.** -/
theorem Inv.step (hI : Inv tr w rs) (he : Effect c w.heap rs p h' rs') :
    Inv (tr ++ [(c, p)]) ⟨h', c.live p w.live⟩ rs' := by
  cases he with
  | fails hreq hp hh hrs =>
    subst hp hh hrs
    refine hI.keep hI.represents ?_ rfl rfl rfl (by simp)
    unfold Call.live
    rw [hreq]
    rfl
  | allocates hreq hn hp hall => exact hI.allocates hreq hn hp hall
  | frees hreq hends hun hall => exact hI.frees hreq hends hun hall
  | writes hreq hends hu hmapped hlog hhead hcount hmem hrs =>
    subst hrs
    have hcount_lt : h'.g_allocations < 2 ^ 64 := hcount ▸ hI.represents.count_lt
    refine hI.keep (hI.represents.payload hu hhead hmapped hcount_lt hmem) ?_ hlog hmapped hcount (by simp [hreq])
    unfold Call.live
    rw [hreq, hends]

end Step

/-- **The invariant holds along every run.** -/
theorem Reaches.inv {tr : List (Call × Nat)} {w : Client} (h : Reaches page tr w) : ∃ rs, Inv tr w rs := by
  refine Run.invariant (I := fun tr w => ∃ rs, Inv tr w rs) ⟨[], inv_init⟩ ?_ h
  rintro tr w ev w' ⟨rs, hI⟩ ⟨c, p, h', hc, hres, rfl, rfl⟩
  obtain ⟨rs', he⟩ := hI.effect_of_run hc hres
  exact ⟨rs', hI.step he⟩

/-! ## The first allocation -/

/-- Pages of 4096 bytes. -/
def PageSize.default : PageSize := ⟨12, by decide, by decide⟩

/-- Neither variable is set, `mmap` returns `start` and `munmap` succeeds. -/
def Env.mapping (start : Nat) : Env := ⟨none, false, some start, true⟩

theorem Env.mapping_readable (start : Nat) : (Env.mapping start).Readable := fun _ hv => by cases hv

/-- The program that has called `malloc(8)`. -/
theorem reaches_malloc : ∃ h r, Reaches .default [(.malloc (.mapping 4096) 8, 4144)] ⟨h, [(4144, 8)]⟩ ∧
    Represents h [r] ∧ r.headers = [⟨4096, 0, 4096, 56, 4096, 4096⟩] ∧ h.mapped = [(4096, 4096)] ∧
      h.g_allocations = 1 := by
  obtain ⟨h, r, hres, hheaders, hmapped, hall⟩ := malloc_map_success .default (.mapping 4096) 8
    inv_init.represents (by decide) (by decide) rfl (by decide)
  rw [← show align 8 = 8 from rfl, ← malloc_eq_map .default inv_init.represents (Env.mapping_readable _) rfl] at hres
  have hle : 8 ≤ request_max := by decide
  exact ⟨h, r, Run.single ⟨.malloc (.mapping 4096) 8, 4144, h, hle, hres, rfl, rfl⟩, hall.represents, hheaders,
    hmapped, hall.count⟩

/-- Its only block, which a further request splits. -/
theorem reaches_spot : ∃ h r, ∃ s : Spot [r], Reaches .default [(.malloc (.mapping 4096) 8, 4144)] ⟨h, [(4144, 8)]⟩ ∧
    Represents h [r] ∧ s.header = ⟨4096, 0, 4096, 56, 4096, 4096⟩ ∧ s.pre = [] ∧ s.post = [] ∧ h.g_allocations = 1 ∧
      ∀ size, uadd (align size) sizeof_mem_block < 4040 →
        malloc .default (.mapping 0) size h = malloc_split (.mapping 0) s.addr (align size) h := by
  obtain ⟨h, r, hreach, hr, hheaders, _, hcount⟩ := reaches_malloc
  have hflat : flat [r] = [⟨4096, 0, 4096, 56, 4096, 4096⟩] := by rw [flat_cons, hheaders, flat_nil, List.append_nil]
  have hmem : (⟨4096, 0, 4096, 56, 4096, 4096⟩ : Header) ∈ flat [r] := hflat ▸ List.mem_singleton_self _
  obtain ⟨s, hs⟩ := exists_spot hmem
  have hlen := congrArg List.length (s.flat_eq.symm.trans hflat)
  rw [List.length_append, List.length_cons, List.length_singleton] at hlen
  have haddr : s.addr = 4096 := congrArg Header.addr hs
  refine ⟨h, r, s, hreach, hr, hs, List.eq_nil_of_length_eq_zero (by omega),
    List.eq_nil_of_length_eq_zero (by omega), hcount, fun size hroom => ?_⟩
  have hreuse : reuseList (.mapping 0) (align size) (flat [r]) = 4096 := by
    rw [hflat]
    simp [reuseList, Env.policy, Env.mapping, walkList, hroom]
  have hget : h.get 4096 .usage = .ok 56 := by
    have husage : h.get s.header.addr .usage = .ok s.block.usage := hr.get s.header_mem (s.at_header hr)
    rwa [hs, show s.block.usage = 56 from congrArg Header.usage hs] at husage
  unfold malloc
  dsimp only
  rw [reuse_eq hr (Env.mapping_readable _), ok_bind, hreuse, if_pos (by decide), hget, ok_bind, if_neg (by decide),
    haddr]

/-- The program that has called `malloc(8)` twice. -/
theorem reaches_malloc_two : ∃ h rs, Reaches .default
    [(.malloc (.mapping 4096) 8, 4144), (.malloc (.mapping 0) 8, 4200)] ⟨h, [(4200, 8), (4144, 8)]⟩ ∧
      Represents h rs ∧ flat rs = [⟨4096, 0, 56, 56, 4096, 4096⟩, ⟨4152, 1, 4040, 56, 4096, 4096⟩] := by
  obtain ⟨h, r, s, hreach, hr, hs, hpre, hpost, hcount, hsplit⟩ := reaches_spot
  have haddr : s.addr = 4096 := congrArg Header.addr hs
  have hid : s.block.alloc_id = 0 := congrArg Header.alloc_id hs
  have hsize : s.block.size = 4096 := congrArg Header.size hs
  have husage : s.block.usage = 56 := congrArg Header.usage hs
  have hstart : s.region.start = 4096 := congrArg Header.region_start hs
  have hlen : s.region.len = 4096 := congrArg Header.region_size hs
  obtain ⟨h', hres, hall⟩ := malloc_split_spec (.mapping 0) hr s (by omega) (by decide : 8 ∣ 8) (by omega)
  rw [← show align 8 = 8 from rfl, ← hsplit 8 (by decide)] at hres
  have hp : s.addr + s.block.usage + 48 = 4200 := by omega
  rw [hp] at hres hall
  have hle : 8 ≤ request_max := by decide
  refine ⟨h', _, Run.snoc hreach ⟨.malloc (.mapping 0) 8, 4200, h', hle, hres, rfl, rfl⟩, hall.represents, ?_⟩
  rw [Spot.split, Spot.flat_replace, hpre, hpost]
  simp [layout, Block.header, Block.shrink, Block.rest, haddr, hid, hsize, husage, hstart, hlen, hcount]

end Cs326.Allocator
