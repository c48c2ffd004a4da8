import Cs326.Lib.Bytes
import Cs326.Lib.CInt
import Cs326.Lib.Fallible
import Cs326.Lib.Segment

/-!
# The allocator

`allocator.c` on a byte memory. The blocks of the list lie in the memory as `struct mem_block` lays them out, and every
access is checked against the mapped ranges. The system is a parameter of each call (`Env`): the two environment
variables, the address `mmap` proposes and the result of `munmap`. What `mmap` may return is what it documents: a range
of whole pages that overlaps no mapping, does not start at `0` and has an address behind its end; any other proposal
counts as a failure.
-/

namespace Cs326.Allocator

/-! ## Memory -/

/-- The members of `struct mem_block`. -/
inductive Field
  | alloc_id
  | size
  | usage
  | region_start
  | region_size
  | next
  deriving DecidableEq

def Field.offset : Field → Nat
  | .alloc_id => 0
  | .size => 8
  | .usage => 16
  | .region_start => 24
  | .region_size => 32
  | .next => 40

/-- `sizeof(struct mem_block)`. -/
def sizeof_mem_block : Nat := 48

/-- Why a call does not return. -/
inductive Fault
  | segv
  | diverges
  deriving DecidableEq, Repr

inductive Syscall
  | mmap (start len : Nat)
  | munmap (start len : Nat)
  deriving DecidableEq, Repr

/-- The globals and the memory of the process. -/
structure Heap where
  mem : Mem
  /-- The mapped ranges, as start and length. -/
  mapped : List (Nat × Nat)
  /-- The successful calls of `mmap` and the calls of `munmap` so far. -/
  log : List Syscall
  g_head : Nat
  g_allocations : Nat

/-- The power of two that `getpagesize()` returns. -/
structure PageSize where
  log : Nat
  log_ge : 12 ≤ log
  log_le : log ≤ 30

def PageSize.bytes (page : PageSize) : Nat := 2 ^ page.log

/-- The value of a variable of the environment: the string, and where it begins. The cut of the pointer (`cutToInt`)
does not make it `NULL`. -/
structure Value where
  text : String
  ptr : Nat
  ptr_lt : ptr < 2 ^ 64
  low_ne : ptr % 2 ^ 32 ≠ 0

/-- A pointer that has gone through an `int`: its low half, with the sign extended. -/
def cutToInt (ptr : Nat) : Nat :=
  if ptr % 2 ^ 32 < 2 ^ 31 then ptr % 2 ^ 32 else ptr % 2 ^ 32 + (2 ^ 64 - 2 ^ 32)

/-- What one call finds in its environment. -/
structure Env where
  /-- The value of `ALLOCATOR_ALGORITHM`, if it is set. -/
  algorithm : Option Value
  /-- `ALLOCATOR_SCRIBBLE` is set. -/
  scribble : Bool
  /-- The address `mmap` proposes; `none`: `MAP_FAILED`. -/
  mmap : Option Nat
  /-- `munmap` succeeds. -/
  munmap : Bool

/-- The policy that the variable names. -/
def Env.policy (env : Env) : String := (env.algorithm.map Value.text).getD "first_fit"

/-- The variable is not set, or the pointer to its value survives the cut. `allocator.c` does not include `stdlib.h`, so
`getenv` is not declared there and what it returns is taken for an `int`. -/
def Env.Readable (env : Env) : Prop := ∀ v ∈ env.algorithm, cutToInt v.ptr = v.ptr

instance (env : Env) : Decidable env.Readable := inferInstanceAs (Decidable (∀ v ∈ env.algorithm, _))

/-- The `n` bytes at `a` are mapped, one range after the other; every range is entered at most once. -/
def covered (ranges : List (Nat × Nat)) : Nat → Nat → Nat → Bool
  | 0, _, n => n = 0
  | k + 1, a, n => n = 0 || ranges.any fun r =>
      decide (r.1 ≤ a) && decide (a < r.1 + r.2) && covered ranges k (r.1 + r.2) (n - (r.1 + r.2 - a))

namespace Heap

variable (h : Heap)

def accessible (a n : Nat) : Bool := covered h.mapped h.mapped.length a n

/-- `blk->field`. -/
def get (blk : Nat) (field : Field) : Except Fault Nat :=
  if h.accessible (blk + field.offset) 8 then .ok (loadBytes h.mem 8 (blk + field.offset)) else .error .segv

/-- The heap after `blk->field = v` where that is mapped. -/
def put (blk : Nat) (field : Field) (v : Nat) : Heap := { h with mem := storeBytes h.mem 8 (blk + field.offset) v }

/-- `blk->field = v`. -/
def set (blk : Nat) (field : Field) (v : Nat) : Except Fault Heap :=
  if h.accessible (blk + field.offset) 8 then .ok (h.put blk field v) else .error .segv

def memset (ptr : Nat) (c : UInt8) (n : Nat) : Except Fault Heap :=
  if h.accessible ptr n then .ok { h with mem := fillBytes h.mem n ptr c } else .error .segv

/-- `g_allocations++`. -/
def countAllocation : Heap := { h with g_allocations := uadd h.g_allocations 1 }

/-- A range that `mmap` may return. -/
def mappable (page : PageSize) (len start : Nat) : Prop :=
  0 < len ∧ start ≠ 0 ∧ page.bytes ∣ start ∧ start + len < 2 ^ 64 ∧
    ∀ r ∈ h.mapped, r.1 + r.2 ≤ start ∨ start + len ≤ r.1

instance (page : PageSize) (len start : Nat) : Decidable (h.mappable page len start) :=
  inferInstanceAs (Decidable (_ ∧ _ ∧ _ ∧ _ ∧ _))

/-- The heap after `mmap` has returned `start`; the new pages are zero. -/
def map (len start : Nat) : Heap :=
  { h with
    mem := fillBytes h.mem len start 0
    mapped := (start, len) :: h.mapped
    log := h.log ++ [.mmap start len] }

def munmap (env : Env) (start len : Nat) : Heap :=
  { h with
    mapped := if env.munmap then h.mapped.erase (start, len) else h.mapped
    log := h.log ++ [.munmap start len] }

/-- The loops over the list; no list in memory is longer than the fuel. -/
def traverse {α β : Type} (visit : Nat → α → Except Fault (α ⊕ β)) (fin : α → β) (start : Nat) (acc : α) :
    Except Fault β := walk (fun cur => h.get cur .next) visit fin .diverges (2 ^ 64) start acc

end Heap

/-! ## `reuse` -/

/-- `cur->size - cur->usage`. -/
def Heap.free_space (h : Heap) (cur : Nat) : Except Fault Nat := do
  let size ← h.get cur .size
  let usage ← h.get cur .usage
  return usub size usage

/-- Nothing is mapped where a pointer that has not survived the cut leads, and `strcmp` faults. -/
def reuse (env : Env) (size : Nat) (h : Heap) : Except Fault Nat :=
  let algo := env.policy
  let need := uadd size sizeof_mem_block
  if ¬env.Readable then .error .segv
  else if algo = "first_fit" then
    h.traverse (fun cur _ => do
      let space ← h.free_space cur
      return if need < space then .inr cur else .inl ()) (fun _ => 0) h.g_head ()
  else if algo = "best_fit" then
    h.traverse (fun cur (usage, return_block) => do
      let space ← h.free_space cur
      return .inl (if need ≤ space ∧ space ≤ usage then (space, cur) else (usage, return_block)))
      Prod.snd h.g_head (INT_MAX, 0)
  else if algo = "worst_fit" then
    h.traverse (fun cur (usage, return_block) => do
      let space ← h.free_space cur
      return .inl (if need ≤ space ∧ usage ≤ space then (space, cur) else (usage, return_block)))
      Prod.snd h.g_head (0, 0)
  else return 0

/-! ## `malloc` -/

/-- `if (size % 8 != 0) size = size + (8 - size % 8)`. -/
def align (size : Nat) : Nat := if size % 8 ≠ 0 then uadd size (8 - size % 8) else size

/-- `if (getenv("ALLOCATOR_SCRIBBLE")) memset(ptr, 0xAA, size)`: the pointer is compared with `NULL` only. -/
def scribble (env : Env) (ptr size : Nat) (h : Heap) : Except Fault Heap :=
  if env.scribble then h.memset ptr 0xAA size else return h

/-- `reusable_block` is free as a whole. -/
def malloc_reuse (env : Env) (reusable_block size : Nat) (h : Heap) : Except Fault (Heap × Nat) := do
  let real_sz := uadd size sizeof_mem_block
  let h ← h.set reusable_block .alloc_id h.g_allocations
  let h := h.countAllocation
  let h ← h.set reusable_block .usage real_sz
  let h ← scribble env (uadd reusable_block sizeof_mem_block) size h
  return (h, uadd reusable_block sizeof_mem_block)

/-- The free space of `reusable_block` becomes a block of its own. -/
def malloc_split (env : Env) (reusable_block size : Nat) (h : Heap) : Except Fault (Heap × Nat) := do
  let real_sz := uadd size sizeof_mem_block
  let block := uadd reusable_block (← h.get reusable_block .usage)
  let h ← h.set block .alloc_id h.g_allocations
  let h := h.countAllocation
  let h ← h.set block .size (usub (← h.get reusable_block .size) (← h.get reusable_block .usage))
  let h ← h.set block .usage real_sz
  let h ← h.set block .region_start (← h.get reusable_block .region_start)
  let h ← h.set block .region_size (← h.get reusable_block .region_size)
  let h ← h.set block .next (← h.get reusable_block .next)
  let h ← h.set reusable_block .size (← h.get reusable_block .usage)
  let h ← h.set reusable_block .next block
  let h ← scribble env (uadd block sizeof_mem_block) size h
  return (h, uadd block sizeof_mem_block)

/-- The length `malloc` maps. -/
def region_size (page : PageSize) (size : Nat) : Nat :=
  let real_sz := uadd size sizeof_mem_block
  let pages := real_sz / page.bytes
  umul (if real_sz % page.bytes ≠ 0 then pages + 1 else pages) page.bytes

/-- `g_head = block`, or `block` behind the last block of the list. -/
def append_block (block : Nat) (h : Heap) : Except Fault Heap :=
  if h.g_head = 0 then return { h with g_head := block }
  else do
    let last ← h.traverse (fun cur _ => do
      let next ← h.get cur .next
      return if next = 0 then .inr (some cur) else .inl ()) (fun _ => none) h.g_head ()
    match last with
    | some current => h.set current .next block
    | none => return h

/-- A new region. -/
def malloc_map (page : PageSize) (env : Env) (size : Nat) (h : Heap) : Except Fault (Heap × Nat) :=
  let real_sz := uadd size sizeof_mem_block
  let region_sz := region_size page size
  match env.mmap.filter fun start => h.mappable page region_sz start with
  | none => return (h, 0)
  | some block => do
    let h := h.map region_sz block
    let h ← h.set block .alloc_id h.g_allocations
    let h := h.countAllocation
    let h ← h.set block .size region_sz
    let h ← h.set block .usage real_sz
    let h ← h.set block .region_start block
    let h ← h.set block .region_size region_sz
    let h ← h.set block .next 0
    let h ← append_block block h
    let h ← scribble env (uadd block sizeof_mem_block) size h
    return (h, uadd block sizeof_mem_block)

/-- The heap after the call and the pointer returned. -/
def malloc (page : PageSize) (env : Env) (size : Nat) (h : Heap) : Except Fault (Heap × Nat) := do
  let size := align size
  let reusable_block ← reuse env size h
  if reusable_block ≠ 0 then
    if (← h.get reusable_block .usage) = 0 then malloc_reuse env reusable_block size h
    else malloc_split env reusable_block size h
  else malloc_map page env size h

/-! ## `free`, `calloc` and `realloc` -/

/-- Whether every block of the region of `blk` is free, and the block where the loop stops. -/
def region_is_free (blk : Nat) (h : Heap) : Except Fault (Bool × Nat) := do
  let start ← h.get blk .region_start
  h.traverse (fun current _ => do
    if (← h.get current .region_start) ≠ (← h.get blk .region_start) then return .inr (true, current)
    else if (← h.get current .usage) ≠ 0 then return .inr (false, current)
    else return .inl ()) (fun _ => (true, 0)) start ()

/-- `while (tmp != NULL && tmp->next != blk->region_start) tmp = tmp->next`. -/
def predecessor (blk : Nat) (h : Heap) : Except Fault Nat :=
  h.traverse (fun tmp _ => do
    return if (← h.get tmp .next) = (← h.get blk .region_start) then .inr tmp else .inl ()) (fun _ => 0) h.g_head ()

/-- The region of `blk` leaves the list, whose rest starts at `current`. -/
def unlink (blk current : Nat) (h : Heap) : Except Fault Heap := do
  if h.g_head = (← h.get blk .region_start) then return { h with g_head := current }
  else
    let tmp ← predecessor blk h
    h.set tmp .next current

def free (env : Env) (ptr : Nat) (h : Heap) : Except Fault Heap :=
  if ptr = 0 then return h
  else do
    let blk := usub ptr sizeof_mem_block
    let h ← h.set blk .usage 0
    let (free, current) ← region_is_free blk h
    if free then
      let h ← unlink blk current h
      return h.munmap env (← h.get blk .region_start) (← h.get blk .region_size)
    else return h

def calloc (page : PageSize) (env : Env) (nmemb size : Nat) (h : Heap) : Except Fault (Heap × Nat) := do
  let (h, ptr) ← malloc page env (umul nmemb size) h
  let h ← h.memset ptr 0 (umul nmemb size)
  return (h, ptr)

def realloc (page : PageSize) (env : Env) (ptr size : Nat) (h : Heap) : Except Fault (Heap × Nat) :=
  let size := align size
  if ptr = 0 then malloc page env size h
  else if size = 0 then do
    let h ← free env ptr h
    return (h, 0)
  else return (h, 0)

end Cs326.Allocator
