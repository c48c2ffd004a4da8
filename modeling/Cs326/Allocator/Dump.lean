import Cs326.Allocator.Client
import Cs326.Lib.Printf

/-!
# The dump of the heap

`print_memory` and `write_memory` walk down the list and print a line for each block, and one for each region before its
first block. In every state that a program reaches the regions printed are the mappings that are outstanding, each is
tiled by the blocks printed behind it, and the blocks with a usage are the live allocations (`print_memory_accounts`).
What is printed says all that the allocator knows of the list: it can be read off the text (`undump_dump`), so in two
states that print the same the next search finds the same block (`print_memory_determines`).
-/

namespace Cs326.Allocator

/-- A line of the dump. -/
inductive Line
  | region (current_region region_end region_size : Nat)
  | block (current_block block_end : Nat) (alloc_id : Int) (size usage payload : Nat)
  deriving DecidableEq

open Printf in
/-- The line as it is printed, without the newline. -/
def Line.text : Line → List Char
  | .region current_region region_end region_size =>
    ['[', 'R', 'E', 'G', 'I', 'O', 'N', ']', ' '] ++ (p current_region ++ '-' :: (p region_end ++ ' ' ::
      zu region_size))
  | .block current_block block_end alloc_id size usage payload =>
    ['[', 'B', 'L', 'O', 'C', 'K', ']', ' ', ' '] ++ (p current_block ++ '-' :: (p block_end ++ ' ' :: '(' ::
      (ld alloc_id ++ ')' :: ' ' :: (zu size ++ ' ' :: (zu usage ++ ' ' :: zu payload)))))

/-- The lines as they are printed. -/
def texts (lines : List Line) : List Char := lines.flatMap fun line => line.text ++ ['\n']

/-- An `unsigned long` that is printed as a `long`. -/
def toLong (n : Nat) : Int := (n : Int).bmod (2 ^ 64)

/-- The loop that `print_memory` and `write_memory` have in common. -/
def memory_lines (h : Heap) : Except Fault (List Line) :=
  h.traverse (fun current_block (current_region, out) => do
    let region_start ← h.get current_block .region_start
    let out ← if region_start ≠ current_region then do
        let region_size ← h.get region_start .region_size
        pure (out ++ [.region region_start (uadd region_start region_size) region_size])
      else pure out
    let size ← h.get current_block .size
    let alloc_id ← h.get current_block .alloc_id
    let usage ← h.get current_block .usage
    return .inl (region_start, out ++ [.block current_block (uadd current_block size) (toLong alloc_id) size usage
      (if usage = 0 then 0 else usub usage sizeof_mem_block)])) Prod.snd h.g_head (0, [])

/-- The line that both functions print first, with `puts`. -/
def title : List Char := "-- Current Memory State --\n".toList

/-- What goes to `stdout`. -/
def print_memory (h : Heap) : Except Fault (List Char) := do return title ++ texts (← memory_lines h)

/-- What goes to `stdout` and what to `fp`. -/
def write_memory (h : Heap) : Except Fault (List Char × List Char) := do return (title, texts (← memory_lines h))

/-! ## The lines of a list -/

/-- The line of a block. -/
def Header.line (x : Header) : Line :=
  .block x.addr (x.addr + x.size) (toLong x.alloc_id) x.size x.usage (x.usage - 48)

/-- The lines of a region. -/
def Region.lines (r : Region) : List Line :=
  .region r.start (r.start + r.len) r.len :: r.headers.map Header.line

/-- The lines of all regions. -/
def dump (rs : List Region) : List Line := rs.flatMap Region.lines

@[simp] theorem dump_cons (r : Region) (rs : List Region) : dump (r :: rs) = r.lines ++ dump rs := List.flatMap_cons

variable {h : Heap} {rs rs' : List Region} {r : Region} {x : Header} {page : PageSize}

/-- A block is printed, and its region before it unless that is the current one. -/
def printBlock (acc : Nat × List Line) (x : Header) : Nat × List Line :=
  (x.region_start, (if x.region_start ≠ acc.1 then
    acc.2 ++ [.region x.region_start (x.region_start + x.region_size) x.region_size] else acc.2) ++ [x.line])

/-- A region starts with a block. -/
theorem Region.headers_cons (r : Region) : ∃ x xs, r.headers = x :: xs ∧ x.addr = r.start := by
  obtain ⟨b, hb, -⟩ := r.used
  unfold Region.headers
  cases hblocks : r.blocks with
  | nil =>
    rw [hblocks] at hb
    cases hb
  | cons b bs => exact ⟨_, _, rfl, rfl⟩

/-- The length of its region is found where the region of a block starts. -/
theorem Represents.get_region_size (hr : Represents h rs) (hx : x ∈ flat rs) :
    h.get x.region_start .region_size = .ok x.region_size := by
  obtain ⟨r, hrs, hxr⟩ := mem_flat.mp hx
  obtain ⟨-, hstart, hlen, -⟩ := Region.of_mem hxr
  obtain ⟨y, ys, hys, haddr⟩ := r.headers_cons
  have hyr : y ∈ r.headers := hys ▸ List.mem_cons_self
  have hy : y ∈ flat rs := mem_flat.mpr ⟨r, hrs, hyr⟩
  obtain ⟨e, hat⟩ := hr.seg.at_of_mem hy
  have hget : h.get y.addr .region_size = .ok y.region_size := hr.get hy hat
  rw [hstart, ← haddr, hget, (Region.of_mem hyr).2.2.1, hlen]

theorem Header.Ok.payload_eq (hok : x.Ok) :
    (if x.usage = 0 then 0 else usub x.usage sizeof_mem_block) = x.usage - 48 := by
  have hend := hok.end_lt
  split
  · omega
  · have hle := hok.usage_ok.resolve_left ‹_›
    exact usub_eq hle.1 (by omega)

/-- The loop prints block after block. -/
theorem Represents.memory_lines_eq (hr : Represents h rs) :
    memory_lines h = .ok ((flat rs).foldl printBlock (0, [])).2 := by
  have hfold : walkList Header.addr (fun x _ acc => .inl (printBlock acc x)) Prod.snd (flat rs) (0, []) =
      ((flat rs).foldl printBlock (0, [])).2 := walkList_foldl printBlock (0, [])
  rw [← hfold]
  refine hr.blockList.traverse _ _ _ (fun x hx e acc hat => ?_) (0, [])
  obtain ⟨current_region, out⟩ := acc
  have hok := Header.ok_of_mem hx
  have hget : ∀ f, h.get x.addr f = .ok (x.field e f) := fun f => hr.get hx hat
  have hend : uadd x.region_start x.region_size = x.region_start + x.region_size := by
    obtain ⟨r, -, hxr⟩ := mem_flat.mp hx
    obtain ⟨-, hstart, hlen, -⟩ := Region.of_mem hxr
    rw [hstart, hlen]
    exact uadd_eq r.end_lt
  simp only [hget, Header.field, ok_bind, pure_ok, hr.get_region_size hx, hend, uadd_eq hok.end_lt, hok.payload_eq]
  unfold printBlock Header.line
  dsimp only
  split <;> rfl

/-- The other blocks of a region. -/
theorem foldl_printBlock {start : Nat} {xs : List Header} (hxs : ∀ x ∈ xs, x.region_start = start) (out : List Line) :
    xs.foldl printBlock (start, out) = (start, out ++ xs.map Header.line) := by
  induction xs generalizing out with
  | nil => rw [List.foldl_nil, List.map_nil, List.append_nil]
  | cons x xs ih =>
    have hx := hxs x List.mem_cons_self
    have hstep : printBlock (start, out) x = (start, out ++ [x.line]) := by
      unfold printBlock
      rw [if_neg (not_not.mpr hx), hx]
    rw [List.foldl_cons, hstep, ih fun y hy => hxs y (List.mem_cons_of_mem _ hy), List.map_cons, List.append_assoc,
      List.singleton_append]

/-- A region is printed once. -/
theorem foldl_region (r : Region) {current : Nat} (hne : r.start ≠ current) (out : List Line) :
    r.headers.foldl printBlock (current, out) = (r.start, out ++ r.lines) := by
  obtain ⟨x, xs, hxs, -⟩ := r.headers_cons
  have hmem : ∀ y ∈ x :: xs, y.region_start = r.start ∧ y.region_size = r.len := by
    intro y hy
    obtain ⟨-, hstart, hlen, -⟩ := Region.of_mem (hxs ▸ hy : y ∈ r.headers)
    exact ⟨hstart, hlen⟩
  obtain ⟨hstart, hlen⟩ := hmem x List.mem_cons_self
  have hstep : printBlock (current, out) x = (r.start, out ++ [.region r.start (r.start + r.len) r.len, x.line]) := by
    unfold printBlock
    rw [hstart, hlen, if_pos hne, List.append_assoc]
    rfl
  unfold Region.lines
  rw [hxs, List.foldl_cons, hstep, foldl_printBlock fun y hy => (hmem y (List.mem_cons_of_mem _ hy)).1,
    List.append_assoc]
  rfl

theorem foldl_flat {current : Nat} (hne : ∀ r ∈ rs, r.start ≠ current)
    (hap : rs.Pairwise fun r r' => r.start ≠ r'.start) (out : List Line) :
    ((flat rs).foldl printBlock (current, out)).2 = out ++ dump rs := by
  induction rs generalizing current out with
  | nil => exact (List.append_nil out).symm
  | cons r rs ih =>
    obtain ⟨hr, hap⟩ := List.pairwise_cons.mp hap
    rw [flat_cons, List.foldl_append, foldl_region r (hne r List.mem_cons_self),
      ih (fun r' hr' => (hr r' hr').symm) hap, dump_cons, List.append_assoc]

theorem Region.len_pos (r : Region) : 0 < r.len := by
  obtain ⟨x, xs, hxs, -⟩ := r.headers_cons
  obtain ⟨hok, -, -, hlo, hhi⟩ := Region.of_mem (hxs ▸ List.mem_cons_self : x ∈ r.headers)
  have := hok.header_le
  omega

/-- **The dump of the regions** is what the loop prints. -/
theorem Represents.dump_eq (hr : Represents h rs) : memory_lines h = .ok (dump rs) := by
  have hstarts : rs.Pairwise fun r r' => r.start ≠ r'.start := by
    refine (List.pairwise_map.mp hr.apart).imp fun {r r'} hap he => ?_
    have hpos := r.len_pos
    have hpos' := r'.len_pos
    unfold RangeApart at hap
    dsimp only at hap
    omega
  rw [hr.memory_lines_eq, foldl_flat (fun r _ => r.start_ne) hstarts]
  rfl

theorem Represents.print_eq (hr : Represents h rs) : print_memory h = .ok (title ++ texts (dump rs)) := by
  unfold print_memory
  rw [hr.dump_eq]
  rfl

/-! ## What the dump says -/

/-- The lines are those of blocks that lie one behind the other from `start` to `stop`. -/
inductive Tiles : Nat → Nat → List Line → Prop
  | nil (stop : Nat) : Tiles stop stop []
  | block {start size usage stop : Nat} {alloc_id : Int} {lines : List Line} : usage ≤ size →
      Tiles (start + size) stop lines →
        Tiles start stop (.block start (start + size) alloc_id size usage (usage - 48) :: lines)

/-- The lines are those of regions, each with blocks that lie in it without a gap. -/
inductive Tiled : List Line → Prop
  | nil : Tiled []
  | region {start len : Nat} {blocks lines : List Line} : Tiles start (start + len) blocks → Tiled lines →
      Tiled (.region start (start + len) len :: (blocks ++ lines))

/-- The regions that are printed. -/
def regions (lines : List Line) : List (Nat × Nat) := lines.filterMap fun line => match line with
  | .region current_region _ region_size => some (current_region, region_size)
  | .block .. => none

theorem tiles_layout {start len addr : Nat} {bs : List Block} :
    Tiles addr (addr + total bs) ((layout start len addr bs).map Header.line) := by
  induction bs generalizing addr with
  | nil => exact .nil addr
  | cons b bs ih =>
    have hle : b.usage ≤ b.size := by rcases b.usage_ok with h0 | h0 <;> omega
    have htail : Tiles (addr + b.size) (addr + b.size + total bs)
        ((layout start len (addr + b.size) bs).map Header.line) := ih
    rw [Nat.add_assoc, ← total_cons] at htail
    exact .block hle htail

theorem tiled_dump (rs : List Region) : Tiled (dump rs) := by
  induction rs with
  | nil => exact .nil
  | cons r rs ih =>
    rw [dump_cons]
    refine .region ?_ ih
    rw [← r.total_eq]
    exact tiles_layout

theorem regions_append (lines lines' : List Line) : regions (lines ++ lines') = regions lines ++ regions lines' :=
  List.filterMap_append

theorem regions_dump (rs : List Region) : regions (dump rs) = ranges rs := by
  induction rs with
  | nil => rfl
  | cons r rs ih =>
    have hblocks : regions (r.headers.map Header.line) = [] := by
      unfold regions
      rw [List.filterMap_map]
      exact List.filterMap_eq_nil_iff.mpr fun x _ => rfl
    have hlines : regions r.lines = [(r.start, r.len)] := by
      unfold Region.lines
      rw [← List.singleton_append, regions_append, hblocks]
      rfl
    rw [dump_cons, regions_append, ih, hlines]
    rfl

/-- The lines of the blocks are those of the headers. -/
theorem block_mem_dump {start stop size usage payload : Nat} {alloc_id : Int} :
    Line.block start stop alloc_id size usage payload ∈ dump rs ↔
      ∃ x ∈ flat rs, x.line = .block start stop alloc_id size usage payload := by
  unfold dump flat
  simp only [List.mem_flatMap, Region.lines, List.mem_cons, List.mem_map, reduceCtorEq, false_or]
  constructor
  · rintro ⟨r, hr, x, hx, he⟩
    exact ⟨x, ⟨r, hr, hx⟩, he⟩
  · rintro ⟨x, ⟨r, hr, hx⟩, he⟩
    exact ⟨r, hr, x, hx, he⟩

/-- **The dump accounts for everything**: in every state reached, the regions printed are the mappings not given back,
in the order in which they were made; each is tiled by the blocks printed behind it; and the blocks with a usage are the
live allocations, each with a payload of the size asked for. -/
theorem print_memory_accounts {tr : List (Call × Nat)} {w : Client} (h : Reaches page tr w) : ∃ lines,
    print_memory w.heap = .ok (title ++ texts lines) ∧ write_memory w.heap = .ok (title, texts lines) ∧
      regions lines = outstanding w.heap.log ∧ Tiled lines ∧
      (∀ ptr, ptr ∈ w.live.map Prod.fst ↔ ∃ start stop alloc_id size usage payload,
        Line.block start stop alloc_id size usage payload ∈ lines ∧ usage ≠ 0 ∧ ptr = start + 48) ∧
      ∀ ptr n, (ptr, n) ∈ w.live → ∃ start stop alloc_id size usage payload,
        Line.block start stop alloc_id size usage payload ∈ lines ∧ usage ≠ 0 ∧ ptr = start + 48 ∧ n ≤ payload ∧
          ptr + payload ≤ stop := by
  obtain ⟨rs, hI⟩ := h.inv
  have hwrite : write_memory w.heap = .ok (title, texts (dump rs)) := by
    unfold write_memory
    rw [hI.represents.dump_eq]
    rfl
  refine ⟨dump rs, hI.represents.print_eq, hwrite, (regions_dump rs).trans hI.outstanding.symm, tiled_dump rs,
    fun ptr => ?_, fun ptr n hlive => ?_⟩
  · rw [hI.live]
    constructor
    · rintro ⟨u, x, hx, hne, rfl, rfl⟩
      exact ⟨_, _, _, _, _, _, block_mem_dump.mpr ⟨x, hx, rfl⟩, hne, rfl⟩
    · rintro ⟨start, stop, alloc_id, size, usage, payload, hmem, hne, rfl⟩
      obtain ⟨x, hx, he⟩ := block_mem_dump.mp hmem
      obtain ⟨rfl, -, -, -, rfl, -⟩ := Line.block.inj he
      exact ⟨_, x, hx, hne, rfl, rfl⟩
  · obtain ⟨u, hu⟩ := (hI.live ptr).mp (List.mem_map_of_mem hlive)
    have hroom := hI.room ptr n u hlive hu
    obtain ⟨x, hx, hne, rfl, rfl⟩ := hu
    have hle := (Header.ok_of_mem hx).usage_ok.resolve_left hne
    exact ⟨_, _, _, _, _, _, block_mem_dump.mpr ⟨x, hx, rfl⟩, hne, rfl, by omega, by omega⟩

/-- Two allocations, each with a line of its own. -/
theorem print_memory_accounts_two : ∃ (w : Client) (lines : List Line), w.live = [(4200, 8), (4144, 8)] ∧
    print_memory w.heap = .ok (title ++ texts lines) ∧ regions lines = outstanding w.heap.log ∧
      ∀ ptr, ptr = 4200 ∨ ptr = 4144 → ∃ start stop alloc_id size usage payload,
        Line.block start stop alloc_id size usage payload ∈ lines ∧ start + 48 = ptr ∧ 8 ≤ payload := by
  obtain ⟨h, rs, hreach, -⟩ := reaches_malloc_two
  obtain ⟨lines, hprint, -, hregions, -, -, hlive⟩ := print_memory_accounts hreach
  refine ⟨_, lines, rfl, hprint, hregions, ?_⟩
  rintro ptr (rfl | rfl)
  · obtain ⟨_, _, _, _, _, _, hmem, -, hptr, hle, -⟩ := hlive 4200 8 (by simp)
    exact ⟨_, _, _, _, _, _, hmem, hptr.symm, hle⟩
  · obtain ⟨_, _, _, _, _, _, hmem, -, hptr, hle, -⟩ := hlive 4144 8 (by simp)
    exact ⟨_, _, _, _, _, _, hmem, hptr.symm, hle⟩

/-! ## What can be read off the dump -/

/-- The headers that the lines stand for, in the region that was printed last. -/
def undump (region_start region_size : Nat) : List Line → List Header
  | [] => []
  | .region current_region _ region_size :: lines => undump current_region region_size lines
  | .block current_block _ alloc_id size usage _ :: lines =>
    ⟨current_block, (alloc_id % 2 ^ 64).toNat, size, usage, region_start, region_size⟩ ::
      undump region_start region_size lines

theorem toNat_toLong {n : Nat} (hn : n < 2 ^ 64) : (toLong n % 2 ^ 64).toNat = n := by
  unfold toLong
  rw [show (2 : Int) ^ 64 = ((2 ^ 64 : Nat) : Int) from rfl, Int.bmod_emod]
  omega

theorem undump_lines {start len : Nat} {xs : List Header} (lines : List Line)
    (hxs : ∀ x ∈ xs, x.Ok ∧ x.region_start = start ∧ x.region_size = len) :
    undump start len (xs.map Header.line ++ lines) = xs ++ undump start len lines := by
  induction xs with
  | nil => rfl
  | cons x xs ih =>
    obtain ⟨hok, rfl, rfl⟩ := hxs x List.mem_cons_self
    rw [List.map_cons, List.cons_append, List.cons_append, ← ih fun y hy => hxs y (List.mem_cons_of_mem _ hy)]
    unfold Header.line
    rw [undump, toNat_toLong hok.alloc_id_lt]

/-- **Round trip**: the list can be read off its dump. -/
theorem undump_dump (start len : Nat) (rs : List Region) : undump start len (dump rs) = flat rs := by
  induction rs generalizing start len with
  | nil => rfl
  | cons r rs ih =>
    have hr : ∀ x ∈ r.headers, x.Ok ∧ x.region_start = r.start ∧ x.region_size = r.len := by
      intro x hx
      obtain ⟨hok, hstart, hlen, -⟩ := Region.of_mem hx
      exact ⟨hok, hstart, hlen⟩
    rw [dump_cons, flat_cons, ← ih r.start r.len, ← undump_lines (dump rs) hr]
    rfl

/-- No line goes on after its end. -/
theorem Line.newline_not_mem (line : Line) : '\n' ∉ line.text := by
  have hp : ∀ a, '\n' ∉ Printf.p a := fun a => Printf.not_mem_p (by decide) (by decide)
  have hzu : ∀ n, '\n' ∉ Printf.zu n := fun n => Printf.not_mem_zu (by decide)
  have hld : ∀ n, '\n' ∉ Printf.ld n := fun n => Printf.not_mem_ld (by decide) (by decide)
  cases line with
  | region => simp [Line.text, hp, hzu]
  | block => simp [Line.text, hp, hzu, hld]

/-- Different lines are printed differently. -/
theorem Line.text_injective : Function.Injective Line.text := by
  have hdash : ∀ a, '-' ∉ Printf.p a := fun a => Printf.not_mem_p (by decide) (by decide)
  have hblank : ∀ a, ' ' ∉ Printf.p a := fun a => Printf.not_mem_p (by decide) (by decide)
  have hzu : ∀ n, ' ' ∉ Printf.zu n := fun n => Printf.not_mem_zu (by decide)
  have hld : ∀ n, ')' ∉ Printf.ld n := fun n => Printf.not_mem_ld (by decide) (by decide)
  intro line line' he
  cases line with
  | region current_region region_end region_size =>
    cases line' with
    | region current_region' region_end' region_size' =>
      obtain ⟨hstart, he⟩ := (Printf.append_cons_inj (hdash _) (hdash _)).mp (List.append_cancel_left he)
      obtain ⟨hend, he⟩ := (Printf.append_cons_inj (hblank _) (hblank _)).mp he
      rw [Printf.p_inj.mp hstart, Printf.p_inj.mp hend, Printf.zu_inj.mp he]
    | block => simp [Line.text] at he
  | block current_block block_end alloc_id size usage payload =>
    cases line' with
    | region => simp [Line.text] at he
    | block current_block' block_end' alloc_id' size' usage' payload' =>
      obtain ⟨hstart, he⟩ := (Printf.append_cons_inj (hdash _) (hdash _)).mp (List.append_cancel_left he)
      obtain ⟨hend, he⟩ := (Printf.append_cons_inj (hblank _) (hblank _)).mp he
      obtain ⟨hid, he⟩ := (Printf.append_cons_inj (hld _) (hld _)).mp (List.cons.inj he).2
      obtain ⟨hsize, he⟩ := (Printf.append_cons_inj (hzu _) (hzu _)).mp (List.cons.inj he).2
      obtain ⟨husage, he⟩ := (Printf.append_cons_inj (hzu _) (hzu _)).mp he
      rw [Printf.p_inj.mp hstart, Printf.p_inj.mp hend, Printf.ld_inj.mp hid, Printf.zu_inj.mp hsize,
        Printf.zu_inj.mp husage, Printf.zu_inj.mp he]

theorem texts_injective : Function.Injective texts :=
  Printf.flatMap_injective Line.newline_not_mem Line.text_injective

/-- The text has one reading as lines. -/
theorem Represents.lines_eq {lines : List Line} (hr : Represents h rs)
    (hprint : print_memory h = .ok (title ++ texts lines)) : lines = dump rs :=
  texts_injective (List.append_cancel_left (Except.ok.inj (hprint.symm.trans hr.print_eq)))

/-- What a state prints determines its list. -/
theorem Represents.flat_eq_of_print {h' : Heap} (hr : Represents h rs) (hr' : Represents h' rs')
    (he : print_memory h = print_memory h') : flat rs = flat rs' := by
  have hdump : dump rs = dump rs' := hr'.lines_eq (he.symm.trans hr.print_eq)
  rw [← undump_dump 0 0 rs, hdump, undump_dump]

/-- **What is printed determines what is found**: two states, of the same program or of different ones, that print the
same text have the same list of blocks and the same live allocations; and the next search finds the same block in both,
for every size and under every policy. -/
theorem print_memory_determines {page' : PageSize} {tr tr' : List (Call × Nat)} {w w' : Client}
    (h : Reaches page tr w) (h' : Reaches page' tr' w') (hprint : print_memory w.heap = print_memory w'.heap) :
    (∃ xs, BlockList w.heap xs ∧ BlockList w'.heap xs) ∧
      (∀ ptr, ptr ∈ w.live.map Prod.fst ↔ ptr ∈ w'.live.map Prod.fst) ∧
      ∀ env size, reuse env size w.heap = reuse env size w'.heap := by
  obtain ⟨rs, hI⟩ := h.inv
  obtain ⟨rs', hI'⟩ := h'.inv
  have hflat := hI.represents.flat_eq_of_print hI'.represents hprint
  refine ⟨⟨flat rs, hI.represents.blockList, ?_⟩, fun ptr => ?_, fun env size => ?_⟩
  · rw [hflat]
    exact hI'.represents.blockList
  · rw [hI.live, hI'.live, hflat]
  · by_cases hread : env.Readable
    · rw [reuse_eq hI.represents hread, reuse_eq hI'.represents hread, hflat]
    · rw [reuse_fault _ _ hread, reuse_fault _ _ hread]

/-- What the program writes to its memory is not printed. -/
theorem print_memory_determines_write : ∃ w w' : Client, w.heap.mem 4144 ≠ w'.heap.mem 4144 ∧
    print_memory w.heap = print_memory w'.heap ∧ ∀ env size, reuse env size w.heap = reuse env size w'.heap := by
  obtain ⟨h, r, hreach, -⟩ := reaches_malloc
  obtain ⟨rs, hI⟩ := hreach.inv
  have hwrite : ∀ c : UInt8, ∃ tr w, Reaches .default tr w ∧ w.heap.mem 4144 = c ∧ Represents w.heap rs := by
    intro c
    have hc : Permitted .default ⟨h, [(4144, 8)]⟩ (.write 4144 c) :=
      ⟨(4144, 8), List.mem_singleton_self _, Nat.le_refl _, by decide⟩
    obtain ⟨h', p, rs', hres, he⟩ := hI.effect .default hc trivial
    have hr' := (hI.step he).represents
    have hrs : rs' = rs := by
      cases he with
      | fails hreq | allocates hreq => cases hreq
      | frees _ hends => cases hends
      | writes _ _ _ _ _ _ _ _ hrs => exact hrs
    refine ⟨_, _, Run.snoc hreach ⟨_, p, h', hc, hres, rfl, rfl⟩, ?_, hrs ▸ hr'⟩
    obtain ⟨h₁, hset, he⟩ := bind_ok hres
    obtain ⟨rfl, -⟩ := Prod.mk.inj (Except.ok.inj he)
    unfold Heap.memset at hset
    split at hset
    · obtain rfl := Except.ok.inj hset
      have hfill : fillBytes h.mem 1 4144 c 4144 = c := by simp [fillBytes]
      exact hfill
    · cases hset
  obtain ⟨tr, w, hreach, hmem, hr⟩ := hwrite 1
  obtain ⟨tr', w', hreach', hmem', hr'⟩ := hwrite 2
  have hprint : print_memory w.heap = print_memory w'.heap := hr.print_eq.trans hr'.print_eq.symm
  refine ⟨w, w', ?_, hprint, (print_memory_determines hreach hreach' hprint).2.2⟩
  rw [hmem, hmem']
  decide

end Cs326.Allocator
