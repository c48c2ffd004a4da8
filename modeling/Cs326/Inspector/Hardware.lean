import Cs326.Inspector.StaleBytes
import Cs326.Lib.CInt
import Cs326.Lib.Numerals

/-!
# CPU and memory

The part of `main` in `inspector.c` that opens `stat` eighteen times and `meminfo` five times, for the figures from
which it computes the use of the CPU and of the memory. The buffer keeps what the files before have left in it, and the
sums are taken in an `int`. A computation on the buffers `Yields` a value under a condition; that of two computations
one behind the other is the conjunction (`Yields.bind`), and so `hardware_iff` says when `main` comes to the figures,
and that each of them is what its file has shown at this one opening.

What is left out is what comes behind the figures: `float`s and the bars that are printed.
-/

namespace Cs326.Inspector

open CharArray Text

/-- Why there are no figures. -/
inductive Stop
  /-- A file could not be opened, and `main` returns. -/
  | unopened
  /-- An `int` overflows. -/
  | overflow
  | undefined (e : Undefined)
  deriving DecidableEq

/-- How many bytes are read, and the arguments of `getNextTok`. -/
structure Lookup where
  count : Nat
  sep : CString
  str : CString
  nextTok : Nat

/-- A column of the first line of `stat`. -/
def cpu (i : Nat) : Lookup := ⟨1000, literal [' '], literal ['c', 'p', 'u'], i⟩

/-- The names of `meminfo`, in the order in which they are looked up. -/
inductive MemName
  | memTotal
  | memFree
  | buffers
  | cached
  | sCached
  deriving DecidableEq

def MemName.text : MemName → List Char
  | .memTotal => ['M', 'e', 'm', 'T', 'o', 't', 'a', 'l']
  | .memFree => ['M', 'e', 'm', 'F', 'r', 'e', 'e']
  | .buffers => ['B', 'u', 'f', 'f', 'e', 'r', 's']
  | .cached => ['C', 'a', 'c', 'h', 'e', 'd']
  | .sCached => ['S', 'w', 'a', 'p', 'C', 'a', 'c', 'h', 'e', 'd']

/-- The name with its colon. -/
def MemName.key (name : MemName) : CString := literal (name.text ++ [':']) (by cases name <;> decide)

def mem (name : MemName) : Lookup := ⟨100000, literal ['\n', ' '], name.key, 0⟩

/-- `buf`, and the array that a token is copied to: `cpuinfo` or `meminfo`. -/
structure Buffers (n : Nat) where
  buf : CharArray 100000
  info : CharArray n

/-- An `int`, if it is one. -/
def checked (x : Int) : Except Stop Int := if -2 ^ 31 ≤ x ∧ x ≤ INT_MAX then .ok x else .error .overflow

variable {n : Nat}

/-- `open`, `read`, `getNextTok`, `strcpy` and `atoi`. `file` is what there is to read. -/
def Buffers.number (b : Buffers n) (file : Option (List UInt8)) (l : Lookup) : Except Stop (Buffers n × Int) :=
  match file with
  | none => .error .unopened
  | some file => Except.mapError .undefined do
    let (buf, tok) ← getNextTok (← b.buf.write 0 (file.take l.count)) l.sep l.str l.nextTok
    match tok with
    | none => .error .null
    | some tok =>
      let info ← b.info.strcpy 0 (← buf.string tok)
      return (⟨buf, info⟩, atoi (← info.string 0))

/-- The loop over the columns `is`; `stat k` is what the `open` number `k` finds. -/
def Buffers.total (stat : Nat → Option (List UInt8)) (k : Nat) :
    List Nat → Buffers n → Int → Except Stop (Buffers n × Int)
  | [], b, total => return (b, total)
  | i :: is, b, total => do
    let (b, x) ← b.number (stat (k + i)) (cpu i)
    Buffers.total stat k is b (← checked (total + x))

/-- The figures. -/
structure Figures where
  diffIdle : Int
  diffTotal : Int
  memTotal : Int
  /-- `memFree + buffers + cached + sCached`. -/
  memLeft : Int
  deriving DecidableEq

/-- From `prevIdle` on to the first `float`s. -/
def cpuFigures (stat : Nat → Option (List UInt8)) (b : Buffers n) : Except Stop (Buffers n × Int × Int) := do
  let (b, prevTotal) ← Buffers.total stat 0 (List.range 8) b 0
  let (b, prevIdle) ← b.number (stat 8) (cpu 3)
  let (b, currTotal) ← Buffers.total stat 9 (List.range 8) b 0
  let (b, currIdle) ← b.number (stat 17) (cpu 3)
  return (b, ← checked (currIdle - prevIdle), ← checked (currTotal - prevTotal))

def memFigures (meminfo : MemName → Option (List UInt8)) (b : Buffers n) : Except Stop (Buffers n × Int × Int) := do
  let (b, memTotal) ← b.number (meminfo .memTotal) (mem .memTotal)
  let (b, memFree) ← b.number (meminfo .memFree) (mem .memFree)
  let (b, buffers) ← b.number (meminfo .buffers) (mem .buffers)
  let (b, cached) ← b.number (meminfo .cached) (mem .cached)
  let (b, sCached) ← b.number (meminfo .sCached) (mem .sCached)
  return (b, memTotal, ← checked ((← checked ((← checked (memFree + buffers)) + cached)) + sCached))

/-- The two together; `meminfo name` is what the `open` for this name finds. -/
def hardware (stat : Nat → Option (List UInt8)) (meminfo : MemName → Option (List UInt8)) (buf : CharArray 100000) :
    Except Stop Figures := do
  let (b, diffIdle, diffTotal) ← cpuFigures stat (⟨buf, .zero 1000⟩ : Buffers 1000)
  let (_, memTotal, memLeft) ← memFigures meminfo (⟨b.buf, .zero 100000⟩ : Buffers 100000)
  return ⟨diffIdle, diffTotal, memTotal, memLeft⟩

/-! ## The range of `int` -/

theorem checked_nat {m : Nat} (h : m ≤ INT_MAX) : checked m = .ok (m : Int) := if_pos (by omega)

theorem checked_overflow {m : Nat} (h : INT_MAX < m) : checked m = .error .overflow := if_neg (by omega)

/-- The difference of two natural numbers that are `int`s is one. -/
theorem checked_sub {m k : Nat} (hm : m ≤ INT_MAX) (hk : k ≤ INT_MAX) :
    checked ((m : Int) - k) = .ok ((m : Int) - k) := by
  unfold INT_MAX at hm hk
  exact if_pos (by unfold INT_MAX; omega)

/-- Sums that begin in the range of `int` and leave it do not come back. -/
theorem checked_sum (a b c d : Nat) :
    (do checked ((← checked ((← checked ((a : Int) + b)) + c)) + d)) =
      if a + b + c + d ≤ INT_MAX then .ok ((a + b + c + d : Nat) : Int) else .error .overflow := by
  by_cases hab : a + b ≤ INT_MAX
  · by_cases habc : a + b + c ≤ INT_MAX
    · simp only [← Int.natCast_add, checked_nat hab, checked_nat habc, ok_bind]
      split_ifs with hall
      · exact checked_nat hall
      · exact checked_overflow (Nat.lt_of_not_le hall)
    · rw [← Int.natCast_add, checked_nat hab, ok_bind, ← Int.natCast_add, checked_overflow (Nat.lt_of_not_le habc),
        if_neg (by omega)]
      rfl
  · rw [← Int.natCast_add, checked_overflow (Nat.lt_of_not_le hab), if_neg (by omega)]
    rfl

/-! ## Computations with the buffers -/

section Yields

variable {α β : Type} {c : Except Stop (Buffers n × α)} {p q : Prop} {x : α} {z : β}

/-- It comes to its end if and only if `p`, and then to the value `x`. -/
def Yields (c : Except Stop (Buffers n × α)) (p : Prop) (x : α) : Prop := ∀ y, (∃ b, c = .ok (b, y)) ↔ p ∧ y = x

theorem Yields.of_ok {b : Buffers n} (hp : p) (h : c = .ok (b, x)) : Yields c p x := by
  intro y
  rw [h]
  constructor
  · rintro ⟨_, ⟨⟩⟩
    exact ⟨hp, rfl⟩
  · rintro ⟨-, rfl⟩
    exact ⟨b, rfl⟩

theorem Yields.of_error {e : Stop} (hp : ¬p) (h : c = .error e) : Yields c p x := by
  intro y
  rw [h]
  constructor
  · rintro ⟨_, ⟨⟩⟩
  · exact fun hpy => absurd hpy.1 hp

/-- **One behind the other.** -/
theorem Yields.bind {k : Buffers n × α → Except Stop (Buffers n × β)} (h : Yields c p x)
    (hk : p → ∀ b, Yields (k (b, x)) q z) : Yields (c >>= k) (p ∧ q) z := by
  intro y
  constructor
  · rintro ⟨b', hb'⟩
    obtain ⟨⟨b, v⟩, hc, hrest⟩ := bind_ok hb'
    obtain ⟨hp, rfl⟩ := (h v).mp ⟨b, hc⟩
    obtain ⟨hq, hy⟩ := (hk hp b y).mp ⟨b', hrest⟩
    exact ⟨⟨hp, hq⟩, hy⟩
  · rintro ⟨⟨hp, hq⟩, rfl⟩
    obtain ⟨b, hc⟩ := (h x).mpr ⟨hp, rfl⟩
    obtain ⟨b', hrest⟩ := (hk hp b y).mpr ⟨hq, rfl⟩
    exact ⟨b', by rw [hc, ok_bind, hrest]⟩

theorem Yields.congr {p' : Prop} {x' : α} (h : Yields c p x) (hp : p ↔ p') (hx : p' → x = x') : Yields c p' x' := by
  intro y
  rw [h y, hp]
  exact and_congr_right fun hp' => by rw [hx hp']

end Yields

/-! ## One figure -/

variable {l : Lookup} {b : Buffers n}

/-- What the lookup finds in the bytes that are read of a file. -/
def Lookup.token (l : Lookup) (file : List UInt8) : Option (List UInt8) :=
  let ts := ended l.sep (file.take l.count)
  ts[place l.str l.nextTok ts]?

/-- **One opening of a file** gives the number behind the key, if it succeeds. -/
theorem number_yields {T : Type*} {text : T → List UInt8} {value : T → Nat} (file : Option T) (b : Buffers n)
    (hcount : l.count ≤ 100000) (h : ∀ s : T, 0 ∉ text s ∧ l.token (text s) = some (decimal (value s)))
    (hsize : ∀ s : T, value s ≤ INT_MAX) (hn : 10 < n) :
    Yields (b.number (file.map text) l) (file.isSome) (((file.map value).getD 0 : Nat) : Int) := by
  cases file with
  | none => exact .of_error (by simp) rfl
  | some s =>
    obtain ⟨h0, htok⟩ := h s
    have hint : value s < 2 ^ 31 := by
      have := hsize s
      unfold INT_MAX at this
      omega
    have hlength : (decimal (value s)).length ≤ 10 := decimal_length_le (by decide) (by omega)
    obtain ⟨a, buf, q, hread, hget, hstring⟩ := token_read ((List.length_take_le _ _).trans hcount)
      (fun hz => h0 (List.mem_of_mem_take hz)) htok b.buf
    obtain ⟨info, hcopy, hinfo, -⟩ := b.info.strcpy_eq (p := 0) (s := decimal (value s)) (by omega)
      (not_mem_decimal rfl _)
    refine .of_ok rfl (b := ⟨buf, info⟩) ?_
    simp only [Option.map_some, Buffers.number, hread, hget, hstring, hcopy, hinfo.string, ok_bind, pure_ok,
      (numeral_decimal _).atoi_eq hint, Option.getD_some]
    rfl

/-! ## `stat` -/

/-- A text of `stat`: the line for all processors, with nine columns at least, and what is behind it. -/
structure StatText where
  columns : List Nat
  rest : List UInt8
  nine : 9 ≤ columns.length
  fits : ∀ x ∈ columns, x ≤ INT_MAX
  nonzero : 0 ∉ rest

def StatText.text (s : StatText) : List UInt8 :=
  chars ['c', 'p', 'u', ' '] ++ ((s.columns.flatMap fun x => 32 :: decimal x) ++ 10 :: s.rest)

def StatText.column (s : StatText) (i : Nat) : Nat := s.columns.getD i 0

theorem StatText.column_le (s : StatText) (i : Nat) : s.column i ≤ INT_MAX := by
  unfold StatText.column
  rw [List.getD_eq_getElem?_getD]
  cases h : s.columns[i]? with
  | none => exact Nat.zero_le _
  | some x => exact s.fits x (List.mem_of_getElem? h)

theorem StatText.zero_notMem (s : StatText) : 0 ∉ s.text := by
  have hdigits : ∀ m, 0 ∉ decimal m := not_mem_decimal (by decide)
  have hcpu : (0 : UInt8) ∉ chars ['c', 'p', 'u', ' '] := by decide
  simp [StatText.text, hcpu, hdigits, s.nonzero]

theorem piece_decimal {p : UInt8 → Bool} (h : ∀ c, p c = true → isdigit c = false) (m : Nat) : Piece p (decimal m) := by
  refine ⟨(numeral_decimal m).ne_nil, fun c hc => ?_⟩
  by_contra hp
  exact not_mem_decimal (h c (by simpa using hp)) m hc

/-- Columns with a space behind the last one. -/
def columnsText (l : List Nat) : List UInt8 :=
  chars ['c', 'p', 'u', ' '] ++ (l.flatMap fun x => 32 :: decimal x) ++ [32]

theorem columnsText_length {l : List Nat} (h : ∀ x ∈ l, x ≤ INT_MAX) : (columnsText l).length ≤ 5 + 11 * l.length := by
  have hflat : (l.flatMap fun x => 32 :: decimal x).length ≤ 11 * l.length := by
    induction l with
    | nil => exact Nat.zero_le _
    | cons x l ih =>
      rw [List.forall_mem_cons] at h
      have hx : (decimal x).length ≤ 10 := decimal_length_le (by decide) (Nat.lt_of_le_of_lt h.1 (by decide))
      have hl := ih h.2
      rw [List.flatMap_cons, List.length_append, List.length_cons, List.length_cons]
      omega
  have hcpu : (chars ['c', 'p', 'u', ' ']).length = 4 := rfl
  unfold columnsText
  rw [List.length_append, List.length_append, hcpu, List.length_singleton]
  omega

theorem ended_columns (l : List Nat) (back : List UInt8) : ∃ ts,
    ended (literal [' ']) (columnsText l ++ back) = chars ['c', 'p', 'u'] :: (l.map decimal ++ ts) := by
  have hspace : [(32 : UInt8)].contains 32 = true := rfl
  have hdigit : ∀ c, [(32 : UInt8)].contains c = true → isdigit c = false := by
    intro c hc
    obtain rfl : c = 32 := by simpa using hc
    rfl
  have hkey : Piece (fun b => [(32 : UInt8)].contains b) (chars ['c', 'p', 'u']) := piece_of_all (by decide) (by decide)
  obtain ⟨ts, hts⟩ := pieces_closed_append (fun b => [(32 : UInt8)].contains b) (columnsText l) back
  refine ⟨ts, hts.trans ?_⟩
  unfold columnsText
  rw [closed_append_cons hspace, pieces_append_delim hspace,
    pieces_append_flatMap hspace fun x _ => piece_decimal hdigit x,
    show chars ['c', 'p', 'u', ' '] = chars ['c', 'p', 'u'] ++ [32] from rfl, hkey.pieces_cons hspace]
  simp [closed]

/-- **The columns** stand in the bytes that are read. -/
theorem StatText.token (s : StatText) {i : Nat} (hi : i < 8) : (cpu i).token s.text = some (decimal (s.column i)) := by
  obtain ⟨first, x, others, hcolumns, hfirst⟩ : ∃ first x others, s.columns = first ++ x :: others ∧
      first.length = 8 := by
    have hnine := s.nine
    obtain ⟨x, others, hsplit⟩ : ∃ x others, s.columns.drop 8 = x :: others :=
      List.exists_cons_of_ne_nil fun hnil => by
        have := List.drop_eq_nil_iff.mp hnil
        omega
    exact ⟨s.columns.take 8, x, others, by rw [← hsplit, List.take_append_drop], List.length_take_of_le (by omega)⟩
  obtain ⟨back, hback⟩ : ∃ back, s.text = columnsText first ++ back := by
    refine ⟨decimal x ++ ((others.flatMap fun x => 32 :: decimal x) ++ 10 :: s.rest), ?_⟩
    unfold StatText.text columnsText
    rw [hcolumns, List.flatMap_append, List.flatMap_cons]
    simp
  -- eight columns and their ends are among the first thousand bytes
  have hlength : (columnsText first).length ≤ 1000 := by
    have hle := columnsText_length (l := first) fun x hx => s.fits x (hcolumns ▸ List.mem_append_left _ hx)
    omega
  have htake : s.text.take 1000 = columnsText first ++ back.take (1000 - (columnsText first).length) := by
    rw [hback, List.take_append, List.take_of_length_le hlength]
  obtain ⟨ts, hts⟩ := ended_columns first (back.take (1000 - (columnsText first).length))
  rw [← htake] at hts
  have hplace : place (cpu i).str (cpu i).nextTok (chars ['c', 'p', 'u'] :: (first.map decimal ++ ts)) = 1 + i := by
    have hkey : (cpu i).str ≠ none_key := show literal ['c', 'p', 'u'] ≠ none_key by decide
    rw [place, if_neg hkey]
    exact congrArg (· + i) (taken_cons_self (literal ['c', 'p', 'u']) 10000 _)
  have hget : s.columns[i]? = first[i]? := by rw [hcolumns, List.getElem?_append_left (by omega)]
  have hlt : i < first.length := by omega
  show (ended (literal [' ']) (s.text.take 1000))[place _ _ (ended (literal [' ']) (s.text.take 1000))]? = _
  rw [hts, hplace, Nat.add_comm, List.getElem?_cons_succ, List.getElem?_append_left (by simpa using hlt),
    List.getElem?_map, StatText.column, List.getD_eq_getElem?_getD, hget, List.getElem?_eq_getElem hlt]
  rfl

/-! ## `meminfo` -/

/-- A line of `meminfo`: a name with a colon, spaces, a number, and a unit or none. -/
structure MemLine where
  name : List UInt8
  gap : Nat
  value : Nat
  unit : Bool
  plain : ∀ b ∈ name, b ≠ 0 ∧ b ≠ 10 ∧ b ≠ 32
  fits : value ≤ INT_MAX

def MemLine.text (line : MemLine) : List UInt8 :=
  line.name ++ (58 :: (List.replicate line.gap 32 ++ (32 :: (decimal line.value ++
    if line.unit then chars [' ', 'k', 'B'] else []))))

/-- A text of `meminfo`. -/
structure MemText where
  lines : List MemLine
  named : ∀ name : MemName, ∃ line ∈ lines, line.name = chars name.text
  few : lines.length ≤ 3333
  short : (lines.flatMap fun line => line.text ++ [10]).length ≤ 100000

def MemText.text (m : MemText) : List UInt8 := m.lines.flatMap fun line => line.text ++ [10]

/-- The number in the first line with this name. -/
def MemText.value (m : MemText) (name : MemName) : Nat :=
  ((m.lines.find? fun line => line.name == chars name.text).map MemLine.value).getD 0

theorem MemText.value_le (m : MemText) (name : MemName) : m.value name ≤ INT_MAX := by
  unfold MemText.value
  cases h : m.lines.find? fun line => line.name == chars name.text with
  | none => exact Nat.zero_le _
  | some line => exact line.fits

theorem MemText.zero_notMem (m : MemText) : 0 ∉ m.text := by
  have hdigits : ∀ k, 0 ∉ decimal k := not_mem_decimal (by decide)
  intro h
  obtain ⟨line, -, hline⟩ := List.mem_flatMap.mp h
  have hname : 0 ∉ line.name := fun h0 => (line.plain 0 h0).1 rfl
  have hunit : (0 : UInt8) ∉ if line.unit then chars [' ', 'k', 'B'] else [] := by cases line.unit <;> decide
  simp [MemLine.text, hname, hdigits, hunit] at hline

/-- The tokens of a line. -/
def MemLine.tokens (line : MemLine) : List (List UInt8) :=
  (line.name ++ [58]) :: decimal line.value :: if line.unit then [chars ['k', 'B']] else []

theorem pieces_memLine (line : MemLine) :
    pieces (fun b => [(10 : UInt8), 32].contains b) line.text = line.tokens := by
  have hspace : [(10 : UInt8), 32].contains 32 = true := rfl
  have hdigit : ∀ c, [(10 : UInt8), 32].contains c = true → isdigit c = false := by
    intro c hc
    obtain rfl | rfl : c = 10 ∨ c = 32 := by simpa using hc
    · rfl
    · rfl
  have hname : Piece (fun b => [(10 : UInt8), 32].contains b) (line.name ++ [58]) := by
    refine ⟨by simp, fun c hc => ?_⟩
    rcases List.mem_append.mp hc with hc | hc
    · simp [(line.plain c hc).2]
    · rw [List.mem_singleton.mp hc]
      rfl
  have hvalue := piece_decimal hdigit line.value
  have hrest : pieces (fun b => [(10 : UInt8), 32].contains b) (decimal line.value ++
      if line.unit then chars [' ', 'k', 'B'] else []) =
        decimal line.value :: if line.unit then [chars ['k', 'B']] else [] := by
    cases line.unit with
    | false =>
      simp only [Bool.false_eq_true, if_false, List.append_nil]
      exact hvalue.pieces
    | true =>
      have hunit : Piece (fun b => [(10 : UInt8), 32].contains b) (chars ['k', 'B']) :=
        piece_of_all (by decide) (by decide)
      exact (hvalue.pieces_cons hspace _).trans (congrArg _ hunit.pieces)
  have hgap : ∀ c ∈ List.replicate line.gap (32 : UInt8) ++ [32], [(10 : UInt8), 32].contains c = true := by
    intro c hc
    rcases List.mem_append.mp hc with hc | hc
    · rw [List.eq_of_mem_replicate hc]
      rfl
    · rw [List.mem_singleton.mp hc]
      rfl
  have htext : line.text = (line.name ++ [58]) ++ ((List.replicate line.gap 32 ++ [32]) ++ (decimal line.value ++
      if line.unit then chars [' ', 'k', 'B'] else [])) := by
    simp [MemLine.text]
  rw [htext, hname.pieces_append hgap (by simp), hrest]
  rfl

theorem MemName.key_bytes (name : MemName) : name.key.bytes = chars name.text ++ [58] := List.map_append

/-- A key is among the tokens of a line with its name only. -/
theorem MemLine.key_mem {line : MemLine} {name : MemName} (h : name.key.bytes ∈ line.tokens) :
    line.name = chars name.text := by
  have hcolon : 58 ∈ name.key.bytes := by rw [MemName.key_bytes]; simp
  unfold MemLine.tokens at h
  rcases List.mem_cons.mp h with h | h
  · exact (List.append_left_injective [58] (name.key_bytes.symm.trans h)).symm
  rcases List.mem_cons.mp h with h | h
  · exact absurd (h ▸ hcolon) (not_mem_decimal (by decide) _)
  · have hunit : name.key.bytes = chars ['k', 'B'] := by
      cases hu : line.unit with
      | false => simp [hu] at h
      | true => simpa [hu] using h
    exact absurd (hunit ▸ hcolon) (by decide)

theorem MemLine.tokens_length (line : MemLine) : line.tokens.length ≤ 3 := by
  unfold MemLine.tokens
  cases line.unit <;> exact Nat.le_of_ble_eq_true rfl

/-- **The number behind a key** is the one in the first line with this name. -/
theorem MemText.token (m : MemText) (name : MemName) : (mem name).token m.text = some (decimal (m.value name)) := by
  have hnl : [(10 : UInt8), 32].contains 10 = true := rfl
  obtain ⟨line, hfind⟩ : ∃ line, (m.lines.find? fun line => line.name == chars name.text) = some line := by
    obtain ⟨line, hmem, hname⟩ := m.named name
    exact Option.isSome_iff_exists.mp (List.find?_isSome.mpr ⟨line, hmem, by simp [hname]⟩)
  obtain ⟨hname, front, back, hlines, hfront⟩ := List.find?_eq_some_iff_append.mp hfind
  have hname : line.name = chars name.text := by simpa using hname
  -- the text ends with a newline, and its tokens are those of its lines
  have htake : m.text.take 100000 = m.text := List.take_of_length_le m.short
  have hclosed : closed (fun b => [(10 : UInt8), 32].contains b) m.text = m.text := by
    unfold MemText.text
    rcases List.eq_nil_or_concat' m.lines with hnil | ⟨init, last, hlast⟩
    · rw [hnil]
      rfl
    · rw [hlast, List.flatMap_append, List.flatMap_singleton, ← List.append_assoc, closed_append_cons hnl]
      rfl
  have htokens : ended (mem name).sep (m.text.take 100000) = front.flatMap MemLine.tokens ++
      (name.key.bytes :: decimal line.value :: ((if line.unit then [chars ['k', 'B']] else []) ++
        back.flatMap MemLine.tokens)) := by
    have hpieces : ended (mem name).sep (m.text.take 100000) = m.lines.flatMap MemLine.tokens := by
      rw [htake]
      exact (congrArg (pieces _) hclosed).trans ((pieces_flatMap hnl m.lines).trans
        (congrArg (fun f => m.lines.flatMap f) (funext pieces_memLine)))
    rw [hpieces, hlines, List.flatMap_append, List.flatMap_cons, MemLine.tokens, hname, MemName.key_bytes]
    rfl
  have hnot : name.key.bytes ∉ front.flatMap MemLine.tokens := by
    intro h
    obtain ⟨line', hmem, htok⟩ := List.mem_flatMap.mp h
    have hother := hfront line' hmem
    simp [MemLine.key_mem htok] at hother
  have hfew : (front.flatMap MemLine.tokens).length ≤ 3 * front.length := by
    clear hnot htokens hfront hlines
    induction front with
    | nil => exact Nat.zero_le _
    | cons line front ih =>
      have hline := line.tokens_length
      rw [List.flatMap_cons, List.length_append, List.length_cons]
      omega
  have hplace : place name.key 0 (ended (mem name).sep (m.text.take 100000)) =
      (front.flatMap MemLine.tokens).length + 1 := by
    have hkey : name.key ≠ none_key := by cases name <;> decide
    have hcount := m.few
    rw [hlines, List.length_append, List.length_cons] at hcount
    rw [place, if_neg hkey, htokens, taken, List.idxOf_append_of_notMem hnot, List.idxOf_cons_self]
    unfold rounds
    omega
  have hvalue : m.value name = line.value := by rw [MemText.value, hfind]; rfl
  show (ended (mem name).sep (m.text.take 100000))[place name.key 0 (ended (mem name).sep (m.text.take 100000))]? = _
  rw [hplace, htokens, List.getElem?_append_right (Nat.le_add_right _ 1), Nat.add_sub_cancel_left, hvalue]
  rfl

/-! ## The figures -/

/-- The number of a column, where the file could be opened. -/
def columnOf (stat : Nat → Option StatText) (k i : Nat) : Nat := ((stat k).map fun s => s.column i).getD 0

def memOf (meminfo : MemName → Option MemText) (name : MemName) : Nat :=
  ((meminfo name).map fun m => m.value name).getD 0

theorem columnOf_le (stat : Nat → Option StatText) (k i : Nat) : columnOf stat k i ≤ INT_MAX := by
  unfold columnOf
  cases stat k with
  | none => exact Nat.zero_le _
  | some s => exact s.column_le i

variable (stat : Nat → Option StatText) (meminfo : MemName → Option MemText)

/-- What is there to read. -/
def texts (stat : Nat → Option StatText) (k : Nat) : Option (List UInt8) := (stat k).map StatText.text

def memTexts (meminfo : MemName → Option MemText) (name : MemName) : Option (List UInt8) :=
  (meminfo name).map MemText.text

theorem column_yields (k : Nat) {i : Nat} (hi : i < 8) (b : Buffers 1000) :
    Yields (b.number (texts stat k) (cpu i)) ((stat k).isSome) ((columnOf stat k i : Nat) : Int) :=
  number_yields (stat k) b (show 1000 ≤ 100000 by decide) (fun s => ⟨s.zero_notMem, s.token hi⟩)
    (fun s => s.column_le i) (by decide)

theorem mem_yields (name : MemName) (b : Buffers 100000) :
    Yields (b.number (memTexts meminfo name) (mem name)) ((meminfo name).isSome) ((memOf meminfo name : Nat) : Int) :=
  number_yields (meminfo name) b (Nat.le_refl _) (fun m => ⟨m.zero_notMem, m.token name⟩) (fun m => m.value_le name)
    (by decide)

/-- The sum over the columns `is`, each of its own opening. -/
def sumOf (stat : Nat → Option StatText) (k : Nat) : List Nat → Nat
  | [] => 0
  | i :: is => columnOf stat (k + i) i + sumOf stat k is

/-- **The loop** gives the sum, if every file can be opened and the sum is an `int`. -/
theorem total_yields (k : Nat) {is : List Nat} (his : ∀ i ∈ is, i < 8) (b : Buffers 1000) {total : Nat}
    (htotal : total ≤ INT_MAX) : Yields (Buffers.total (texts stat) k is b total)
      ((∀ i ∈ is, (stat (k + i)).isSome) ∧ total + sumOf stat k is ≤ INT_MAX)
      ((total + sumOf stat k is : Nat) : Int) := by
  induction is generalizing b total with
  | nil => exact .of_ok ⟨by simp, htotal⟩ rfl
  | cons i is ih =>
    rw [List.forall_mem_cons] at his
    have hsum : sumOf stat k (i :: is) = columnOf stat (k + i) i + sumOf stat k is := rfl
    have hstep : ∀ b' : Buffers 1000, Yields
        (do Buffers.total (texts stat) k is b' (← checked ((total : Int) + columnOf stat (k + i) i)))
        ((∀ i ∈ is, (stat (k + i)).isSome) ∧ total + sumOf stat k (i :: is) ≤ INT_MAX)
        ((total + sumOf stat k (i :: is) : Nat) : Int) := by
      intro b'
      by_cases hle : total + columnOf stat (k + i) i ≤ INT_MAX
      · rw [← Int.natCast_add, checked_nat hle, ok_bind, hsum, ← Nat.add_assoc]
        exact ih his.2 b' hle
      · refine .of_error (fun h => hle ?_) (e := .overflow) ?_
        · have := h.2
          omega
        · rw [← Int.natCast_add, checked_overflow (by omega)]
          rfl
    refine ((column_yields stat (k + i) his.1 b).bind fun _ => hstep).congr ?_ fun _ => rfl
    rw [List.forall_mem_cons, and_assoc]

/-- The loop as it stands in `main`. -/
theorem loop_yields (k : Nat) (b : Buffers 1000) : Yields (Buffers.total (texts stat) k (List.range 8) b 0)
    ((∀ i < 8, (stat (k + i)).isSome) ∧ sumOf stat k (List.range 8) ≤ INT_MAX)
    ((sumOf stat k (List.range 8) : Nat) : Int) := by
  have hrange : ∀ i ∈ List.range 8, i < 8 := fun i hi => List.mem_range.mp hi
  have h := total_yields stat k hrange b (Nat.zero_le INT_MAX)
  simp only [Nat.zero_add, List.mem_range] at h
  exact h

/-- The processor. -/
theorem cpuFigures_yields (b : Buffers 1000) : Yields (cpuFigures (texts stat) b)
    ((∀ k < 18, (stat k).isSome) ∧ sumOf stat 0 (List.range 8) ≤ INT_MAX ∧ sumOf stat 9 (List.range 8) ≤ INT_MAX)
    ((columnOf stat 17 3 : Int) - columnOf stat 8 3,
      (sumOf stat 9 (List.range 8) : Int) - sumOf stat 0 (List.range 8)) := by
  have h : Yields (cpuFigures (texts stat) b)
      (((∀ i < 8, (stat (0 + i)).isSome) ∧ sumOf stat 0 (List.range 8) ≤ INT_MAX) ∧ (stat 8).isSome ∧
        ((∀ i < 8, (stat (9 + i)).isSome) ∧ sumOf stat 9 (List.range 8) ≤ INT_MAX) ∧ (stat 17).isSome ∧ True)
      ((columnOf stat 17 3 : Int) - columnOf stat 8 3,
        (sumOf stat 9 (List.range 8) : Int) - sumOf stat 0 (List.range 8)) := by
    unfold cpuFigures
    refine (loop_yields stat 0 b).bind fun hprev b => ?_
    refine (column_yields stat 8 (by decide) b).bind fun _ b => ?_
    refine (loop_yields stat 9 b).bind fun hcurr b => ?_
    refine (column_yields stat 17 (by decide) b).bind fun _ b => ?_
    refine .of_ok trivial (b := b) ?_
    simp only [checked_sub (columnOf_le stat 17 3) (columnOf_le stat 8 3), checked_sub hcurr.2 hprev.2, ok_bind,
      pure_ok]
  refine h.congr ?_ fun _ => rfl
  constructor
  · rintro ⟨⟨h0, hprev⟩, h8, ⟨h9, hcurr⟩, h17, -⟩
    refine ⟨fun k hk => ?_, hprev, hcurr⟩
    rcases Nat.lt_or_ge k 8 with hlt | hge
    · simpa using h0 k hlt
    · obtain rfl | rfl | ⟨i, hi, rfl⟩ : k = 8 ∨ k = 17 ∨ ∃ i < 8, k = 9 + i := by
        by_cases h8 : k = 8
        · exact .inl h8
        · by_cases h17 : k = 17
          · exact .inr (.inl h17)
          · exact .inr (.inr ⟨k - 9, by omega, by omega⟩)
      · exact h8
      · exact h17
      · exact h9 i hi
  · rintro ⟨hall, hprev, hcurr⟩
    exact ⟨⟨fun i hi => hall _ (by omega), hprev⟩, hall 8 (by decide), ⟨fun i hi => hall _ (by omega), hcurr⟩,
      hall 17 (by decide), trivial⟩

/-- What is taken from the total. -/
def leftOf (meminfo : MemName → Option MemText) : Nat :=
  memOf meminfo .memFree + memOf meminfo .buffers + memOf meminfo .cached + memOf meminfo .sCached

/-- The memory. -/
theorem memFigures_yields (b : Buffers 100000) : Yields (memFigures (memTexts meminfo) b)
    ((∀ name, (meminfo name).isSome) ∧ leftOf meminfo ≤ INT_MAX)
    ((memOf meminfo .memTotal : Int), ((leftOf meminfo : Nat) : Int)) := by
  have h : Yields (memFigures (memTexts meminfo) b)
      ((meminfo .memTotal).isSome ∧ (meminfo .memFree).isSome ∧ (meminfo .buffers).isSome ∧
        (meminfo .cached).isSome ∧ (meminfo .sCached).isSome ∧ leftOf meminfo ≤ INT_MAX)
      ((memOf meminfo .memTotal : Int), ((leftOf meminfo : Nat) : Int)) := by
    unfold memFigures
    refine (mem_yields meminfo .memTotal b).bind fun _ b => ?_
    refine (mem_yields meminfo .memFree b).bind fun _ b => ?_
    refine (mem_yields meminfo .buffers b).bind fun _ b => ?_
    refine (mem_yields meminfo .cached b).bind fun _ b => ?_
    refine (mem_yields meminfo .sCached b).bind fun _ b => ?_
    have hleft := checked_sum (memOf meminfo .memFree) (memOf meminfo .buffers) (memOf meminfo .cached)
      (memOf meminfo .sCached)
    have hcode := congrArg
      (fun c : Except Stop Int => c >>= fun left => pure (b, (memOf meminfo .memTotal : Int), left)) hleft
    simp only [bind_assoc] at hcode
    split_ifs at hcode with hle
    · exact .of_ok hle hcode
    · exact .of_error hle hcode
  refine h.congr ?_ fun _ => rfl
  constructor
  · rintro ⟨htotal, hfree, hbuffers, hcached, hswap, hle⟩
    refine ⟨fun name => ?_, hle⟩
    cases name <;> assumption
  · rintro ⟨hall, hle⟩
    exact ⟨hall _, hall _, hall _, hall _, hall _, hle⟩

/-- **When there are figures, and which**: every one of the openings has to succeed, and every sum to be an `int`. Then
each figure is the number that the file has shown at its own opening, whatever was in the buffer before. -/
theorem hardware_iff (stat : Nat → Option StatText) (meminfo : MemName → Option MemText) (buf : CharArray 100000)
    (figures : Figures) : hardware (texts stat) (memTexts meminfo) buf = .ok figures ↔
      ((∀ k < 18, (stat k).isSome) ∧ sumOf stat 0 (List.range 8) ≤ INT_MAX ∧ sumOf stat 9 (List.range 8) ≤ INT_MAX) ∧
      ((∀ name, (meminfo name).isSome) ∧ leftOf meminfo ≤ INT_MAX) ∧
      figures = {
        diffIdle := (columnOf stat 17 3 : Int) - columnOf stat 8 3
        diffTotal := (sumOf stat 9 (List.range 8) : Int) - sumOf stat 0 (List.range 8)
        memTotal := memOf meminfo .memTotal
        memLeft := leftOf meminfo } := by
  have hcpu := cpuFigures_yields stat ⟨buf, .zero 1000⟩
  unfold hardware
  constructor
  · intro h
    obtain ⟨⟨b, idle, total⟩, hc, h⟩ := bind_ok h
    obtain ⟨⟨b', memTotal, memLeft⟩, hm, h⟩ := bind_ok h
    obtain ⟨hstat, hfigures⟩ := (hcpu (idle, total)).mp ⟨b, hc⟩
    obtain ⟨hmem, hfigures'⟩ :=
      (memFigures_yields meminfo (⟨b.buf, .zero 100000⟩ : Buffers 100000) (memTotal, memLeft)).mp ⟨b', hm⟩
    cases hfigures
    cases hfigures'
    exact ⟨hstat, hmem, (Except.ok.inj h).symm⟩
  · rintro ⟨hstat, hmem, rfl⟩
    obtain ⟨b, hc⟩ := (hcpu _).mpr ⟨hstat, rfl⟩
    obtain ⟨b', hm⟩ := (memFigures_yields meminfo (⟨b.buf, .zero 100000⟩ : Buffers 100000) _).mpr ⟨hmem, rfl⟩
    simp only [hc, hm, ok_bind, pure_ok]

theorem MemName.plain (name : MemName) : ∀ b ∈ chars name.text, b ≠ 0 ∧ b ≠ 10 ∧ b ≠ 32 := by
  have h : ((chars name.text).all fun b => b != 0 && (b != 10 && b != 32)) = true := by cases name <;> rfl
  intro b hb
  simpa using List.all_eq_true.mp h b hb

/-- The counters move between the two readings, and the memory that is free with every opening. -/
theorem hardware_moves (buf : CharArray 100000) : ∃ (stat : Nat → Option StatText) (meminfo : MemName → Option MemText),
    stat 8 ≠ stat 17 ∧ meminfo .memFree ≠ meminfo .buffers ∧
      hardware (texts stat) (memTexts meminfo) buf = .ok ⟨10, 13, 20, 10⟩ := by
  let line (name : MemName) (value : Nat) (hfits : value ≤ INT_MAX) : MemLine :=
    ⟨chars name.text, 3, value, true, name.plain, hfits⟩
  let s : StatText := ⟨[5, 0, 3, 90, 1, 0, 0, 0, 0, 0], chars ['\n'], by decide, by decide, by decide⟩
  let s' : StatText := ⟨[7, 0, 4, 100, 1, 0, 0, 0, 0, 0], chars ['\n'], by decide, by decide, by decide⟩
  let m : MemText := ⟨[line .memTotal 20 (by decide), line .memFree 4 (by decide), line .buffers 9 (by decide),
    line .cached 2 (by decide), line .sCached 1 (by decide)],
    by intro name; cases name <;> decide, by decide, by decide⟩
  let m' : MemText := ⟨[line .memTotal 20 (by decide), line .memFree 1 (by decide), line .buffers 3 (by decide),
    line .cached 2 (by decide), line .sCached 1 (by decide)],
    by intro name; cases name <;> decide, by decide, by decide⟩
  let stat : Nat → Option StatText := fun k => if k < 9 then some s else some s'
  let meminfo : MemName → Option MemText := fun name =>
    match name with
    | .memTotal | .memFree => some m
    | .buffers | .cached | .sCached => some m'
  have hstat : stat 8 ≠ stat 17 := fun h => absurd (congrArg StatText.columns (Option.some.inj h)) (by decide)
  have hmem : meminfo .memFree ≠ meminfo .buffers := fun h =>
    absurd (congrArg (fun m => m.value .memFree) (Option.some.inj h)) (by decide)
  refine ⟨stat, meminfo, hstat, hmem, (hardware_iff _ _ buf _).mpr ⟨⟨fun k _ => ?_, by decide, by decide⟩,
    ⟨fun name => ?_, by decide⟩, by decide⟩⟩
  · dsimp only [stat]
    split <;> rfl
  · cases name <;> rfl

end Cs326.Inspector
