import Cs326.Inspector.StaleBytes
import Cs326.Lib.Numerals

/-!
# The task list

The loop of `main` in `inspector.c` that prints a row for every directory with a number for a name. It opens the status
file of the process once for each column; a process that ends meanwhile has none any more, and the array keeps what an
earlier process has left there. `task_list_rows` says which process every column of every row is from: the state from
the row's own process, or it is "unknown"; the name, the user and the number of threads from the last one so far whose
file could be opened. What is left in the buffer from one file never gets into a row.
-/

namespace Cs326.Inspector

open CharArray Text

/-- The columns that come from the status file, in the order in which it is opened for them. -/
inductive Column
  | tasks
  | name
  | state
  | user
  deriving DecidableEq

/-- The key that is looked up. -/
def Column.key : Column → CString
  | .tasks => literal ['T', 'h', 'r', 'e', 'a', 'd', 's', ':']
  | .name => literal ['N', 'a', 'm', 'e', ':']
  | .state => literal ['S', 't', 'a', 't', 'e', ':']
  | .user => literal ['U', 'i', 'd', ':']

/-- The size of the array. -/
def Column.size : Column → Nat
  | .tasks => 5
  | .name => 200
  | .state => 13
  | .user => 16

/-- `" \n\t"`. -/
def separators : CString := literal [' ', '\n', '\t']

/-- An entry of the directory. `opened` is what the `open` for a column makes of a path: the bytes that there are to
read, `none` if it fails. -/
structure Entry where
  isDir : Bool
  d_name : CString
  opened : Column → List UInt8 → Option (List UInt8)

/-- `d_type == DT_DIR` and a name that begins with a digit. -/
def Entry.isProcess (e : Entry) : Bool := e.isDir && isdigit e.d_name.head

/-- The variables of the loop. -/
structure Table where
  buffer : CharArray 100000
  fullDir : CharArray 100000
  columns : (c : Column) → CharArray c.size

/-- `= {}`. -/
def Table.init : Table := ⟨.zero 100000, .zero 100000, fun c => .zero c.size⟩

/-- What `printf` is given, cut to the precision of the column. -/
structure Row where
  pid : Int
  state : List UInt8
  name : List UInt8
  user : List UInt8
  tasks : List UInt8
  deriving DecidableEq

/-- `pw_name` of the entry that `getpwuid` finds. -/
def getUser (getpwuid : Nat → Option CString) (uid : Nat) : Except Undefined (List UInt8) :=
  match getpwuid uid with
  | none => .error .null
  | some pw_name => return pw_name.bytes

/-- The text that is copied to a column. -/
def Column.text (getpwuid : Nat → Option CString) (tok : List UInt8) : Column → Except Undefined (List UInt8)
  | .user => getUser getpwuid (unsigned (atoi tok))
  | _ => return tok

/-- `open`, `read`, `getNextTok` and `strcpy` for one column. -/
def Table.fill (getpwuid : Nat → Option CString) (t : Table) (e : Entry) (c : Column) : Except Undefined Table := do
  match e.opened c (← t.fullDir.string 0) with
  | none => return t
  | some file =>
    let r ← getNextTok (← t.buffer.write 0 (file.take 100000)) separators c.key 0
    match ← value r with
    | none => .error .null
    | some tok =>
      let a ← (t.columns c).strcpy 0 (← c.text getpwuid tok)
      return { t with buffer := r.1, columns := Function.update t.columns c a }

/-- The word for the letter that the status file has for the state. -/
def stateWord (state : List UInt8) : CString :=
  if state = chars ['S'] then literal ['s', 'l', 'e', 'e', 'p', 'i', 'n', 'g']
  else if state = chars ['R'] then literal ['r', 'u', 'n', 'n', 'i', 'n', 'g']
  else if state = chars ['I'] then literal ['i', 'd', 'l', 'e']
  else if state = chars ['Z'] then literal ['z', 'o', 'm', 'b', 'i', 'e']
  else if state = chars ['D'] then literal ['d', 'i', 's', 'k', ' ', 's', 'l', 'e', 'e', 'p']
  else if state = chars ['T'] then literal ['t', 'r', 'a', 'c', 'i', 'n', 'g', ' ', 's', 't', 'o', 'p']
  else literal ['u', 'n', 'k', 'n', 'o', 'w', 'n']

/-- `"/status"`. -/
def status : CString := literal ['/', 's', 't', 'a', 't', 'u', 's']

/-- The body of the loop. `sscanf` reads a name that begins with a digit as `atoi` does. -/
def Table.row (getpwuid : Nat → Option CString) (t : Table) (e : Entry) : Except Undefined (Table × Row) := do
  let fullDir ← t.fullDir.strcpy 0 e.d_name.bytes
  let fullDir ← fullDir.strcpy (← fullDir.strlen 0) status.bytes
  let t ← ({ t with fullDir := fullDir } : Table).fill getpwuid e .tasks
  let t ← t.fill getpwuid e .name
  let t ← t.fill getpwuid e .state
  let t ← t.fill getpwuid e .user
  let state ← (t.columns .state).strcpy 0 (stateWord (← (t.columns .state).string 0)).bytes
  let t := { t with columns := Function.update t.columns .state state }
  let row : Row :=
    ⟨atoi e.d_name.bytes, ← state.string 0, (← (t.columns .name).string 0).take 25,
      (← (t.columns .user).string 0).take 15, ← (t.columns .tasks).string 0⟩
  return (t, row)

/-- The loop over what `readdir` returns. -/
def Table.rows (getpwuid : Nat → Option CString) : List Entry → Table → Except Undefined (List Row)
  | [], _ => return []
  | e :: es, t => do
    if e.isProcess then
      let (t, row) ← t.row getpwuid e
      return row :: (← Table.rows getpwuid es t)
    else Table.rows getpwuid es t

def task_list (getpwuid : Nat → Option CString) (entries : List Entry) : Except Undefined (List Row) :=
  Table.init.rows getpwuid entries

/-! ## What the files say -/

variable {getpwuid : Nat → Option CString} {e : Entry} {es : List Entry} {t : Table} {c : Column} {cap : Nat}
  {a : CharArray cap} {s old : List UInt8}

/-- The name of the status file. -/
def Entry.path (e : Entry) : List UInt8 := e.d_name.bytes ++ status.bytes

/-- The token behind the key, in the bytes read of a file. -/
def Column.tokenOf (c : Column) (file : List UInt8) : Option (List UInt8) :=
  let ts := ended separators (file.take 100000)
  ts[place c.key 0 ts]?

/-- What the column is to show of a file. -/
def Column.valueOf (getpwuid : Nat → Option CString) (c : Column) (file : List UInt8) : Option (List UInt8) :=
  (c.tokenOf file).bind fun tok => match c with
    | .user => (getpwuid (unsigned (atoi tok))).map CString.bytes
    | _ => some tok

/-- What the entry's own file says, where it can be opened. -/
def Entry.own (getpwuid : Nat → Option CString) (e : Entry) (c : Column) : Option (List UInt8) :=
  (e.opened c e.path).bind (c.valueOf getpwuid)

/-- A name as directories have them, and a file with a value for each column that it is opened for, which the array has
room for. -/
structure Orderly (getpwuid : Nat → Option CString) (e : Entry) : Prop where
  name : e.d_name.length ≤ 255
  file : ∀ c file, e.opened c e.path = some file → 0 ∉ file.take 100000 ∧
    ∃ v, c.valueOf getpwuid file = some v ∧ v.length < c.size

/-- The value of the last entry that has one. -/
def latest (getpwuid : Nat → Option CString) (c : Column) (es : List Entry) : List UInt8 :=
  (es.filterMap fun e => e.own getpwuid c).getLast?.getD []

theorem latest_snoc (c : Column) (es : List Entry) (e : Entry) :
    latest getpwuid c (es ++ [e]) = (e.own getpwuid c).getD (latest getpwuid c es) := by
  unfold latest
  rw [List.filterMap_append]
  cases h : e.own getpwuid c <;> simp [h]

/-! ## One column -/

/-- What is copied to a column holds no zero. -/
theorem text_valueOf {file v : List UInt8} (h0 : 0 ∉ file.take 100000) (h : c.valueOf getpwuid file = some v) :
    ∃ tok, c.tokenOf file = some tok ∧ c.text getpwuid tok = .ok v ∧ 0 ∉ v := by
  obtain ⟨tok, htok, hv⟩ := Option.bind_eq_some_iff.mp h
  have hzero : 0 ∉ tok := zero_notMem_ended h0 (List.mem_of_getElem? htok)
  refine ⟨tok, htok, ?_⟩
  cases c with
  | user =>
    obtain ⟨pw_name, hget, rfl⟩ := Option.map_eq_some_iff.mp hv
    exact ⟨by simp [Column.text, getUser, hget], pw_name.nonzero⟩
  | tasks | name | state =>
    obtain rfl := Option.some.inj hv
    exact ⟨rfl, hzero⟩

/-- The name of the directory, and the texts of the columns. -/
structure Shows (t : Table) (path : List UInt8) (f : Column → List UInt8) : Prop where
  fullDir : StringAt t.fullDir 0 path
  columns : ∀ c, StringAt (t.columns c) 0 (f c)

variable {f : Column → List UInt8}

/-- **One column**: it gets what the file says, whatever is in the buffer, or stays as it is. -/
theorem Shows.fill (hs : Shows t e.path f) (h : Orderly getpwuid e) (c : Column) : ∃ t', t.fill getpwuid e c = .ok t' ∧
    Shows t' e.path (Function.update f c ((e.own getpwuid c).getD (f c))) := by
  unfold Table.fill
  rw [hs.fullDir.string, ok_bind]
  unfold Entry.own
  cases hopen : e.opened c e.path with
  | none =>
    refine ⟨t, rfl, hs.fullDir, fun d => ?_⟩
    rw [Option.bind_none, Option.getD_none, Function.update_eq_self]
    exact hs.columns d
  | some file =>
    obtain ⟨h0, v, hv, hroom⟩ := h.file c file hopen
    obtain ⟨tok, htok, htext, hzero⟩ := text_valueOf h0 hv
    obtain ⟨a, buffer, q, hread, hget, hvalue⟩ := token_read (List.length_take_le _ _) h0 htok t.buffer
    obtain ⟨a', hcopy, hstring, -⟩ := (t.columns c).strcpy_eq (p := 0) (by omega) hzero
    refine ⟨⟨buffer, t.fullDir, Function.update t.columns c a'⟩, ?_, hs.fullDir, fun d => ?_⟩
    · simp only [hread, hget, value, hvalue, htext, hcopy, ok_bind, pure_ok]
    · rw [Option.bind_some, hv, Option.getD_some]
      by_cases hd : d = c
      · subst hd
        simpa using hstring
      · rw [Function.update_of_ne hd]
        simpa [hd] using hs.columns d

/-! ## One row -/

/-- The words fit, and none of them is a letter. -/
theorem stateWord_length (state : List UInt8) :
    2 ≤ (stateWord state).bytes.length ∧ (stateWord state).bytes.length < Column.state.size := by
  unfold stateWord
  split_ifs <;> exact ⟨by decide, by decide⟩

theorem stateWord_of_length (h : s.length ≠ 1) : stateWord s = stateWord [] := by
  have hne : ∀ c, s ≠ chars [c] := by
    rintro c rfl
    exact h rfl
  unfold stateWord
  simp only [hne, if_false]
  rfl

/-- What the row of an entry shows for the state: a word for what its own file says, or "unknown". -/
def Entry.state (getpwuid : Nat → Option CString) (e : Entry) : CString := stateWord ((e.own getpwuid .state).getD [])

/-- What the columns hold behind the rows of `es`. -/
def heldAfter (getpwuid : Nat → Option CString) (es : List Entry) : Column → List UInt8
  | .state => es.getLast?.elim [] fun e => (e.state getpwuid).bytes
  | c => latest getpwuid c es

/-- The row of the last entry. -/
def rowAfter (getpwuid : Nat → Option CString) (es : List Entry) (e : Entry) : Row :=
  ⟨atoi e.d_name.bytes, (e.state getpwuid).bytes, (latest getpwuid .name (es ++ [e])).take 25,
    (latest getpwuid .user (es ++ [e])).take 15, latest getpwuid .tasks (es ++ [e])⟩

theorem heldAfter_state_length (es : List Entry) : (heldAfter getpwuid es .state).length ≠ 1 := by
  unfold heldAfter
  cases es.getLast? with
  | none => exact Nat.zero_ne_one
  | some e =>
    have hlength := (stateWord_length ((e.own getpwuid .state).getD [])).1
    intro h1
    exact absurd (hlength.trans_eq h1) (by decide)

/-- **One row.** -/
theorem row_eq {path : List UInt8} (hs : Shows t path (heldAfter getpwuid es)) (h : Orderly getpwuid e) :
    ∃ t', t.row getpwuid e = .ok (t', rowAfter getpwuid es e) ∧ Shows t' e.path (heldAfter getpwuid (es ++ [e])) := by
  have hname := h.name
  unfold CString.length at hname
  obtain ⟨fullDir, hcopy, hdir, -⟩ := t.fullDir.strcpy_eq (p := 0) (by omega) e.d_name.nonzero
  have hstatus : status.bytes.length = 7 := rfl
  obtain ⟨fullDir', hcat, hdir'⟩ := hdir.strcat (t := status.bytes) (by omega) status.nonzero
  have hs₀ : Shows ⟨t.buffer, fullDir', t.columns⟩ e.path (heldAfter getpwuid es) := ⟨hdir', hs.columns⟩
  obtain ⟨t₁, hfill₁, hs₁⟩ := hs₀.fill h .tasks
  obtain ⟨t₂, hfill₂, hs₂⟩ := hs₁.fill h .name
  obtain ⟨t₃, hfill₃, hs₃⟩ := hs₂.fill h .state
  obtain ⟨t₄, hfill₄, hs₄⟩ := hs₃.fill h .user
  have htasks : StringAt (t₄.columns .tasks) 0 (latest getpwuid .tasks (es ++ [e])) := by
    simpa [latest_snoc, heldAfter] using hs₄.columns .tasks
  have hnames : StringAt (t₄.columns .name) 0 (latest getpwuid .name (es ++ [e])) := by
    simpa [latest_snoc, heldAfter] using hs₄.columns .name
  have huser : StringAt (t₄.columns .user) 0 (latest getpwuid .user (es ++ [e])) := by
    simpa [latest_snoc, heldAfter] using hs₄.columns .user
  have hletter : StringAt (t₄.columns .state) 0 ((e.own getpwuid .state).getD (heldAfter getpwuid es .state)) := by
    simpa using hs₄.columns .state
  have hword : stateWord ((e.own getpwuid .state).getD (heldAfter getpwuid es .state)) = e.state getpwuid := by
    unfold Entry.state
    cases e.own getpwuid .state with
    | none => exact stateWord_of_length (heldAfter_state_length es)
    | some letter => rfl
  obtain ⟨state, hstate, hstring, -⟩ := (t₄.columns .state).strcpy_eq (p := 0) (s := (e.state getpwuid).bytes)
    (by have := (stateWord_length ((e.own getpwuid .state).getD [])).2; unfold Entry.state; omega)
    (e.state getpwuid).nonzero
  refine ⟨⟨t₄.buffer, t₄.fullDir, Function.update t₄.columns .state state⟩, ?_, hs₄.fullDir, fun c => ?_⟩
  · unfold Table.row
    simp only [hcopy, hdir.strlen, hcat, hfill₁, hfill₂, hfill₃, hfill₄, hletter.string, hword, hstate, hstring.string,
      ok_bind, pure_ok]
    simp [rowAfter, hnames.string, huser.string, htasks.string]
  · cases c with
    | state => simpa [heldAfter] using hstring
    | tasks => exact htasks
    | name => exact hnames
    | user => exact huser

/-! ## The rows -/

/-- The entries that get a row. -/
def processes (entries : List Entry) : List Entry := entries.filter Entry.isProcess

/-- **The rest of the rows**, behind those of `es`. -/
theorem rows_eq {path : List UInt8} {entries : List Entry} (h : ∀ e ∈ processes entries, Orderly getpwuid e)
    (hs : Shows t path (heldAfter getpwuid es)) : ∃ rows, t.rows getpwuid entries = .ok rows ∧
      rows.length = (processes entries).length ∧ ∀ k e, (processes entries)[k]? = some e →
        rows[k]? = some (rowAfter getpwuid (es ++ (processes entries).take k) e) := by
  induction entries generalizing t es path with
  | nil => exact ⟨[], rfl, rfl, by simp [processes]⟩
  | cons e entries ih =>
    unfold Table.rows
    by_cases he : e.isProcess = true
    · have hcons : processes (e :: entries) = e :: processes entries := List.filter_cons_of_pos he
      rw [hcons, List.forall_mem_cons] at h
      obtain ⟨t', hrow, hs'⟩ := row_eq hs h.1
      obtain ⟨rows, hrows, hlength, hget⟩ := ih h.2 hs'
      refine ⟨rowAfter getpwuid es e :: rows, ?_, by rw [hcons, List.length_cons, List.length_cons, hlength], ?_⟩
      · simp only [if_pos he, hrow, hrows, ok_bind, pure_ok]
      · intro k e' hk
        rw [hcons] at hk ⊢
        cases k with
        | zero =>
          obtain rfl := Option.some.inj hk
          rw [List.take_zero, List.append_nil]
          rfl
        | succ k =>
          rw [List.getElem?_cons_succ] at hk ⊢
          rw [hget k e' hk, List.take_succ_cons, List.append_assoc, List.singleton_append]
    · have hcons : processes (e :: entries) = processes entries := List.filter_cons_of_neg he
      rw [if_neg he]
      rw [hcons] at h ⊢
      exact ih h hs

theorem shows_init : Shows Table.init [] (heldAfter getpwuid []) := by
  have hzero : ∀ {cap : Nat}, StringAt (CharArray.zero (cap + 1)) 0 [] := fun {cap} =>
    ⟨by simp, List.replicate cap 0, rfl⟩
  refine ⟨hzero, fun c => ?_⟩
  cases c <;> exact hzero

/-- **Which process each column is from**: one row for each process, in the order of the directory. Its state is from
its own file, or "unknown" if this could not be opened; its name, user and number of threads are from the last process
up to it whose file could be opened for them, and empty if there is none. Nothing that the buffer held before shows. -/
theorem task_list_rows (getpwuid : Nat → Option CString) (entries : List Entry)
    (h : ∀ e ∈ processes entries, Orderly getpwuid e) : ∃ rows, task_list getpwuid entries = .ok rows ∧
      rows.length = (processes entries).length ∧ ∀ k e, (processes entries)[k]? = some e →
        rows[k]? = some ({
          pid := atoi e.d_name.bytes
          state := ((e.own getpwuid .state).elim (literal ['u', 'n', 'k', 'n', 'o', 'w', 'n']) stateWord).bytes
          name := (latest getpwuid .name ((processes entries).take (k + 1))).take 25
          user := (latest getpwuid .user ((processes entries).take (k + 1))).take 15
          tasks := latest getpwuid .tasks ((processes entries).take (k + 1)) } : Row) := by
  obtain ⟨rows, hrows, hlength, hget⟩ := rows_eq h shows_init
  refine ⟨rows, hrows, hlength, ?_⟩
  intro k e hk
  have htake : (processes entries).take (k + 1) = (processes entries).take k ++ [e] := by
    rw [List.take_add_one, hk, Option.toList_some]
  rw [hget k e hk, List.nil_append, htake]
  unfold rowAfter Entry.state
  cases e.own getpwuid .state <;> rfl

/-- The second process has ended when its file is opened. -/
theorem task_list_rows_ended :
    let file := chars ['N', 'a', 'm', 'e', ':', '\t', 's', 'h', '\n', 'S', 't', 'a', 't', 'e', ':', '\t', 'S', '\n',
      'U', 'i', 'd', ':', '\t', '0', '\n', 'T', 'h', 'r', 'e', 'a', 'd', 's', ':', '\t', '3', '\n']
    ∃ rows, task_list (fun uid => if uid = 0 then some (literal ['r', 'o', 'o', 't']) else none)
        [⟨true, literal ['1'], fun _ _ => some file⟩, ⟨true, literal ['2'], fun _ _ => none⟩] = .ok rows ∧
      rows[0]? = some ⟨1, chars ['s', 'l', 'e', 'e', 'p', 'i', 'n', 'g'], chars ['s', 'h'], chars ['r', 'o', 'o', 't'],
        chars ['3']⟩ ∧
      rows[1]? = some ⟨2, chars ['u', 'n', 'k', 'n', 'o', 'w', 'n'], chars ['s', 'h'], chars ['r', 'o', 'o', 't'],
        chars ['3']⟩ := by
  intro file
  let getpwuid : Nat → Option CString := fun uid => if uid = 0 then some (literal ['r', 'o', 'o', 't']) else none
  let entries : List Entry := [⟨true, literal ['1'], fun _ _ => some file⟩, ⟨true, literal ['2'], fun _ _ => none⟩]
  have horderly : ∀ e ∈ processes entries, Orderly getpwuid e := by
    intro e he
    have he : e ∈ entries := List.mem_of_mem_filter he
    rcases List.mem_pair.mp he with rfl | rfl
    · refine ⟨by decide, fun c file' hfile => ?_⟩
      obtain rfl := Option.some.inj hfile
      refine ⟨fun h0 => absurd (List.mem_of_mem_take h0) (by decide), ?_⟩
      cases c
      · exact ⟨chars ['3'], rfl, by decide⟩
      · exact ⟨chars ['s', 'h'], rfl, by decide⟩
      · exact ⟨chars ['S'], rfl, by decide⟩
      · exact ⟨chars ['r', 'o', 'o', 't'], rfl, by decide⟩
    · exact ⟨by decide, fun c file' hfile => by cases hfile⟩
  obtain ⟨rows, hrows, -, hget⟩ := task_list_rows getpwuid entries horderly
  refine ⟨rows, hrows, (hget 0 _ rfl).trans ?_, (hget 1 _ rfl).trans ?_⟩
  · decide +kernel
  · decide +kernel

end Cs326.Inspector
