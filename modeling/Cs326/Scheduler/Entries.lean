import Cs326.Lib.Chunks
import Cs326.Scheduler.FileFormat

/-!
# The entries of any file

`read_spec` on bytes that need not be of the format. A chunk of the file with three commas in front of its first `#` or
zero is an entry, and the entry is its tokens (`entryOf`); what the file does to the table is what its entries do, one
after the other (`read_spec_entries`). An entry with fewer than four tokens, or a name of more than 127 bytes, and the
entry behind the hundredth, lead out of what C defines (`read_spec_safe_iff`).
-/

namespace Cs326.Scheduler

open CharArray Text

variable {text file front back body name : List UInt8} {ts us : List (List UInt8)} {es es' : List (List (List UInt8))}
  {line : CharArray line_sz} {s s' : SchedulerState}

/-! ## Entries -/

/-- What the first pass leaves of a chunk. -/
def uncommented (text : List UInt8) : List UInt8 := text.takeWhile fun b => b != 0 && b != 35

/-- The tokens of a chunk with four fields. -/
def entryOf (text : List UInt8) : Option (List (List UInt8)) :=
  if (uncommented text).count 44 = 3 then some (tokens field_delimiters (uncommented text)) else none

def entries (file : List UInt8) : List (List (List UInt8)) := (chunks 1022 file).filterMap entryOf

/-- A token for each field, and a name that has room in the table. -/
def Complete : List (List UInt8) → Prop
  | name :: _ :: _ :: _ :: _ => name.length ≤ 127
  | _ => False

instance : DecidablePred Complete := fun ts => match ts with
  | name :: _ :: _ :: _ :: _ => inferInstanceAs (Decidable (name.length ≤ 127))
  | [] | [_] | [_, _] | [_, _, _] => isFalse not_false

/-- The process of an entry. -/
def entryProcess (pid : Nat) : List (List UInt8) → Option ProcessCtlBlock
  | name :: q :: w :: p :: _ =>
    if name.length ≤ 127 then some { empty_pcb with
      pid := pid, name := nameOf name, creation_quantum := unsigned (atoi q), workload := unsigned (atoi w)
      priority := unsigned (atoi p) }
    else none
  | _ => none

/-- The table with the process of an entry; `none`: undefined. -/
def load_entry (s : SchedulerState) (ts : List (List UInt8)) : Option SchedulerState :=
  if s.num_processes < NUM_PROCESSES then do
    let pcb ← entryProcess s.num_processes ts
    return { s with
      pcbs := Function.update s.pcbs s.num_processes pcb
      num_processes := s.num_processes + 1 }
  else none

/-! ## One chunk -/

/-- The text in front of the first `#` or zero. -/
theorem uncommented_split (text back : List UInt8) : ∃ c back', (c = 0 ∨ c = 35) ∧
    text ++ 0 :: back = uncommented text ++ c :: back' := by
  have hsplit : uncommented text ++ text.dropWhile (fun b => b != 0 && b != 35) = text :=
    List.takeWhile_append_dropWhile
  cases hdrop : text.dropWhile fun b => b != 0 && b != 35 with
  | nil =>
    rw [hdrop, List.append_nil] at hsplit
    exact ⟨0, back, .inl rfl, by rw [hsplit]⟩
  | cons c rest =>
    have hc := List.head_dropWhile_not (fun b => b != 0 && b != 35) (l := text) (by simp [hdrop])
    have hc : c = 0 ∨ c = 35 := by simpa [hdrop, or_iff_not_imp_left] using hc
    rw [hdrop] at hsplit
    refine ⟨c, rest ++ 0 :: back, hc, ?_⟩
    conv_lhs => rw [← hsplit]
    simp

theorem uncommented_clean : ∀ b ∈ uncommented text, b ≠ 0 ∧ b ≠ 35 := by
  intro b hb
  simpa using List.mem_takeWhile_imp hb

/-- The first pass. -/
theorem count_fields_uncommented (hbytes : line.bytes = text ++ 0 :: back) : ∃ line' : CharArray line_sz,
    count_fields line_sz 0 1 line = .ok (line', 1 + (uncommented text).count 44) ∧
      StringAt line' 0 (uncommented text) := by
  obtain ⟨c, back', hc, hsplit⟩ := uncommented_split text back
  rw [hsplit] at hbytes
  have hlen := line.length_eq
  rw [hbytes, List.length_append, List.length_cons] at hlen
  have hfront : line.bytes = [] ++ (uncommented text ++ c :: back') := by simpa using hbytes
  obtain ⟨line', hcount, hbytes'⟩ := count_fields_eq uncommented_clean hc hfront
    (show (uncommented text).length < line_sz by omega)
  refine ⟨line', hcount, fun h => (uncommented_clean 0 h).1 rfl, back', ?_⟩
  rw [List.drop_zero, hbytes', List.nil_append]

/-- A copy of a name that has no room. -/
theorem strcpy_overrun (hlen : 128 ≤ name.length) : (CharArray.zero 128).strcpy 0 name = .error .overrun := by
  apply dif_neg
  rw [List.length_append, List.length_singleton]
  omega

/-- The next field, in front of the others. -/
theorem next_field_cons {a : CharArray line_sz} {ptr : Option Nat} {t : List UInt8}
    (h : Cursor field_delimiters a ptr (t :: ts)) : ∃ a' ptr' tok, next_token a ptr field_delimiters =
      .ok (a', ptr', tok) ∧ tokenString a' tok = .ok t ∧ Cursor field_delimiters a' ptr' ts ∧ 0 ∉ t := by
  obtain ⟨a', ptr', q, hnext, htok, hcur⟩ := next_token_cons (by decide) h
  exact ⟨a', ptr', some q, hnext, htok.string, hcur, htok.1⟩

/-- The field that is not there. -/
theorem next_field_nil {a : CharArray line_sz} {ptr : Option Nat} (h : Cursor field_delimiters a ptr []) :
    ∃ a' ptr' tok, next_token a ptr field_delimiters = .ok (a', ptr', tok) ∧ tokenString a' tok = .error .null :=
  ⟨a, none, none, next_token_nil (by decide) h, rfl⟩

/-- **The fields of an entry.** -/
theorem read_fields_tokens (h : Cursor field_delimiters line (some 0) ts) (pid : Nat) :
    (read_fields pid line).toOption.map Prod.snd = entryProcess pid ts := by
  unfold read_fields
  cases ts with
  | nil =>
    obtain ⟨l₁, p₁, t₁, hnext, htok⟩ := next_field_nil h
    simp only [hnext, htok, ok_bind, error_bind]
    rfl
  | cons name ts =>
    obtain ⟨l₁, p₁, t₁, hnext₁, htok₁, h, hname0⟩ := next_field_cons h
    simp only [hnext₁, htok₁, ok_bind]
    rcases Nat.lt_or_ge 127 name.length with hlong | hname
    · simp only [strcpy_overrun hlong, error_bind]
      match ts with
      | [] | [_] | [_, _] => rfl
      | q :: w :: p :: ts => exact (if_neg (Nat.not_le.mpr hlong)).symm
    obtain ⟨a, hcopy, hat, -⟩ := strcpy_eq (p := 0) (CharArray.zero 128) (by omega) hname0
    simp only [hcopy, ok_bind]
    cases ts with
    | nil =>
      obtain ⟨l₂, p₂, t₂, hnext, htok⟩ := next_field_nil h
      simp only [hnext, htok, ok_bind, error_bind]
      rfl
    | cons q ts =>
      obtain ⟨l₂, p₂, t₂, hnext₂, htok₂, h, -⟩ := next_field_cons h
      simp only [hnext₂, htok₂, ok_bind]
      cases ts with
      | nil =>
        obtain ⟨l₃, p₃, t₃, hnext, htok⟩ := next_field_nil h
        simp only [hnext, htok, ok_bind, error_bind]
        rfl
      | cons w ts =>
        obtain ⟨l₃, p₃, t₃, hnext₃, htok₃, h, -⟩ := next_field_cons h
        simp only [hnext₃, htok₃, ok_bind]
        cases ts with
        | nil =>
          obtain ⟨l₄, p₄, t₄, hnext, htok⟩ := next_field_nil h
          simp only [hnext, htok, ok_bind, error_bind]
          rfl
        | cons p ts =>
          obtain ⟨l₄, p₄, t₄, hnext₄, htok₄, -, -⟩ := next_field_cons h
          simp only [hnext₄, htok₄, hat.string, ok_bind]
          exact (if_pos hname).symm

/-- What a chunk does to the table. -/
theorem load_line_chunk (hbytes : line.bytes = text ++ 0 :: back) :
    (load_line line s).toOption.map Prod.snd = (entryOf text).toList.foldlM load_entry s := by
  obtain ⟨line', hcount, hstr⟩ := count_fields_uncommented hbytes
  unfold load_line entryOf
  simp only [hcount, hstr.strlen, ok_bind]
  by_cases hnil : (uncommented text).length = 0
  · rw [if_pos hnil, if_neg (by simp [List.length_eq_zero_iff.mp hnil])]
    rfl
  rw [if_neg hnil]
  by_cases hthree : (uncommented text).count 44 = 3
  · rw [if_neg (by omega), if_pos hthree]
    have hone : (some (tokens field_delimiters (uncommented text))).toList.foldlM load_entry s =
        load_entry s (tokens field_delimiters (uncommented text)) := by
      rw [Option.toList_some, List.foldlM_cons]
      exact bind_pure _
    rw [hone]
    unfold load_entry
    split_ifs with hroom
    · have hfields := read_fields_tokens ⟨_, hstr, rfl⟩ s.num_processes
      rw [← hfields]
      cases read_fields s.num_processes line' with
      | error e => rfl
      | ok r => rfl
    · rfl
  · rw [if_pos (by omega), if_neg hthree]
    rfl

/-! ## All chunks -/

theorem toOption_bind {ε α β : Type} (x : Except ε α) (k : α → Except ε β) :
    (x >>= k).toOption = x.toOption.bind fun a => (k a).toOption := by
  cases x <;> rfl

/-- The entry at the front. -/
theorem entries_of_ne_nil (hne : file ≠ []) : entries file =
    (entryOf (lineOf 1023 file)).toList ++ entries (file.drop (lineOf 1023 file).length) := by
  unfold entries
  rw [chunks_of_ne_nil hne, List.filterMap_cons]
  cases entryOf (lineOf 1023 file) <;> rfl

theorem load_lines_entries (line : CharArray line_sz) (s : SchedulerState) {n : Nat} (hn : file.length < n) :
    (load_lines n line file s).toOption = (entries file).foldlM load_entry s := by
  induction n generalizing file line s with
  | zero => exact absurd hn (Nat.not_lt_zero _)
  | succ n ih =>
    by_cases hnil : file = []
    · subst hnil
      rw [load_lines, entries, chunks_nil]
      rfl
    · obtain ⟨a, back, hfgets, hbytes⟩ := fgets_lineOf line (by decide) hnil
      have hsz : line_sz - 1 = 1023 := rfl
      rw [hsz] at hfgets hbytes
      have hpos : 0 < (lineOf 1023 file).length := lineOf_pos (by decide) hnil
      have hfile := List.length_pos_iff.mpr hnil
      have hload := load_line_chunk (s := s) hbytes
      have hrest : ∀ r : CharArray line_sz × SchedulerState,
          (load_lines n r.1 (file.drop (lineOf 1023 file).length) r.2).toOption =
            (entries (file.drop (lineOf 1023 file).length)).foldlM load_entry r.2 := by
        intro r
        apply ih
        rw [List.length_drop]
        omega
      rw [load_lines, hfgets, ok_bind, entries_of_ne_nil hnil, List.foldlM_append, ← hload]
      dsimp only
      rw [toOption_bind]
      cases load_line a s with
      | error e => rfl
      | ok r => exact hrest r

/-- **What a file does to the table** is what its entries do. -/
theorem read_spec_entries (file : List UInt8) (s : SchedulerState) :
    (read_spec (some file) s).toOption = (entries file).foldlM load_entry s :=
  load_lines_entries _ s (Nat.lt_succ_self _)

/-! ## Entries that can be read -/

theorem entryProcess_isSome (pid : Nat) (ts : List (List UInt8)) : (entryProcess pid ts).isSome ↔ Complete ts := by
  match ts with
  | [] | [_] | [_, _] | [_, _, _] => simp [entryProcess, Complete]
  | name :: q :: w :: p :: ts =>
    by_cases hname : name.length ≤ 127 <;> simp [entryProcess, Complete, hname]

/-- One entry. -/
theorem load_entry_some (h : load_entry s ts = some s') :
    s.num_processes < NUM_PROCESSES ∧ Complete ts ∧ s'.num_processes = s.num_processes + 1 := by
  unfold load_entry at h
  split_ifs at h with hroom
  · obtain ⟨pcb, hpcb, h⟩ := Option.bind_eq_some_iff.mp h
    cases h
    exact ⟨hroom, (entryProcess_isSome _ ts).mp (by rw [hpcb]; rfl), rfl⟩

theorem exists_load_entry (hroom : s.num_processes < NUM_PROCESSES) (hts : Complete ts) :
    ∃ s', load_entry s ts = some s' := by
  obtain ⟨pcb, hpcb⟩ := Option.isSome_iff_exists.mp ((entryProcess_isSome s.num_processes ts).mpr hts)
  unfold load_entry
  rw [if_pos hroom, hpcb]
  exact ⟨_, rfl⟩

/-- The entries are complete, and the table has room for them. -/
def Loadable (s : SchedulerState) (es : List (List (List UInt8))) : Prop :=
  (∀ ts ∈ es, Complete ts) ∧ es.length ≤ NUM_PROCESSES - s.num_processes

/-- Entries that have been read. -/
theorem loadable_of_foldlM (h : es.foldlM load_entry s = some s') :
    Loadable s es ∧ s'.num_processes = s.num_processes + es.length := by
  induction es generalizing s with
  | nil =>
    cases h
    exact ⟨⟨by simp, Nat.zero_le _⟩, rfl⟩
  | cons ts es ih =>
    rw [List.foldlM_cons] at h
    obtain ⟨s₁, hts, hes⟩ := Option.bind_eq_some_iff.mp h
    obtain ⟨hroom, hcomplete, hnum⟩ := load_entry_some hts
    obtain ⟨⟨hall, hlen⟩, hnum'⟩ := ih hes
    rw [List.length_cons]
    refine ⟨⟨List.forall_mem_cons.mpr ⟨hcomplete, hall⟩, ?_⟩, by omega⟩
    rw [List.length_cons]
    omega

theorem exists_foldlM (h : Loadable s es) : ∃ s', es.foldlM load_entry s = some s' := by
  induction es generalizing s with
  | nil => exact ⟨s, rfl⟩
  | cons ts es ih =>
    obtain ⟨hall, hlen⟩ := h
    obtain ⟨hcomplete, hall⟩ := List.forall_mem_cons.mp hall
    rw [List.length_cons] at hlen
    obtain ⟨s₁, hts⟩ := exists_load_entry (s := s) (by omega) hcomplete
    have hnum := (load_entry_some hts).2.2
    obtain ⟨s', hes⟩ := ih (s := s₁) ⟨hall, by omega⟩
    refine ⟨s', ?_⟩
    rw [List.foldlM_cons, hts]
    exact hes

/-! ## Files that can be read -/

/-- `read_spec` stays within what C defines, and passes over the entries that would lead out of it. -/
def ReadsSafely (file : List UInt8) : Prop :=
  ∃ s, read_spec (some file) (load []) = .ok s ∧
    (((entries file).filter fun ts => Complete ts).take NUM_PROCESSES).foldlM load_entry (load []) = some s

theorem reads_safely_of_loadable (h : Loadable (load []) (entries file)) : ReadsSafely file := by
  obtain ⟨s, hs⟩ := exists_foldlM h
  have hread := read_spec_entries file (load [])
  rw [hs] at hread
  have hok : read_spec (some file) (load []) = .ok s := by
    cases hres : read_spec (some file) (load []) with
    | error e =>
      rw [hres] at hread
      cases hread
    | ok s₁ =>
      rw [hres] at hread
      rw [Option.some.inj hread]
  have hlen : (entries file).length ≤ NUM_PROCESSES := h.2
  refine ⟨s, hok, ?_⟩
  rw [List.filter_eq_self.mpr (by simpa using h.1), List.take_of_length_le hlen, hs]

theorem ReadsSafely.loadable (h : ReadsSafely file) : Loadable (load []) (entries file) := by
  obtain ⟨s, hs, -⟩ := h
  have hread := read_spec_entries file (load [])
  rw [hs] at hread
  exact (loadable_of_foldlM hread.symm).1

/-- **`read_spec` is safe** if and only if there are at most 100 entries, each with its four tokens and a name that has
room. -/
theorem read_spec_safe_iff (file : List UInt8) :
    ReadsSafely file ↔ (∀ ts ∈ entries file, Complete ts) ∧ (entries file).length ≤ NUM_PROCESSES := by
  constructor
  · intro h
    exact h.loadable
  · intro h
    exact reads_safely_of_loadable h

/-- Three commas without a token between them: the first token is `NULL`. -/
theorem commas_not_safe : ¬ReadsSafely [44, 44, 44] := by
  intro h
  have htokens : tokens field_delimiters [44, 44, 44] = [] :=
    pieces_delims (List.forall_mem_cons.mpr ⟨rfl, List.forall_mem_cons.mpr ⟨rfl, List.forall_mem_singleton.mpr rfl⟩⟩)
  have hentry : entryOf [44, 44, 44] = some [] := congrArg some htokens
  have hentries : entries [44, 44, 44] = [[]] := by
    unfold entries
    rw [chunks_last (by decide) (by decide) (List.cons_ne_nil _ _), List.filterMap_cons, hentry]
    rfl
  have hcomplete := h.loadable.1
  rw [hentries] at hcomplete
  exact hcomplete [] (List.mem_singleton_self _)

end Cs326.Scheduler
