import Cs326.Lib.Numerals
import Cs326.Scheduler.Table
import Cs326.Text.NextToken

/-!
# Process specification files

`read_spec` of `file_format.c` on the bytes of the file. Each line goes through three passes over the same array: one
that cuts the comment off and counts the fields, `strlen`, and the tokens. `Describes records file` is the format: a
line for each record, blanks around the fields, comments, and lines without a record in between. A file of this format
is read as its records (`read_spec_roundtrip`).
-/

namespace Cs326.Scheduler

open CharArray Text

/-! ## `read_spec` -/

/-- `", \t\n"`. -/
def field_delimiters : List UInt8 := [44, 32, 9, 10]

def NUM_PROCESSES : Nat := 100

def line_sz : Nat := 1024

/-- The first pass from `line[i]` on, with `n` rounds left: the line without its comment and the number of fields. -/
def count_fields : Nat → Nat → Nat → CharArray line_sz → Except Undefined (CharArray line_sz × Nat)
  | 0, _, fields, line => return (line, fields)
  | n + 1, i, fields, line => do
    let line ← if (← line.get i) = 35 then line.write i [0] else pure line
    if (← line.get i) = 0 then return (line, fields)
    else count_fields n (i + 1) (if (← line.get i) = 44 then fields + 1 else fields) line

/-- The string of a token. -/
def tokenString {cap : Nat} (a : CharArray cap) : Option Nat → Except Undefined (List UInt8)
  | none => .error .null
  | some p => a.string p

/-- A `char[128]` as a string, byte by byte. -/
def nameOf (bytes : List UInt8) : String := String.ofList (bytes.map fun b => Char.ofNat b.toNat)

/-- The fields of a line, in `*pcb = empty_pcb`. -/
def read_fields (pid : Nat) (line : CharArray line_sz) : Except Undefined (CharArray line_sz × ProcessCtlBlock) := do
  let (line, next_tok, tok) ← next_token line (some 0) field_delimiters
  let name ← (CharArray.zero 128).strcpy 0 (← tokenString line tok)
  let (line, next_tok, tok) ← next_token line next_tok field_delimiters
  let creation_quantum := unsigned (atoi (← tokenString line tok))
  let (line, next_tok, tok) ← next_token line next_tok field_delimiters
  let workload := unsigned (atoi (← tokenString line tok))
  let (line, _, tok) ← next_token line next_tok field_delimiters
  let priority := unsigned (atoi (← tokenString line tok))
  let name := nameOf (← name.string 0)
  return (line, { empty_pcb with
    pid := pid, name := name, creation_quantum := creation_quantum, workload := workload, priority := priority })

/-- The body of the loop. -/
def load_line (line : CharArray line_sz) (s : SchedulerState) :
    Except Undefined (CharArray line_sz × SchedulerState) := do
  let (line, fields) ← count_fields line_sz 0 1 line
  if (← line.strlen 0) = 0 then return (line, s)
  else if fields ≠ 4 then return (line, s)
  else if s.num_processes < NUM_PROCESSES then
    let (line, pcb) ← read_fields s.num_processes line
    return (line, { s with
      pcbs := Function.update s.pcbs s.num_processes pcb
      num_processes := s.num_processes + 1 })
  else .error .overrun

/-- The loop, for at most `n` lines. -/
def load_lines : Nat → CharArray line_sz → List UInt8 → SchedulerState → Except Undefined SchedulerState
  | 0, _, _, s => return s
  | n + 1, line, file, s => do
    match ← line.fgets file with
    | none => return s
    | some (line, file) =>
      let (line, s) ← load_line line s
      load_lines n line file s

/-- `file` is what `fopen` opens, as the bytes of the file. A file has no more lines than bytes. -/
def read_spec (file : Option (List UInt8)) (s : SchedulerState) : Except Undefined SchedulerState :=
  match file with
  | none => .error .null
  | some bytes => load_lines (bytes.length + 1) (CharArray.zero line_sz) bytes s

/-! ## The format -/

/-- What a name is made of. -/
def IsNameByte (b : UInt8) : Prop := b ≠ 0 ∧ b ≠ 44 ∧ b ≠ 32 ∧ b ≠ 9 ∧ b ≠ 10 ∧ b ≠ 35

instance (b : UInt8) : Decidable (IsNameByte b) := inferInstanceAs (Decidable (_ ∧ _ ∧ _ ∧ _ ∧ _ ∧ _))

structure Record where
  name : List UInt8
  creation_quantum : Nat
  workload : Nat
  priority : Nat
  name_ne : name ≠ []
  name_le : name.length ≤ 127
  name_bytes : ∀ b ∈ name, IsNameByte b
  creation_quantum_le : creation_quantum ≤ INT_MAX
  workload_le : workload ≤ INT_MAX
  priority_le : priority ≤ INT_MAX

/-- Spaces and tabs. -/
def Blank (w : List UInt8) : Prop := ∀ b ∈ w, b = 32 ∨ b = 9

/-- Nothing, or `#` and what follows it on the line. -/
def Comment (c : List UInt8) : Prop := c = [] ∨ ∃ text, c = 35 :: text ∧ 10 ∉ text

/-- The line `name, q, w, p` of a record, up to the comment. -/
inductive Fields (r : Record) : List UInt8 → Prop
  | mk {w₀ w₁ w₂ w₃ w₄ w₅ w₆ w₇ q w p : List UInt8} : Blank w₀ → Blank w₁ → Blank w₂ → Blank w₃ → Blank w₄ →
      Blank w₅ → Blank w₆ → Blank w₇ → Numeral q r.creation_quantum → Numeral w r.workload → Numeral p r.priority →
      Fields r
        (w₀ ++ (r.name ++ (w₁ ++ 44 :: (w₂ ++ (q ++ (w₃ ++ 44 :: (w₄ ++ (w ++ (w₅ ++ 44 :: (w₆ ++ (p ++ w₇)))))))))))

/-- A line of the file without its newline, and the records that it describes. -/
inductive LineOf : List Record → List UInt8 → Prop
  | record {r : Record} {body c : List UInt8} : Fields r body → Comment c → LineOf [r] (body ++ c)
  | other {w c : List UInt8} : Blank w → Comment c → LineOf [] (w ++ c)

/-- The file describes the records, one line after the other; the last line may end without a newline. -/
inductive Describes : List Record → List UInt8 → Prop
  | nil : Describes [] []
  | line {rs rest : List Record} {line file : List UInt8} : LineOf rs line → line.length ≤ 1022 → Describes rest file →
      Describes (rs ++ rest) (line ++ 10 :: file)
  | last {rs : List Record} {line : List UInt8} : LineOf rs line → line.length ≤ 1022 → Describes rs line

/-- The process of a record in slot `pid`. -/
def Record.pcb (r : Record) (pid : Nat) : ProcessCtlBlock :=
  { empty_pcb with
    pid := pid, name := nameOf r.name, creation_quantum := r.creation_quantum, workload := r.workload
    priority := r.priority }

/-! ## The passes over a line -/

section Passes

variable {r : Record} {line : CharArray line_sz} {body front back w nl ds : List UInt8} {c : UInt8} {n m fields : Nat}

/-- **The first pass** stops at the comment or at the end of the line. -/
theorem count_fields_eq (hbody : ∀ b ∈ body, b ≠ 0 ∧ b ≠ 35) (hc : c = 0 ∨ c = 35)
    (h : line.bytes = front ++ (body ++ c :: back)) (hn : body.length < n) : ∃ line',
      count_fields n front.length fields line = .ok (line', fields + body.count 44) ∧
        line'.bytes = front ++ (body ++ 0 :: back) := by
  induction body generalizing front n fields with
  | nil =>
    obtain ⟨n, rfl⟩ : ∃ k, n = k + 1 := ⟨n - 1, by simp at hn; omega⟩
    have hget := get_eq front back h
    rcases hc with rfl | rfl
    · refine ⟨line, ?_, h⟩
      rw [count_fields, hget]
      simp only [ok_bind, if_neg (show ¬(0 : UInt8) = 35 by decide), pure_ok, hget, if_true]
      rfl
    · obtain ⟨line', hwrite, hbytes⟩ := write_eq front [35] [0] back h rfl
      refine ⟨line', ?_, hbytes⟩
      rw [count_fields, hget]
      simp only [ok_bind, if_true, hwrite, get_eq front back hbytes]
      rfl
  | cons b body ih =>
    obtain ⟨n, rfl⟩ : ∃ k, n = k + 1 := ⟨n - 1, by simp at hn; omega⟩
    obtain ⟨⟨h0, h35⟩, hbody⟩ := List.forall_mem_cons.mp hbody
    have hget := get_eq front (body ++ c :: back) h
    obtain ⟨line', hcount, hbytes⟩ : ∃ line', count_fields n (front ++ [b]).length
        (if b = 44 then fields + 1 else fields) line = .ok (line', _) ∧
      line'.bytes = (front ++ [b]) ++ (body ++ 0 :: back) :=
      ih hbody (by simpa using h) (by simpa using hn)
    refine ⟨line', ?_, by simpa using hbytes⟩
    rw [count_fields, hget]
    simp only [ok_bind, if_neg h35, pure_ok, hget, if_neg h0]
    rw [List.length_append, List.length_singleton] at hcount
    rw [hcount, List.count_cons]
    by_cases h44 : b = 44
    · simp [h44]
      omega
    · simp [h44]

/-! ## The bytes of the format -/

/-- What does not end the first pass, nor the line. -/
def Clean (b : UInt8) : Prop := (b ≠ 0 ∧ b ≠ 35) ∧ b ≠ 10

instance (b : UInt8) : Decidable (Clean b) := inferInstanceAs (Decidable (_ ∧ _))

theorem Blank.clean (hw : Blank w) : ∀ b ∈ w, Clean b := by
  intro b hb
  rcases hw b hb with rfl | rfl <;> decide

theorem Numeral.clean (h : Numeral ds m) : ∀ b ∈ ds, Clean b := fun b hb =>
  ⟨⟨ne_of_isdigit (h.digits b hb) (by decide), ne_of_isdigit (h.digits b hb) (by decide)⟩,
    ne_of_isdigit (h.digits b hb) (by decide)⟩

theorem Record.clean (r : Record) : ∀ b ∈ r.name, Clean b := by
  intro b hb
  obtain ⟨h0, _, _, _, h10, h35⟩ := r.name_bytes b hb
  exact ⟨⟨h0, h35⟩, h10⟩

theorem Fields.clean (h : Fields r body) : ∀ b ∈ body, Clean b := by
  have hcomma : Clean 44 := by decide
  cases h with
  | mk h₀ h₁ h₂ h₃ h₄ h₅ h₆ h₇ hq hw hp =>
    simp only [List.forall_mem_append, List.forall_mem_cons]
    exact ⟨h₀.clean, r.clean, h₁.clean, hcomma, h₂.clean, Numeral.clean hq, h₃.clean, hcomma, h₄.clean,
      Numeral.clean hw,
      h₅.clean, hcomma, h₆.clean, Numeral.clean hp, h₇.clean⟩

theorem Blank.count (hw : Blank w) : w.count 44 = 0 :=
  List.count_eq_zero_of_not_mem fun hm => by rcases hw 44 hm with h | h <;> cases h

theorem Numeral.count (h : Numeral ds m) : ds.count 44 = 0 :=
  List.count_eq_zero_of_not_mem fun hm => absurd (h.digits 44 hm) (by decide)

theorem Record.count (r : Record) : r.name.count 44 = 0 :=
  List.count_eq_zero_of_not_mem fun hm => (r.name_bytes 44 hm).2.1 rfl

/-- Three commas. -/
theorem Fields.count (h : Fields r body) : body.count 44 = 3 := by
  cases h with
  | mk h₀ h₁ h₂ h₃ h₄ h₅ h₆ h₇ hq hw hp =>
    simp only [List.count_append, List.count_cons, h₀.count, h₁.count, h₂.count, h₃.count, h₄.count, h₅.count, h₆.count,
      h₇.count, Numeral.count hq, Numeral.count hw, Numeral.count hp, r.count]
    rfl

/-- A delimiter. -/
def Delim (b : UInt8) : Prop := field_delimiters.contains b = true

theorem Blank.delim (hw : Blank w) : ∀ b ∈ w, Delim b := by
  intro b hb
  rcases hw b hb with rfl | rfl <;> rfl

theorem Record.piece (r : Record) : Piece (fun b => field_delimiters.contains b) r.name := by
  refine ⟨r.name_ne, fun b hb => ?_⟩
  obtain ⟨_, h44, h32, h9, h10, _⟩ := r.name_bytes b hb
  simp [field_delimiters, h44, h32, h9, h10]

theorem Numeral.piece (h : Numeral ds m) : Piece (fun b => field_delimiters.contains b) ds := by
  refine ⟨h.ne_nil, fun b hb => ?_⟩
  have hne : ∀ {c}, isdigit c = false → b ≠ c := ne_of_isdigit (h.digits b hb)
  simp [field_delimiters, hne (show isdigit 44 = false by decide), hne (show isdigit 32 = false by decide),
    hne (show isdigit 9 = false by decide), hne (show isdigit 10 = false by decide)]

/-- **The tokens of a line** are the fields. -/
theorem Fields.tokens (h : Fields r body) (hnl : nl = [] ∨ nl = [10]) : ∃ q w p, Numeral q r.creation_quantum ∧
    Numeral w r.workload ∧ Numeral p r.priority ∧ tokens field_delimiters (body ++ nl) = [r.name, q, w, p] := by
  have hcomma : ∀ {v w : List UInt8}, Blank v → Blank w → ∀ b ∈ v ++ 44 :: w, Delim b := by
    intro v w hv hw
    rw [List.forall_mem_append, List.forall_mem_cons]
    exact ⟨hv.delim, rfl, hw.delim⟩
  have hend : ∀ {v : List UInt8}, Blank v → ∀ b ∈ v ++ nl, Delim b := by
    intro v hv
    rw [List.forall_mem_append]
    refine ⟨hv.delim, ?_⟩
    rcases hnl with rfl | rfl
    · simp
    · exact List.forall_mem_singleton.mpr rfl
  cases h with
  | @mk w₀ w₁ w₂ w₃ w₄ w₅ w₆ w₇ q w p h₀ h₁ h₂ h₃ h₄ h₅ h₆ h₇ hq hw hp =>
    refine ⟨q, w, p, hq, hw, hp, ?_⟩
    have hassoc : w₀ ++ (r.name ++ (w₁ ++ 44 :: (w₂ ++ (q ++ (w₃ ++ 44 :: (w₄ ++ (w ++ (w₅ ++ 44 :: (w₆ ++ (p ++
        w₇)))))))))) ++ nl = w₀ ++ (r.name ++ ((w₁ ++ 44 :: w₂) ++ (q ++ ((w₃ ++ 44 :: w₄) ++ (w ++
          ((w₅ ++ 44 :: w₆) ++ (p ++ (w₇ ++ nl)))))))) := by simp
    unfold Text.tokens
    rw [hassoc, pieces_append_delims h₀.delim, r.piece.pieces_append (hcomma h₁ h₂) (by simp),
      (Numeral.piece hq).pieces_append (hcomma h₃ h₄) (by simp),
      (Numeral.piece hw).pieces_append (hcomma h₅ h₆) (by simp),
      (Numeral.piece hp).pieces_end (hend h₇)]

/-- **The fields of a line** make the process. -/
theorem read_fields_eq {q w p : List UInt8} (hstr : StringAt line 0 body)
    (htok : tokens field_delimiters body = [r.name, q, w, p]) (hq : Numeral q r.creation_quantum)
    (hw : Numeral w r.workload) (hp : Numeral p r.priority) (pid : Nat) :
    ∃ line', read_fields pid line = .ok (line', r.pcb pid) := by
  have h0 : (0 : UInt8) ∉ field_delimiters := by decide
  have hcur : Cursor field_delimiters line (some 0) [r.name, q, w, p] := ⟨body, hstr, htok⟩
  obtain ⟨l₁, p₁, t₁, hnext₁, hname, hcur⟩ := next_token_cons h0 hcur
  obtain ⟨l₂, p₂, t₂, hnext₂, hquantum, hcur⟩ := next_token_cons h0 hcur
  obtain ⟨l₃, p₃, t₃, hnext₃, hwork, hcur⟩ := next_token_cons h0 hcur
  obtain ⟨l₄, p₄, t₄, hnext₄, hprio, _⟩ := next_token_cons h0 hcur
  have hle := r.name_le
  obtain ⟨a, hcopy, hat, _⟩ := strcpy_eq (p := 0) (CharArray.zero 128) (by omega) hname.1
  have hmax : INT_MAX < 2 ^ 31 := by decide
  refine ⟨l₄, ?_⟩
  unfold read_fields
  simp only [hnext₁, hnext₂, hnext₃, hnext₄, tokenString, hname.string, hquantum.string, hwork.string, hprio.string,
    hcopy, hat.string, ok_bind, hq.unsigned_atoi (Nat.lt_of_le_of_lt r.creation_quantum_le hmax),
    hw.unsigned_atoi (Nat.lt_of_le_of_lt r.workload_le hmax), hp.unsigned_atoi (Nat.lt_of_le_of_lt r.priority_le hmax)]
  rfl

end Passes

/-! ## One line, and all lines -/

/-- The table with one more process. -/
def addRecord (s : SchedulerState) (r : Record) : SchedulerState :=
  { s with
    pcbs := Function.update s.pcbs s.num_processes (r.pcb s.num_processes)
    num_processes := s.num_processes + 1 }

section Lines

variable {rs : List Record} {a : CharArray line_sz} {line text nl back file : List UInt8} {s : SchedulerState} {n : Nat}

/-- The comment of a line is cut off, with what is behind it. -/
theorem Comment.split {c : List UInt8} (hc : Comment c) (hnl : nl = [] ∨ nl = [10]) (body back : List UInt8) :
    ∃ nl' b back', (nl' = [] ∨ nl' = [10]) ∧ (b = 0 ∨ b = 35) ∧
      body ++ c ++ nl ++ 0 :: back = (body ++ nl') ++ b :: back' := by
  rcases hc with rfl | ⟨text, rfl, _⟩
  · exact ⟨nl, 0, back, hnl, .inl rfl, by simp⟩
  · exact ⟨[], 35, text ++ nl ++ 0 :: back, .inl rfl, .inr rfl, by simp⟩

/-- **The first pass over a line** leaves what is in front of the comment, and counts its commas. -/
theorem first_pass {body c : List UInt8} (hbody : ∀ b ∈ body, Clean b) (hc : Comment c)
    (hlen : (body ++ c).length ≤ 1022) (hnl : nl = [] ∨ nl = [10]) (hbytes : a.bytes = body ++ c ++ nl ++ 0 :: back) :
    ∃ a' nl', (nl' = [] ∨ nl' = [10]) ∧ count_fields line_sz 0 1 a = .ok (a', 1 + body.count 44) ∧
      StringAt a' 0 (body ++ nl') := by
  obtain ⟨nl', b, back', hnl', hb, hsplit⟩ := hc.split hnl body back
  have hend : (∀ b ∈ nl', b ≠ 0 ∧ b ≠ 35) ∧ nl'.count 44 = 0 ∧ nl'.length ≤ 1 := by
    rcases hnl' with rfl | rfl <;> simp
  have hpass : ∀ b ∈ body ++ nl', b ≠ 0 ∧ b ≠ 35 := by
    rw [List.forall_mem_append]
    exact ⟨fun b hb => (hbody b hb).1, hend.1⟩
  have hlt : (body ++ nl').length < line_sz := by
    have := hend.2.2
    rw [List.length_append] at hlen ⊢
    unfold line_sz
    omega
  have hbytes₀ : a.bytes = [] ++ ((body ++ nl') ++ b :: back') := hbytes.trans hsplit
  obtain ⟨a', hcount, hbytes'⟩ : ∃ a', count_fields line_sz ([] : List UInt8).length 1 a = _ ∧ _ :=
    count_fields_eq hpass hb hbytes₀ hlt
  refine ⟨a', nl', hnl', ?_, StringAt.of_eq [] back' hbytes' fun hm => (hpass 0 hm).1 rfl⟩
  rw [List.count_append, hend.2.1, Nat.add_zero] at hcount
  exact hcount

/-- **One line.** -/
theorem load_line_eq (h : LineOf rs line) (hlen : line.length ≤ 1022) (hnl : nl = [] ∨ nl = [10])
    (hbytes : a.bytes = line ++ nl ++ 0 :: back) (hroom : s.num_processes + rs.length ≤ NUM_PROCESSES) :
    ∃ a', load_line a s = .ok (a', rs.foldl addRecord s) := by
  cases h with
  | @record r body c hf hc =>
    obtain ⟨l₁, nl', hnl', hcount, hstr⟩ := first_pass hf.clean hc hlen hnl hbytes
    obtain ⟨q, w, p, hq, hw, hp, htok⟩ := hf.tokens hnl'
    obtain ⟨l₂, hfields⟩ := read_fields_eq hstr htok hq hw hp s.num_processes
    have hne : (body ++ nl').length ≠ 0 := by
      intro h0
      rw [List.length_eq_zero_iff.mp h0] at htok
      simp [Text.tokens] at htok
    have hlt : s.num_processes < NUM_PROCESSES := hroom
    refine ⟨l₂, ?_⟩
    unfold load_line
    simp only [hcount, ok_bind, hstr.strlen, if_neg hne, hf.count, ne_eq, not_true_eq_false, if_false, if_pos hlt,
      hfields]
    rfl
  | @other w c hw hc =>
    obtain ⟨l₁, nl', _, hcount, hstr⟩ := first_pass hw.clean hc hlen hnl hbytes
    refine ⟨l₁, ?_⟩
    unfold load_line
    simp only [hcount, ok_bind, hstr.strlen, hw.count]
    split <;> rfl

/-- An empty line has no record. -/
theorem LineOf.of_nil (h : LineOf rs line) (hline : line = []) : rs = [] := by
  cases h with
  | record hf _ =>
    have hcount := hf.count
    rw [(List.append_eq_nil_iff.mp hline).1] at hcount
    cases hcount
  | other => rfl

/-- What a line of the format is made of does not hold a newline. -/
theorem LineOf.newline (h : LineOf rs line) : 10 ∉ line := by
  have hcomment : ∀ {c : List UInt8}, Comment c → 10 ∉ c := by
    rintro c (rfl | ⟨text, rfl, ht⟩)
    · simp
    · simpa using ht
  have hbody : ∀ {body c : List UInt8}, (∀ b ∈ body, Clean b) → Comment c → 10 ∉ body ++ c := by
    intro body c hb hc hm
    rcases List.mem_append.mp hm with hm | hm
    · exact (hb 10 hm).2 rfl
    · exact hcomment hc hm
  cases h with
  | record hf hc => exact hbody hf.clean hc
  | other hw hc => exact hbody hw.clean hc

theorem foldl_num_processes (rs : List Record) (s : SchedulerState) :
    (rs.foldl addRecord s).num_processes = s.num_processes + rs.length := by
  induction rs generalizing s with
  | nil => rfl
  | cons r rs ih =>
    rw [List.foldl_cons, ih, List.length_cons]
    show s.num_processes + 1 + rs.length = _
    omega

theorem foldl_current (rs : List Record) (s : SchedulerState) :
    (rs.foldl addRecord s).current_quantum = s.current_quantum ∧
      (rs.foldl addRecord s).current_process = s.current_process := by
  induction rs generalizing s with
  | nil => exact ⟨rfl, rfl⟩
  | cons r rs ih => exact ih (addRecord s r)

/-- The slots that are not filled. -/
theorem foldl_pcbs_other {i : Nat} (hi : i < s.num_processes ∨ s.num_processes + rs.length ≤ i) :
    (rs.foldl addRecord s).pcbs i = s.pcbs i := by
  induction rs generalizing s with
  | nil => rfl
  | cons r rs ih =>
    rw [List.length_cons] at hi
    have hnum : (addRecord s r).num_processes = s.num_processes + 1 := rfl
    rw [List.foldl_cons, ih (by omega)]
    exact Function.update_of_ne (by omega) _ _

/-- The slots that are filled. -/
theorem foldl_pcbs {i : Nat} {r : Record} (hi : rs[i]? = some r) :
    (rs.foldl addRecord s).pcbs (s.num_processes + i) = r.pcb (s.num_processes + i) := by
  induction rs generalizing s i with
  | nil => cases hi
  | cons r' rs ih =>
    have hnum : (addRecord s r').num_processes = s.num_processes + 1 := rfl
    rw [List.foldl_cons]
    cases i with
    | zero =>
      obtain rfl := Option.some.inj hi
      rw [foldl_pcbs_other (by omega)]
      exact Function.update_self _ _ _
    | succ i =>
      rw [show s.num_processes + (i + 1) = (addRecord s r').num_processes + i by omega]
      exact ih hi

/-- **All lines.** -/
theorem load_lines_eq (h : Describes rs file) (hn : file.length < n)
    (hroom : s.num_processes + rs.length ≤ NUM_PROCESSES) :
    load_lines n a file s = .ok (rs.foldl addRecord s) := by
  induction h generalizing n a s with
  | nil =>
    obtain ⟨n, rfl⟩ : ∃ k, n = k + 1 := ⟨n - 1, by omega⟩
    rfl
  | @line rs rest line file hline hlen hrest ih =>
    obtain ⟨n, rfl⟩ : ∃ k, n = k + 1 := ⟨n - 1, by omega⟩
    rw [List.length_append] at hroom
    have htext : IsLine (line ++ [10]) file := .newline hline.newline
    obtain ⟨a₁, back, hfgets, hbytes⟩ := fgets_eq (a := a) htext (by simp [line_sz]; omega)
    obtain ⟨a₂, hload⟩ := load_line_eq (s := s) hline hlen (.inr rfl) hbytes (by omega)
    have hnum := foldl_num_processes rs s
    rw [List.append_assoc] at hfgets
    rw [load_lines, show line ++ 10 :: file = line ++ ([10] ++ file) from rfl, hfgets, ok_bind]
    simp only [hload, ok_bind]
    rw [List.foldl_append, ih (by simp at hn; omega) (by omega)]
  | @last rs line hline hlen =>
    obtain ⟨n, rfl⟩ : ∃ k, n = k + 1 := ⟨n - 1, by omega⟩
    by_cases hnil : line = []
    · subst hnil
      obtain rfl := hline.of_nil rfl
      rfl
    · have htext : IsLine line [] := .last hline.newline hnil
      obtain ⟨a₁, back, hfgets, hbytes⟩ := fgets_eq (a := a) htext (by simp [line_sz]; omega)
      obtain ⟨a₂, hload⟩ : ∃ a₂, load_line a₁ s = .ok (a₂, rs.foldl addRecord s) :=
        load_line_eq hline hlen (.inl rfl) (by rw [List.append_nil]; exact hbytes) hroom
      rw [List.append_nil] at hfgets
      rw [load_lines, hfgets, ok_bind]
      simp only [hload, ok_bind]
      cases n <;> rfl

end Lines

/-! ## The round trip -/

section RoundTrip

variable {records : List Record} {file : List UInt8} {s : SchedulerState}

theorem read_spec_eq (h : Describes records file) (hroom : s.num_processes + records.length ≤ NUM_PROCESSES) :
    read_spec (some file) s = .ok (records.foldl addRecord s) := load_lines_eq h (Nat.lt_succ_self _) hroom

/-- **A file is read as its records.** -/
theorem read_spec_roundtrip (h : Describes records file) (hlen : records.length ≤ 100) (hs : s.num_processes = 0) :
    ∃ s', read_spec (some file) s = .ok s' ∧ s'.num_processes = records.length ∧
      ∀ i (hi : i < records.length), s'.pcbs i = records[i].pcb i := by
  have hroom : s.num_processes + records.length ≤ NUM_PROCESSES := by
    rw [hs, Nat.zero_add]
    exact hlen
  refine ⟨_, read_spec_eq h hroom, ?_, fun i hi => ?_⟩
  · rw [foldl_num_processes, hs, Nat.zero_add]
  · have hpcb := foldl_pcbs (s := s) (List.getElem?_eq_getElem hi)
    rwa [hs, Nat.zero_add] at hpcb

/-- A comment, a blank line, a record with a comment, and a record without a newline. -/
def sample_file : List UInt8 := chars [
  '#', 'p', '\n', ' ', '\n', 'a', ',', ' ', '1', ',', '2', '\t', ',', '3', '#', 'x',
  ',', '\n', 'b', ',', '0', ',', '4', ',', '0']

def sample_records : List Record :=
  [⟨[97], 1, 2, 3, by decide, by decide, List.forall_mem_singleton.mpr (by decide), by decide, by decide, by decide⟩,
    ⟨[98], 0, 4, 0, by decide, by decide, List.forall_mem_singleton.mpr (by decide), by decide, by decide, by decide⟩]

theorem sample_describes : Describes sample_records sample_file := by
  have hempty : Blank [] := by simp [Blank]
  have hspace : Blank [32] := by simp [Blank]
  have htab : Blank [9] := by simp [Blank]
  have hdigit : ∀ {d : UInt8} {n : Nat}, isdigit d = true → digitsValue [d] = n → Numeral [d] n := fun hd hn =>
    ⟨List.cons_ne_nil _ _, List.forall_mem_singleton.mpr hd, hn⟩
  have hrest : Describes [sample_records[1]] [98, 44, 48, 44, 52, 44, 48] := by
    refine .last (.record (c := []) (.mk hempty hempty hempty hempty hempty hempty hempty hempty
      (q := [48]) (w := [52]) (p := [48]) ?_ ?_ ?_) (.inl rfl)) (by decide)
    · exact hdigit rfl rfl
    · exact hdigit rfl rfl
    · exact hdigit rfl rfl
  have hrecord : LineOf [sample_records[0]] [97, 44, 32, 49, 44, 50, 9, 44, 51, 35, 120, 44] := by
    refine .record (c := [35, 120, 44]) (.mk hempty hempty hspace hempty hempty htab hempty hempty
      (q := [49]) (w := [50]) (p := [51]) ?_ ?_ ?_) (.inr ⟨[120, 44], rfl, by decide⟩)
    · exact hdigit rfl rfl
    · exact hdigit rfl rfl
    · exact hdigit rfl rfl
  have hcomment : LineOf [] [35, 112] := .other (w := []) hempty (.inr ⟨[112], rfl, by decide⟩)
  have hblank : LineOf [] [32] := .other (c := []) hspace (.inl rfl)
  exact .line hcomment (by decide) (.line hblank (by decide) (.line hrecord (by decide) hrest))

theorem read_spec_roundtrip_sample : ∃ s', read_spec (some sample_file) (load []) = .ok s' ∧ s'.num_processes = 2 ∧
    ∀ i (hi : i < 2), s'.pcbs i = sample_records[i].pcb i := read_spec_roundtrip sample_describes (by decide) rfl

/-- The record as the scheduler takes it. -/
def Record.spec (r : Record) : ProcessSpec :=
  ⟨nameOf r.name, .ofNat r.creation_quantum, .ofNat r.workload, .ofNat r.priority⟩

theorem Record.pcb_spec (r : Record) (pid : Nat) : r.pcb pid = { empty_pcb with
    pid := pid, name := r.spec.name, creation_quantum := r.spec.creation_quantum.toNat
    workload := r.spec.workload.toNat, priority := r.spec.priority.toNat } := by
  have hof : ∀ {n : Nat}, n ≤ INT_MAX → (UInt32.ofNat n).toNat = n := by
    intro n hn
    rw [UInt32.toNat_ofNat']
    exact Nat.mod_eq_of_lt (Nat.lt_of_le_of_lt hn (by decide))
  unfold Record.pcb Record.spec
  dsimp only
  rw [hof r.creation_quantum_le, hof r.workload_le, hof r.priority_le]

theorem load_pcbs_none {specs : List ProcessSpec} {i : Nat} (h : specs[i]? = none) :
    (load specs).pcbs i = empty_pcb := by
  simp only [load, h]

theorem load_pcbs_some {specs : List ProcessSpec} {i : Nat} {p : ProcessSpec} (h : specs[i]? = some p) :
    (load specs).pcbs i = { empty_pcb with
      pid := i, name := p.name, creation_quantum := p.creation_quantum.toNat, workload := p.workload.toNat
      priority := p.priority.toNat } := by
  simp only [load, h]

/-- **The scheduler starts with the table of the file.** -/
theorem read_spec_load (h : Describes records file) (hlen : records.length ≤ NUM_PROCESSES) :
    read_spec (some file) (load []) = .ok (load (records.map Record.spec)) := by
  have hzero : (load []).num_processes = 0 := rfl
  rw [read_spec_eq h (by omega)]
  apply congrArg Except.ok
  have hnum := foldl_num_processes records (load [])
  obtain ⟨hquantum, hprocess⟩ := foldl_current records (load [])
  have hpcbs : (records.foldl addRecord (load [])).pcbs = (load (records.map Record.spec)).pcbs := by
    funext i
    have hspec : (records.map Record.spec)[i]? = records[i]?.map Record.spec := List.getElem?_map
    cases hi : records[i]? with
    | none =>
      have hlen : records.length ≤ i := List.getElem?_eq_none_iff.mp hi
      rw [hi] at hspec
      rw [foldl_pcbs_other (.inr (by omega)), load_pcbs_none hspec]
      rfl
    | some r =>
      have hpcb := foldl_pcbs (s := load []) hi
      rw [hzero, Nat.zero_add] at hpcb
      rw [hi] at hspec
      rw [load_pcbs_some hspec]
      exact hpcb.trans (r.pcb_spec i)
  rw [hzero, Nat.zero_add] at hnum
  generalize records.foldl addRecord (load []) = t at *
  obtain ⟨num, quantum, process, pcbs⟩ := t
  dsimp only at hnum hquantum hprocess hpcbs
  rw [hnum, hquantum, hprocess, hpcbs]
  unfold load
  rw [List.length_map]

end RoundTrip

end Cs326.Scheduler
