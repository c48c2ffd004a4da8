import Cs326.Shell.Tokenizer
import Mathlib.Logic.Function.Basic

/-!
# The parsing in `exec`

`exec` of `shell.c` up to the array `cmds`. It goes over the array `tokens` up to its `NULL`, with `last`, `index` and
`hasPipe` for where the current command starts and where it goes. `commandLines` says the same of the list of the
tokens, and `parse_eq` that `exec` fills `cmds` with it, whatever is in `tokens` behind its `NULL`.

Line 352 of `shell.c` is stray text and read as a comment. The places that are written in the blocks `temp_tokens` and
`temp_end_tokens` are recorded (`Parse.written`), and the model goes on with all words.
-/

namespace Cs326.Prompt

/-- `|`. -/
def bar : CString := ⟨[124], by decide⟩

/-- `>`. -/
def gt : CString := ⟨[62], by decide⟩

/-- `$`. -/
def dollar : UInt8 := 36

/-- The entries of `tokens`, `NULL` behind its end. -/
def entry (tokens : List (Option CString)) (i : Nat) : Option CString := tokens[i]?.join

/-- `struct command_line`. -/
structure CommandLine where
  tokens : Option (List CString)
  stdout_pipe : Bool
  stdout_file : Option CString
  deriving DecidableEq

/-- An entry of `cmds[5000] = {0}`. -/
def CommandLine.zero : CommandLine := ⟨none, false, none⟩

/-- The state of the loop, and two ghosts: the places of the operators found, and the places written in the blocks of
words. -/
structure Parse where
  index : Nat
  last : Nat
  hasPipe : Bool
  cmds : Nat → CommandLine
  operators : List Nat
  written : List Nat

namespace Parse

def init : Parse := ⟨0, 0, false, fun _ => .zero, [], []⟩

/-- The first value of `current`. -/
def start (st : Parse) : Nat := if st.hasPipe then st.last + 1 else st.last

/-- The loop over `current`, with the rounds it has left, up to the operator `op`: the words stored, and `current`
behind the loop. -/
def fill (tokens : List (Option CString)) (op : Option CString) : (left current : Nat) → List CString × Nat
  | 0, current => ([], current)
  | left + 1, current =>
    match entry tokens current with
    | none => ([], current)
    | some tok =>
      if some tok = op then ([], current)
      else
        let (words, stop) := fill tokens op left (current + 1)
        (tok :: words, stop)

/-- The loop from `start` to `t_count`. -/
def segment (st : Parse) (tokens : List (Option CString)) (op : Option CString) (t_count : Nat) :
    List CString × Nat :=
  fill tokens op (t_count + 1 - st.start) st.start

/-- `cmds[index]` is set. The words have been stored at the places from `0` on, and `NULL` behind them. -/
def set (st : Parse) (words : List CString) (f : CommandLine → CommandLine) : Parse :=
  { st with
    cmds := Function.update st.cmds st.index (f { st.cmds st.index with tokens := some words })
    written := st.written ++ List.range (words.length + 1) }

/-- `last`, `index` and `hasPipe` behind an operator. -/
def next (st : Parse) (t_count : Nat) : Parse :=
  { st with last := t_count, index := st.index + 1, hasPipe := true, operators := st.operators ++ [t_count] }

def pipe (st : Parse) (tokens : List (Option CString)) (t_count : Nat) : Parse :=
  let (words, _) := st.segment tokens (some bar) t_count
  (st.set words fun cmd => { cmd with stdout_pipe := true }).next t_count

def redirect (st : Parse) (tokens : List (Option CString)) (t_count : Nat) : Parse :=
  let (words, current) := st.segment tokens (some gt) t_count
  (st.set words fun cmd => { cmd with stdout_pipe := false, stdout_file := entry tokens (current + 1) }).next t_count

/-- The last words. -/
def finish (st : Parse) (tokens : List (Option CString)) (t_count : Nat) : Parse :=
  let (words, _) := st.segment tokens none t_count
  st.set words fun cmd => { cmd with stdout_pipe := false }

/-- The body of the loop. -/
def step (st : Parse) (tokens : List (Option CString)) (t_count : Nat) (tok : CString) : Parse :=
  let st := if tok.startsWith bar then st.pipe tokens t_count else st
  let st := if tok.startsWith gt then st.redirect tokens t_count else st
  if entry tokens (t_count + 1) = none then st.finish tokens t_count else st

/-- The loop over `t_count`, with the entries from there on. -/
def loop (tokens : List (Option CString)) : (t_count : Nat) → List (Option CString) → Parse → Parse
  | t_count, some tok :: rest, st => loop tokens (t_count + 1) rest (st.step tokens t_count tok)
  | _, _, st => st

end Parse

/-- The replacement of the first words that begin with `$`. Where the variable of the first word is set, its value goes
to the place of the second. -/
def expandVars (getenv : CString → Option CString) (tokens : List (Option CString)) : List (Option CString) :=
  match entry tokens 0 with
  | none => tokens
  | some first =>
    if first.head = dollar then
      match getenv (first.drop 1) with
      | none => tokens
      | some check => tokens.set 1 (some check)
    else
      match entry tokens 1 with
      | none => tokens
      | some second =>
        if second.head = dollar then
          match getenv (second.drop 1) with
          | none => tokens
          | some check => tokens.set 1 (some check)
        else tokens

/-- `exec` up to `execute_pipeline(cmds)`. -/
def exec (getenv : CString → Option CString) (tokens : List (Option CString)) : Parse :=
  let tokens := expandVars getenv tokens
  Parse.loop tokens 0 tokens .init

/-! ## The same on lists -/

/-- The tokens up to the `NULL`. -/
def live : List (Option CString) → List CString
  | some tok :: rest => tok :: live rest
  | _ => []

/-- `exec` takes the token for an operator. -/
def operator (tok : CString) : Bool := tok.startsWith bar || tok.startsWith gt

/-- The words of a command that ends with the operator `tok`. -/
def wordsBefore (op : CString) (cur : List CString) (tok : CString) : List CString :=
  if tok = op then cur else cur ++ [tok]

/-- `stdout_file` for the operator `tok`, with the tokens `rest` and then `NULL` and `after` behind it. -/
def fileBehind (after : Option CString) (tok : CString) (rest : List CString) : Option CString :=
  if tok = gt then rest.head?
  else
    match rest with
    | [] => after
    | _ :: rest => rest.head?

/-- The commands of the tokens, `cur` being the words of the first one so far. -/
def commandLines (after : Option CString) : (cur toks : List CString) → List CommandLine
  | cur, [] => [⟨some cur, false, none⟩]
  | cur, tok :: rest =>
    if tok.startsWith bar then ⟨some (wordsBefore bar cur tok), true, none⟩ :: commandLines after [] rest
    else if tok.startsWith gt then
      ⟨some (wordsBefore gt cur tok), false, fileBehind after tok rest⟩ :: commandLines after [] rest
    else commandLines after (cur ++ [tok]) rest

/-- The array that holds the commands. -/
def cmdsOf (cmds : List CommandLine) (i : Nat) : CommandLine := cmds[i]?.getD .zero

/-- The places written in the block of a command. -/
def CommandLine.written (cmd : CommandLine) : List Nat := List.range ((cmd.tokens.getD []).length + 1)

/-- The places of the operators. -/
def operatorsOf (toks : List CString) : List Nat := (toks.zipIdx.filter fun e => operator e.1).map Prod.snd

variable {tokens tail back : List (Option CString)} {toks pre cur rest words : List CString} {done : List CommandLine}
  {cmd : CommandLine} {st : Parse} {op tok : CString} {after : Option CString} {n p : Nat}

theorem entry_eq_head (tokens : List (Option CString)) (p : Nat) : entry tokens p = (tokens.drop p).head?.join := by
  rw [List.head?_drop, entry]

/-- An entry at or behind the tokens. -/
theorem entry_of_drop (hdrop : tokens.drop p = toks.map some ++ tail) (htail : tail.head?.join = none) :
    entry tokens p = toks.head? := by
  rw [entry_eq_head, hdrop]
  cases toks with
  | nil => exact htail
  | cons tok toks => rfl

/-- The array is the tokens, and what is behind them starts with `NULL`. -/
theorem live_append (tokens : List (Option CString)) :
    ∃ tail, tokens = (live tokens).map some ++ tail ∧ tail.head?.join = none := by
  induction tokens with
  | nil => exact ⟨[], rfl, rfl⟩
  | cons tok tokens ih =>
    cases tok with
    | none => exact ⟨none :: tokens, rfl, rfl⟩
    | some tok =>
      obtain ⟨tail, heq, htail⟩ := ih
      exact ⟨tail, congrArg (some tok :: ·) heq, htail⟩

theorem live_eq (toks : List CString) (htail : tail.head?.join = none) : live (toks.map some ++ tail) = toks := by
  induction toks with
  | nil =>
    match tail, htail with
    | [], _ => rfl
    | none :: _, _ => rfl
  | cons tok toks ih => exact congrArg (tok :: ·) ih

theorem entry_of_live {i : Nat} (hi : i ≤ (live tokens).length) : entry tokens i = (live tokens)[i]? := by
  obtain ⟨tail, htok, htail⟩ := live_append tokens
  rw [← List.head?_drop]
  refine entry_of_drop ?_ htail
  nth_rewrite 1 [htok]
  rw [List.drop_append_of_le_length (by rwa [List.length_map]), ← List.map_drop]

/-- Without a `$` in front of the first two words nothing is replaced. -/
theorem expandVars_eq (getenv : CString → Option CString) (h : ∀ w ∈ (live tokens).take 2, w.head ≠ dollar) :
    expandVars getenv tokens = tokens := by
  have hword : ∀ {i : Nat} {w : CString}, i ≤ (live tokens).length → i < 2 → entry tokens i = some w →
      w.head ≠ dollar := by
    intro i w hle hi hw
    rw [entry_of_live hle] at hw
    exact h w (List.mem_of_getElem? (List.getElem?_take_of_lt hi ▸ hw))
  unfold expandVars
  split
  · rfl
  · rename_i first h0
    rw [if_neg (hword (Nat.zero_le _) (by omega) h0)]
    split
    · rfl
    · rename_i second h1
      have hlen : 1 ≤ (live tokens).length := by
        rw [entry_of_live (Nat.zero_le _)] at h0
        exact (List.getElem?_eq_some_iff.mp h0).1
      rw [if_neg (hword hlen (by omega) h1)]

theorem update_cmdsOf (done : List CommandLine) (cmd : CommandLine) :
    Function.update (cmdsOf done) done.length cmd = cmdsOf (done ++ [cmd]) := by
  funext i
  rcases Nat.lt_trichotomy i done.length with hlt | rfl | hgt
  · rw [Function.update_of_ne (by omega), cmdsOf, cmdsOf, List.getElem?_append_left hlt]
  · rw [Function.update_self, cmdsOf]
    simp
  · rw [Function.update_of_ne (by omega), cmdsOf, cmdsOf, List.getElem?_eq_none (by omega),
      List.getElem?_eq_none (by rw [List.length_append, List.length_singleton]; omega)]

theorem operatorsOf_snoc (toks : List CString) (tok : CString) :
    operatorsOf (toks ++ [tok]) = operatorsOf toks ++ if operator tok then [toks.length] else [] := by
  unfold operatorsOf
  rw [List.zipIdx_append, List.filter_append, List.map_append]
  cases h : operator tok <;> simp [h]

theorem startsWith_gt (hbar : tok.startsWith bar = true) : tok.startsWith gt = false := by
  obtain ⟨bytes, h0⟩ := tok
  cases bytes with
  | nil => cases hbar
  | cons b bytes =>
    have hb : ((124 : UInt8) == b && ([] : List UInt8).isPrefixOf bytes) = true := hbar
    obtain rfl : 124 = b := by simpa using hb
    rfl

/-- **What a token does to the commands**: it is a word of the current one, or ends it. -/
theorem commandLines_cons (after : Option CString) (cur : List CString) (tok : CString) (rest : List CString) :
    operator tok = false ∧ commandLines after cur (tok :: rest) = commandLines after (cur ++ [tok]) rest ∨
    operator tok = true ∧ ∃ cmd, commandLines after cur (tok :: rest) = cmd :: commandLines after [] rest ∧
      cmd.tokens = some (if tok = bar ∨ tok = gt then cur else cur ++ [tok]) := by
  have hwords : ∀ {op : CString}, (tok = op ↔ tok = bar ∨ tok = gt) →
      wordsBefore op cur tok = if tok = bar ∨ tok = gt then cur else cur ++ [tok] := by
    intro op hop
    rw [wordsBefore]
    by_cases h : tok = op
    · rw [if_pos h, if_pos (hop.mp h)]
    · rw [if_neg h, if_neg (mt hop.mpr h)]
  rw [commandLines, operator]
  by_cases hbar : tok.startsWith bar = true
  · have hop : tok = bar ↔ tok = bar ∨ tok = gt := by
      refine ⟨.inl, fun h => h.resolve_right ?_⟩
      rintro rfl
      cases hbar
    right
    rw [hbar, if_pos rfl, Bool.true_or]
    exact ⟨rfl, _, rfl, congrArg some (hwords hop)⟩
  · rw [if_neg hbar, Bool.eq_false_iff.mpr hbar, Bool.false_or]
    by_cases hgt : tok.startsWith gt = true
    · have hop : tok = gt ↔ tok = bar ∨ tok = gt := by
        refine ⟨.inr, fun h => h.resolve_left ?_⟩
        rintro rfl
        exact hbar rfl
      right
      rw [if_pos hgt]
      exact ⟨hgt, _, rfl, congrArg some (hwords hop)⟩
    · left
      rw [if_neg hgt]
      exact ⟨Bool.eq_false_iff.mpr hgt, rfl⟩

/-! ## The loops -/

/-- Words that are no operator are stored. -/
theorem fill_append {op : Option CString} (hdrop : tokens.drop p = words.map some ++ back)
    (hwords : ∀ w ∈ words, some w ≠ op) (n : Nat) : Parse.fill tokens op (words.length + n) p =
      (words ++ (Parse.fill tokens op n (p + words.length)).1, (Parse.fill tokens op n (p + words.length)).2) := by
  induction words generalizing p with
  | nil => simp
  | cons w words ih =>
    obtain ⟨hw, hwords⟩ := List.forall_mem_cons.mp hwords
    have hentry : entry tokens p = some w := by rw [entry_eq_head, hdrop]; rfl
    have hdrop' : tokens.drop (p + 1) = words.map some ++ back := by rw [← List.drop_drop, hdrop]; rfl
    rw [show (w :: words).length + n = words.length + n + 1 by rw [List.length_cons]; omega, Parse.fill, hentry]
    dsimp only
    rw [if_neg hw, ih hdrop' hwords, show p + 1 + words.length = p + (w :: words).length by
      rw [List.length_cons]; omega]
    rfl

/-- The words of a command, up to the operator at its end. -/
theorem fill_operator (hdrop : tokens.drop p = (cur ++ tok :: rest).map some ++ tail)
    (hcur : ∀ w ∈ cur, operator w = false) (hop : operator op = true) :
    Parse.fill tokens (some op) (cur.length + 1) p =
      (wordsBefore op cur tok, p + cur.length + if tok = op then 0 else 1) := by
  rw [List.map_append, List.append_assoc] at hdrop
  have hne : ∀ w ∈ cur, some w ≠ some op := by
    rintro w hw ⟨⟩
    rw [hcur _ hw] at hop
    cases hop
  have hentry : entry tokens (p + cur.length) = some tok := by
    rw [entry_eq_head, ← List.drop_drop, hdrop, List.drop_left' (List.length_map ..)]
    rfl
  rw [fill_append hdrop hne, Parse.fill, hentry]
  dsimp only
  unfold wordsBefore
  by_cases htok : tok = op
  · rw [if_pos htok, if_pos htok, if_pos (congrArg some htok), List.append_nil]
    rfl
  · rw [if_neg htok, if_neg htok, if_neg fun h => htok (Option.some.inj h)]
    rfl

/-- The last words. -/
theorem fill_last (hdrop : tokens.drop p = cur.map some ++ tail) :
    Parse.fill tokens none cur.length p = (cur, p + cur.length) := by
  have hnone : ∀ w ∈ cur, some w ≠ none := fun w _ => Option.some_ne_none w
  have h := fill_append hdrop hnone 0
  rwa [Nat.add_zero, Parse.fill, List.append_nil] at h

/-- The commands `done` are in `cmds`, and `cur` are the words since the last operator, behind the tokens `pre`. -/
structure Parsing (done : List CommandLine) (pre cur : List CString) (st : Parse) : Prop where
  index : st.index = done.length
  cmds : st.cmds = cmdsOf done
  start : st.start = pre.length
  plain : ∀ w ∈ cur, operator w = false
  written : st.written = done.flatMap CommandLine.written
  operators : st.operators = operatorsOf (pre ++ cur)

/-- The commands are in `cmds`, and the words have been stored in their blocks. -/
structure Parsed (done : List CommandLine) (toks : List CString) (st : Parse) : Prop where
  index : st.index + 1 = done.length
  cmds : st.cmds = cmdsOf done
  written : st.written = done.flatMap CommandLine.written
  operators : st.operators = operatorsOf toks

namespace Parsing

theorem init : Parsing [] [] [] .init := ⟨rfl, rfl, rfl, by simp, rfl, rfl⟩

/-- A word that is no operator. -/
theorem word (h : Parsing done pre cur st) (hop : operator tok = false) : Parsing done pre (cur ++ [tok]) st := by
  refine { h with plain := fun w hw => ?_, operators := ?_ }
  · rcases List.mem_append.mp hw with hw | hw
    · exact h.plain w hw
    · obtain rfl := List.mem_singleton.mp hw
      exact hop
  · rw [h.operators, ← List.append_assoc, operatorsOf_snoc, hop]
    simp

/-- A command is stored. -/
theorem set (h : Parsing done pre cur st) (words : List CString) {f : CommandLine → CommandLine}
    (hf : (f ⟨some words, false, none⟩).tokens = some words) :
    (st.set words f).cmds = cmdsOf (done ++ [f ⟨some words, false, none⟩]) ∧
    (st.set words f).written = (done ++ [f ⟨some words, false, none⟩]).flatMap CommandLine.written := by
  have hzero : st.cmds st.index = .zero := by
    rw [h.cmds, h.index, cmdsOf, List.getElem?_eq_none (Nat.le_refl _)]
    rfl
  constructor
  · rw [← update_cmdsOf, ← h.index, ← h.cmds]
    show Function.update st.cmds st.index _ = _
    rw [hzero]
    rfl
  · rw [List.flatMap_append, List.flatMap_singleton, CommandLine.written, hf, ← h.written]
    rfl

/-- A command that ends with an operator. -/
theorem next (h : Parsing done pre cur st) (words : List CString) {f : CommandLine → CommandLine}
    (hf : (f ⟨some words, false, none⟩).tokens = some words) (hop : operator tok = true) :
    Parsing (done ++ [f ⟨some words, false, none⟩]) (pre ++ cur ++ [tok]) []
      ((st.set words f).next (pre.length + cur.length)) := by
  obtain ⟨hcmds, hwritten⟩ := h.set words hf
  refine ⟨?_, hcmds, ?_, by simp, hwritten, ?_⟩
  · rw [List.length_append, ← h.index]
    rfl
  · show pre.length + cur.length + 1 = _
    simp [Nat.add_assoc]
  · rw [List.append_nil, operatorsOf_snoc, hop, List.length_append, if_pos rfl, ← h.operators]
    rfl

variable (h : Parsing done pre cur st)

include h

theorem segment_eq (tokens : List (Option CString)) (op : Option CString) (t_count : Nat) :
    st.segment tokens op t_count = Parse.fill tokens op (t_count + 1 - pre.length) pre.length := by
  rw [Parse.segment, h.start]

theorem pipe (htok : tokens = (pre ++ cur ++ tok :: rest).map some ++ tail) (hbar : tok.startsWith bar = true) :
    Parsing (done ++ [⟨some (wordsBefore bar cur tok), true, none⟩]) (pre ++ cur ++ [tok]) []
      (st.pipe tokens (pre.length + cur.length)) := by
  have hdrop : tokens.drop pre.length = (cur ++ tok :: rest).map some ++ tail := by
    rw [htok, List.append_assoc, List.map_append, List.append_assoc, List.drop_left' (List.length_map ..)]
  have hseg := h.segment_eq tokens (some bar) (pre.length + cur.length)
  rw [show pre.length + cur.length + 1 - pre.length = cur.length + 1 by omega,
    fill_operator hdrop h.plain (by decide)] at hseg
  have hop : operator tok = true := by rw [operator, hbar]; rfl
  rw [Parse.pipe, hseg]
  exact h.next (wordsBefore bar cur tok) (f := fun cmd => { cmd with stdout_pipe := true }) rfl hop

theorem redirect (htok : tokens = (pre ++ cur ++ tok :: rest).map some ++ tail) (htail : tail.head?.join = none)
    (hgt : tok.startsWith gt = true) :
    Parsing (done ++ [⟨some (wordsBefore gt cur tok), false, fileBehind (tail.drop 1).head?.join tok rest⟩])
      (pre ++ cur ++ [tok]) [] (st.redirect tokens (pre.length + cur.length)) := by
  have hdrop : tokens.drop pre.length = (cur ++ tok :: rest).map some ++ tail := by
    rw [htok, List.append_assoc, List.map_append, List.append_assoc, List.drop_left' (List.length_map ..)]
  have hbehind : tokens.drop (pre.length + cur.length + 1) = rest.map some ++ tail := by
    have hsplit : tokens = (pre ++ cur ++ [tok]).map some ++ (rest.map some ++ tail) := by simp [htok]
    rw [hsplit, List.drop_left' (by simp [Nat.add_assoc])]
  have hseg := h.segment_eq tokens (some gt) (pre.length + cur.length)
  rw [show pre.length + cur.length + 1 - pre.length = cur.length + 1 by omega,
    fill_operator hdrop h.plain (by decide)] at hseg
  have hop : operator tok = true := by rw [operator, hgt, Bool.or_true]
  have hfile : entry tokens (pre.length + cur.length + (if tok = gt then 0 else 1) + 1) =
      fileBehind (tail.drop 1).head?.join tok rest := by
    unfold fileBehind
    split
    · exact entry_of_drop hbehind htail
    · have hbehind' : tokens.drop (pre.length + cur.length + 1 + 1) = (rest.map some ++ tail).drop 1 := by
        rw [← hbehind, List.drop_drop]
      cases rest with
      | nil => exact (entry_eq_head ..).trans (congrArg (fun l => l.head?.join) hbehind')
      | cons _ rest => exact entry_of_drop hbehind' htail
  rw [Parse.redirect, hseg]
  dsimp only
  rw [hfile]
  exact h.next (wordsBefore gt cur tok) (f := fun cmd =>
    { cmd with stdout_pipe := false, stdout_file := fileBehind (tail.drop 1).head?.join tok rest }) rfl hop

/-- The last command, which needs no operator behind it. -/
theorem finish (hdrop : tokens.drop pre.length = cur.map some ++ tail) {t_count : Nat}
    (ht : t_count + 1 = pre.length + cur.length) :
    Parsed (done ++ [⟨some cur, false, none⟩]) (pre ++ cur) (st.finish tokens t_count) := by
  have hseg := h.segment_eq tokens none t_count
  rw [show t_count + 1 - pre.length = cur.length by omega] at hseg
  obtain ⟨hcmds, hwritten⟩ := h.set cur (f := fun cmd => { cmd with stdout_pipe := false }) rfl
  rw [Parse.finish, hseg, fill_last hdrop]
  exact ⟨by rw [List.length_append, ← h.index]; rfl, hcmds, hwritten, h.operators⟩

/-- **One iteration**: the operators, and then the last command if no tokens are left. -/
theorem step (htok : tokens = (pre ++ cur ++ tok :: rest).map some ++ tail) (htail : tail.head?.join = none) :
    ∃ done₁ pre₁ cur₁ st₁, Parsing done₁ pre₁ cur₁ st₁ ∧ pre₁ ++ cur₁ = pre ++ cur ++ [tok] ∧
      done ++ commandLines (tail.drop 1).head?.join cur (tok :: rest) =
        done₁ ++ commandLines (tail.drop 1).head?.join cur₁ rest ∧
      st.step tokens (pre.length + cur.length) tok =
        if rest.head? = none then st₁.finish tokens (pre.length + cur.length) else st₁ := by
  have hnext : entry tokens (pre.length + cur.length + 1) = rest.head? := by
    refine entry_of_drop ?_ htail
    have hsplit : tokens = (pre ++ cur ++ [tok]).map some ++ (rest.map some ++ tail) := by simp [htok]
    rw [hsplit, List.drop_left' (by simp [Nat.add_assoc])]
  unfold Parse.step
  rw [hnext]
  by_cases hbar : tok.startsWith bar = true
  · have hgt := startsWith_gt hbar
    refine ⟨_, _, [], _, h.pipe htok hbar, List.append_nil _, ?_, ?_⟩
    · rw [commandLines, if_pos hbar, List.append_assoc]
      rfl
    · simp only [if_pos hbar, hgt, Bool.false_eq_true, if_false]
  · by_cases hgt : tok.startsWith gt = true
    · refine ⟨_, _, [], _, h.redirect htok htail hgt, List.append_nil _, ?_, ?_⟩
      · rw [commandLines, if_neg hbar, if_pos hgt, List.append_assoc]
        rfl
      · simp only [if_neg hbar, if_pos hgt]
    · refine ⟨_, _, cur ++ [tok], _, h.word (by simp [operator, hbar, hgt]), (List.append_assoc ..).symm, ?_, ?_⟩
      · rw [commandLines, if_neg hbar, if_neg hgt]
      · simp only [if_neg hbar, if_neg hgt]

end Parsing

/-- **The loop** over the tokens that are left. -/
theorem Parsing.loop (h : Parsing done pre cur st) (htok : tokens = (pre ++ cur ++ tok :: rest).map some ++ tail)
    (htail : tail.head?.join = none) :
    Parsed (done ++ commandLines (tail.drop 1).head?.join cur (tok :: rest)) (pre ++ cur ++ tok :: rest)
      (Parse.loop tokens (pre.length + cur.length) ((tok :: rest).map some ++ tail) st) := by
  induction rest generalizing done pre cur st tok with
  | nil =>
    obtain ⟨done₁, pre₁, cur₁, st₁, h₁, happ, hcmds, hstep⟩ := h.step htok htail
    have hlen := congrArg List.length happ
    simp only [List.length_append, List.length_singleton] at hlen
    have hend : ∀ (n : Nat) (st : Parse), Parse.loop tokens n tail st = st := by
      intro n st
      match tail, htail with
      | [], _ => rfl
      | none :: _, _ => rfl
    rw [hcmds, ← happ, List.map_singleton, List.singleton_append, Parse.loop, hend, hstep]
    have hdrop : tokens.drop pre₁.length = cur₁.map some ++ tail := by
      rw [htok, ← happ, List.map_append, List.append_assoc, List.drop_left' (List.length_map ..)]
    exact h₁.finish hdrop (by omega)
  | cons tok' rest ih =>
    obtain ⟨done₁, pre₁, cur₁, st₁, h₁, happ, hcmds, hstep⟩ := h.step htok htail
    have hlen := congrArg List.length happ
    simp only [List.length_append, List.length_singleton] at hlen
    have hsplit : pre ++ cur ++ tok :: tok' :: rest = pre₁ ++ cur₁ ++ tok' :: rest := by rw [happ]; simp
    have hrest := ih h₁ (htok.trans (by rw [hsplit]))
    rw [show pre₁.length + cur₁.length = pre.length + cur.length + 1 by omega] at hrest
    rw [hcmds, hsplit, List.map_cons, List.cons_append, Parse.loop, hstep]
    exact hrest

/-- **What `exec` makes of the tokens** up to the `NULL`. -/
theorem parse_eq (tokens : List (Option CString)) (hne : live tokens ≠ []) :
    Parsed (commandLines (entry tokens ((live tokens).length + 1)) [] (live tokens)) (live tokens)
      (Parse.loop tokens 0 tokens .init) := by
  obtain ⟨tail, htok, htail⟩ := live_append tokens
  have hafter : entry tokens ((live tokens).length + 1) = (tail.drop 1).head?.join := by
    rw [entry_eq_head]
    nth_rewrite 2 [htok]
    rw [← List.drop_drop, List.drop_left' (List.length_map ..)]
  obtain ⟨tok, rest, hlive⟩ := List.exists_cons_of_ne_nil hne
  rw [hafter, hlive]
  rw [hlive] at htok
  have hloop := Parsing.init.loop htok htail
  rwa [← htok] at hloop

end Cs326.Prompt
