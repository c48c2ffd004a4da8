import Cs326.Shell.TokenArrays

/-!
# Quoted words and operators

What becomes of the words of a line that are written in quotes (`QuotedWord`). Where the tokenizer has not cut such a
word, it goes to `exec` with its quotes, and so as no operator, unless it is the second token: that one has lost its
quotes, and the value of a variable may stand in its place (`Second`). A word is an argument of a command only if
`execute_pipeline` gets to the command, which no `>` in front of it may prevent.
-/

namespace Cs326.Prompt

/-- The tokens with the places in the line where they begin; `off` is the place of the cursor. -/
def placedLoop : (left off : Nat) → Option CString → List (Nat × CString)
  | 0, _, _ => []
  | _, _, none => []
  | left + 1, off, some str =>
    match next_token delimiters (some str) with
    | (none, _) => []
    | (some tok, cursor) =>
      let tok_st := str.strspn delimiters
      if tok.head = hash then []
      else (off + tok_st, tok) :: placedLoop left (off + tok_st + tokEnd delimiters str + 1) cursor

/-- The tokens that `tokenizer` stores, with their places. -/
def placedTokens (str : CString) : List (Nat × CString) := placedLoop 5001 0 (some str)

/-- A `#` at the beginning of a word. -/
def Commented (u : List UInt8) : Prop :=
  ∃ a b, u = a ++ hash :: b ∧ Balanced isQuote a ∧ ∀ c ∈ a.getLast?, isDelimiter c = true

/-- `y` in quotes is a word of the line, which begins at place `o`. -/
structure QuotedWord (line : List UInt8) (o : Nat) (q : UInt8) (y : List UInt8) : Prop where
  quote : isQuote q = true
  inside : q ∉ y
  placed : ∃ u v, line = u ++ q :: (y ++ q :: v) ∧ u.length = o ∧ Balanced isQuote u ∧
    (∀ c ∈ u.getLast?, isDelimiter c = true) ∧ (∀ c ∈ v.head?, isDelimiter c = true) ∧ ¬Commented u

/-- What a word in quotes stands for: itself, with its quotes or without them, and the value of the variable that it
names. -/
inductive Stands (getenv : CString → Option CString) (q : UInt8) (y : List UInt8) (w : CString) : Prop
  | quoted : w.bytes = q :: (y ++ [q]) → Stands getenv q y w
  | bare : w.bytes = y → Stands getenv q y w
  | value {name : CString} : y = dollar :: name.bytes → getenv name = some w → Stands getenv q y w

namespace Parse

variable (st : Parse)

/-- `execute_pipeline` gets to the command. -/
def Runs (j : Nat) : Prop := ∀ i < j, (st.cmds i).stdout_pipe = true

/-- The operators in front of place `i`. -/
def before (i : Nat) : List Nat := st.operators.filter (· < i)

end Parse

/-- The place behind the last operator. -/
def behindLast (ops : List Nat) : Nat := (ops.getLast?.map (· + 1)).getD 0

/-- `w` is what the tokens have at place `i`, where it is no operator, and a word of a command that is run. -/
def AsArgument (st : Parse) (i : Nat) (w : CString) : Prop :=
  i ∉ st.operators ∧ st.Runs (st.before i).length ∧ ∃ words, (st.cmds (st.before i).length).tokens = some words ∧
    words[i - behindLast (st.before i)]? = some w

/-- The word is a token, nothing is overrun on its way to `cmds`, and what it stands for is an argument there. Blocks
hold pointers of eight bytes. -/
structure Passed (getenv : CString → Option CString) (str : CString) (toks : List CString) (st : Parse) (o : Nat)
    (q : UInt8) (y : List UInt8) : Prop where
  strips : StripsInTemp toks
  written : ∀ p ∈ st.written, p < 5000 / 8
  argument : ∃ i word w, i < toks.length ∧ (placedTokens str)[i]? = some (o, word) ∧ word.bytes = q :: (y ++ [q]) ∧
    Stands getenv q y w ∧ AsArgument st i w

/-- The second token gets through, `first` being the first one. -/
inductive Second (getenv : CString → Option CString) (first : CString) (q : UInt8) (y : List UInt8) : Prop
  /-- Nothing takes its place, it does not begin with `|` or `>` and has no further quotes inside, and the variable it
  names has no value that begins so. -/
  | text : (first.head = dollar → getenv (first.drop 1) = none) → (∀ x ∈ y.head?, x ≠ 124 ∧ x ≠ 62) →
      ¬(q = doubleQuote ∧ y.head? = some singleQuote) →
      (first.head ≠ dollar → ∀ name value, y = dollar :: name.bytes → getenv name = some value →
        operator value = false) → Second getenv first q y
  /-- The value of the first token takes its place, and is the same word. -/
  | overwritten {value : CString} : first.head = dollar → getenv (first.drop 1) = some value →
      Stands getenv q y value → operator value = false → Second getenv first q y
  /-- A variable is named in quotes inside the quotes, and its value is the word. -/
  | nested {name value : CString} {b : UInt8} : first.head ≠ dollar → q = doubleQuote →
      y = singleQuote :: dollar :: (name.bytes ++ [b]) → getenv name = some value →
      value.bytes = y ∨ value.bytes = q :: (y ++ [q]) → Second getenv first q y

/-- What the word has to be as token `i`. -/
structure Harmless (getenv : CString → Option CString) (toks : List CString) (behind : List (Option CString)) (i : Nat)
    (q : UInt8) (y : List UInt8) : Prop where
  runs : ∀ p < i, ∀ w, (operands getenv toks behind)[p]? = some w → w.startsWith gt = false
  second : i = 1 → ∀ first ∈ toks.head?, Second getenv first q y

variable {getenv : CString → Option CString} {toks cur rest : List CString} {behind : List (Option CString)}
  {str first second tok w word : CString} {after cursor : Option CString} {cmd : CommandLine} {st : Parse}
  {i o left off : Nat} {q : UInt8} {y : List UInt8}

/-! ## Operators among the words -/

theorem operator_iff : operator tok = true ↔ ∃ x, (x = 124 ∨ x = 62) ∧ ∃ r, tok.bytes = x :: r := by
  obtain ⟨bytes, h0⟩ := tok
  cases bytes with
  | nil => exact iff_of_false Bool.false_ne_true (by simp)
  | cons b bytes =>
    have hstart : operator ⟨b :: bytes, h0⟩ = ((124 : UInt8) == b || (62 : UInt8) == b) := by
      simp [operator, CString.startsWith, bar, gt, List.isPrefixOf]
    rw [hstart, Bool.or_eq_true, beq_iff_eq, beq_iff_eq]
    constructor
    · intro h
      exact ⟨b, h.imp Eq.symm Eq.symm, bytes, rfl⟩
    · rintro ⟨x, hx, r, heq⟩
      obtain rfl := (List.cons.inj heq).1
      exact hx.imp Eq.symm Eq.symm

theorem mem_operatorsOf : i ∈ operatorsOf toks ↔ ∃ tok, toks[i]? = some tok ∧ operator tok = true := by
  unfold operatorsOf
  rw [List.mem_map]
  constructor
  · rintro ⟨⟨tok, j⟩, he, rfl⟩
    obtain ⟨hmem, hop⟩ := List.mem_filter.mp he
    exact ⟨tok, List.mem_zipIdx_iff_getElem?.mp hmem, hop⟩
  · rintro ⟨tok, hget, hop⟩
    exact ⟨(tok, i), List.mem_filter.mpr ⟨List.mem_zipIdx_iff_getElem?.mpr hget, hop⟩, rfl⟩

theorem operatorsOf_append (a b : List CString) :
    operatorsOf (a ++ b) = operatorsOf a ++ (operatorsOf b).map (· + a.length) := by
  induction b using List.reverseRecOn with
  | nil => simp [operatorsOf]
  | append_singleton b t ih =>
    rw [← List.append_assoc, operatorsOf_snoc, ih, operatorsOf_snoc]
    split <;> simp [Nat.add_comm]

theorem operatorsOf_plain (hcur : ∀ w ∈ cur, operator w = false) : operatorsOf cur = [] := by
  refine List.eq_nil_iff_forall_not_mem.mpr fun i hi => ?_
  obtain ⟨tok, hget, hop⟩ := mem_operatorsOf.mp hi
  exact absurd (hcur tok (List.mem_of_getElem? hget)) (by rw [hop]; decide)

/-- The operators behind the words of a command. -/
theorem operatorsOf_command (hcur : ∀ w ∈ cur, operator w = false) (htok : operator tok = true) :
    operatorsOf (cur ++ tok :: rest) = cur.length :: (operatorsOf rest).map (· + (cur.length + 1)) := by
  have hone : operatorsOf [tok] = [0] := by
    have hsnoc := operatorsOf_snoc [] tok
    rw [htok] at hsnoc
    exact hsnoc
  rw [operatorsOf_append, operatorsOf_plain hcur, List.nil_append, ← List.singleton_append, operatorsOf_append, hone]
  simp [Function.comp_def, Nat.add_assoc, Nat.add_comm 1]

theorem behindLast_cons (n : Nat) (ops : List Nat) :
    behindLast (n :: ops.map (· + (n + 1))) = n + 1 + behindLast ops := by
  rcases List.eq_nil_or_concat ops with rfl | ⟨ops, p, rfl⟩
  · rfl
  · rw [List.concat_eq_append, List.map_append, ← List.cons_append]
    simp only [behindLast, List.map_singleton, List.getLast?_append, List.getLast?_singleton, Option.some_or,
      Option.map_some, Option.getD_some]
    omega

/-- A command whose output goes into a pipe ends with `|`. -/
theorem stdout_pipe_cons (h : commandLines after cur (tok :: rest) = cmd :: commandLines after [] rest)
    (hop : operator tok = true) : cmd.stdout_pipe = true ↔ tok.startsWith gt = false := by
  rw [commandLines] at h
  by_cases hbar : tok.startsWith bar = true
  · rw [if_pos hbar] at h
    rw [← (List.cons.inj h).1, startsWith_gt hbar]
    exact iff_of_true rfl rfl
  · have hgt : tok.startsWith gt = true := by simpa [operator, hbar] using hop
    rw [if_neg hbar, if_pos hgt] at h
    rw [← (List.cons.inj h).1, hgt]
    exact iff_of_false Bool.false_ne_true (by decide)

/-- The tokens behind the operator of the first command, by their place. -/
theorem getElem?_behind (cur rest : List CString) (tok : CString) (p : Nat) :
    (cur ++ tok :: rest)[cur.length + 1 + p]? = rest[p]? := by
  rw [List.getElem?_append_right (by omega), show cur.length + 1 + p - cur.length = p + 1 by omega]
  rfl

/-- No operator stands in front of the words of the first command. -/
theorem filter_inside {n : Nat} (hi : i < n) (ops : List Nat) :
    (n :: ops.map (· + (n + 1))).filter (· < i) = [] := by
  refine List.filter_eq_nil_iff.mpr fun p hp => ?_
  rcases List.mem_cons.mp hp with rfl | hp
  · simpa using Nat.le_of_lt hi
  · obtain ⟨p', _, rfl⟩ := List.mem_map.mp hp
    simp
    omega

/-- The operators in front of a word behind it. -/
theorem filter_behind (n i : Nat) (ops : List Nat) : (n :: ops.map (· + (n + 1))).filter (· < n + 1 + i) =
    n :: (ops.filter (· < i)).map (· + (n + 1)) := by
  rw [List.filter_cons_of_pos (by simp; omega), List.filter_map]
  congr 2
  refine List.filter_congr fun p _ => ?_
  simp only [Function.comp_apply, decide_eq_decide]
  omega

section

variable {α : Type*} {P : α → Prop} {n : Nat}

theorem forall_lt_cons {a : α} {l : List α} :
    (∀ j < n + 1, ∀ c, (a :: l)[j]? = some c → P c) ↔ P a ∧ ∀ j < n, ∀ c, l[j]? = some c → P c := by
  constructor
  · intro h
    exact ⟨h 0 (Nat.succ_pos n) a rfl, fun j hj => h (j + 1) (Nat.succ_lt_succ hj)⟩
  · rintro ⟨ha, h⟩ (_ | j) hj c hc
    · obtain rfl := Option.some.inj hc
      exact ha
    · exact h j (Nat.lt_of_succ_lt_succ hj) c hc

theorem forall_lt_append {l l' : List α} (hl : ∀ a ∈ l, P a) :
    (∀ j < l.length + n, ∀ c, (l ++ l')[j]? = some c → P c) ↔ ∀ j < n, ∀ c, l'[j]? = some c → P c := by
  constructor
  · intro h j hj c hc
    refine h (l.length + j) (by omega) c ?_
    rwa [List.getElem?_append_right (Nat.le_add_right _ _), Nat.add_sub_cancel_left]
  · intro h j hj c hc
    rcases Nat.lt_or_ge j l.length with hlt | hge
    · rw [List.getElem?_append_left hlt] at hc
      exact hl c (List.mem_of_getElem? hc)
    · rw [List.getElem?_append_right hge] at hc
      exact h (j - l.length) (by omega) c hc

end

/-- **Where a word goes**: with as many operators in front of it as there are commands in front of its own. -/
theorem placed_commandLines (after : Option CString) (hcur : ∀ w ∈ cur, operator w = false)
    (hw : (cur ++ toks)[i]? = some w) (hop : operator w = false) :
    (∃ cmd words, (commandLines after cur toks)[((operatorsOf (cur ++ toks)).filter (· < i)).length]? = some cmd ∧
      cmd.tokens = some words ∧ words[i - behindLast ((operatorsOf (cur ++ toks)).filter (· < i))]? = some w) ∧
    ((∀ j < ((operatorsOf (cur ++ toks)).filter (· < i)).length, ∀ cmd, (commandLines after cur toks)[j]? = some cmd →
        cmd.stdout_pipe = true) ↔
      ∀ p < i, ∀ v, (cur ++ toks)[p]? = some v → v.startsWith gt = false) := by
  have hplain : ∀ {v : CString}, operator v = false → v.startsWith gt = false := by
    intro v hv
    exact (Bool.or_eq_false_iff.mp hv).2
  induction toks generalizing cur i with
  | nil =>
    rw [List.append_nil] at hw
    rw [List.append_nil, operatorsOf_plain hcur]
    refine ⟨⟨_, cur, rfl, rfl, hw⟩, iff_of_true (fun j hj => absurd hj (Nat.not_lt_zero j)) fun p _ v hv => ?_⟩
    exact hplain (hcur v (List.mem_of_getElem? hv))
  | cons tok rest ih =>
    rcases commandLines_cons after cur tok rest with ⟨htok, heq⟩ | ⟨htok, cmd, heq, htokens⟩
    · have hcur' : ∀ w ∈ cur ++ [tok], operator w = false := by
        simpa [or_imp, forall_and] using ⟨hcur, htok⟩
      have hsplit : cur ++ tok :: rest = cur ++ [tok] ++ rest := by simp
      rw [heq, hsplit]
      exact ih hcur' (hsplit ▸ hw)
    · rw [heq, operatorsOf_command hcur htok]
      rcases Nat.lt_trichotomy i cur.length with hlt | rfl | hgt
      · -- in front of the operator
        rw [filter_inside hlt]
        rw [List.getElem?_append_left hlt] at hw
        refine ⟨⟨cmd, _, rfl, htokens, ?_⟩, iff_of_true (fun j hj => absurd hj (Nat.not_lt_zero j)) fun p hp v hv => ?_⟩
        · split
          · exact hw
          · exact (List.getElem?_append_left hlt).trans hw
        · rw [List.getElem?_append_left (hp.trans hlt)] at hv
          exact hplain (hcur v (List.mem_of_getElem? hv))
      · rw [List.getElem?_append_right (Nat.le_refl _), Nat.sub_self] at hw
        obtain rfl := Option.some.inj hw
        cases hop.symm.trans htok
      · -- behind it
        obtain ⟨i, rfl⟩ := Nat.exists_eq_add_of_le hgt
        have hw' : (([] : List CString) ++ rest)[i]? = some w := (getElem?_behind cur rest tok i).symm.trans hw
        obtain ⟨⟨cmd', words, hcmd, hwords, hget⟩, hiff⟩ := ih (by simp) hw'
        rw [filter_behind, behindLast_cons, List.length_cons, List.length_map]
        refine ⟨⟨cmd', words, hcmd, hwords, ?_⟩, ?_⟩
        · rw [Nat.add_sub_add_left]
          exact hget
        · rw [List.nil_append] at hiff
          rw [show cur.length.succ + i = cur.length + (i + 1) by omega,
            forall_lt_append fun v hv => hplain (hcur v hv), forall_lt_cons, forall_lt_cons,
            stdout_pipe_cons heq htok, hiff]

/-- **What becomes of a token** at `exec`. -/
theorem asArgument_iff (hne : toks ≠ []) (hw : (operands getenv toks behind)[i]? = some w) :
    AsArgument (exec getenv (argumentsOf toks behind)) i word ↔ word = w ∧ operator w = false ∧
      ∀ p < i, ∀ v, (operands getenv toks behind)[p]? = some v → v.startsWith gt = false := by
  obtain ⟨after, hparsed⟩ := exec_parsed getenv behind hne
  have hmem : i ∉ (exec getenv (argumentsOf toks behind)).operators ↔ operator w = false := by
    rw [hparsed.operators, mem_operatorsOf, hw, ← Bool.not_eq_true]
    simp
  unfold AsArgument Parse.Runs Parse.before
  rw [hmem]
  generalize operands getenv toks behind = ops at *
  have hw' : (([] : List CString) ++ ops)[i]? = some w := hw
  constructor
  · rintro ⟨hop, hruns, words, hwords, hget⟩
    obtain ⟨⟨cmd, words', hcmd, hwords', hget'⟩, hiff⟩ := placed_commandLines after (by simp) hw' hop
    rw [hparsed.operators, hparsed.cmds] at *
    rw [List.nil_append] at *
    rw [cmdsOf, hcmd, Option.getD_some, hwords'] at hwords
    obtain rfl := Option.some.inj hwords
    refine ⟨Option.some.inj (hget.symm.trans hget'), hop, hiff.mp fun j hj c hc => ?_⟩
    have hpipe := hruns j hj
    rwa [cmdsOf, hc] at hpipe
  · rintro ⟨rfl, hop, hgt⟩
    obtain ⟨⟨cmd, words, hcmd, hwords, hget⟩, hiff⟩ := placed_commandLines after (by simp) hw' hop
    rw [List.nil_append] at *
    rw [hparsed.operators, hparsed.cmds]
    refine ⟨hop, fun j hj => ?_, words, ?_, hget⟩
    · have hlt := Nat.lt_trans hj (List.getElem?_eq_some_iff.mp hcmd).1
      rw [cmdsOf, List.getElem?_eq_getElem hlt]
      exact hiff.mpr hgt j hj _ (List.getElem?_eq_getElem hlt)
    · rw [cmdsOf, hcmd]
      exact hwords

/-! ## The second token -/

theorem isQuote_iff : isQuote q = true ↔ q = singleQuote ∨ q = doubleQuote := by
  simp [isQuote, quotes, singleQuote, doubleQuote]

/-- The text of a word in quotes. -/
theorem stripQuotes_quoted (hq : isQuote q = true) (hsecond : second.bytes = q :: (y ++ [q])) :
    (stripQuotes second).bytes =
      if q = doubleQuote ∧ y.head? = some singleQuote then (y.drop 1).dropLast else y := by
  have hinner : ∀ {p : UInt8} {t : CString}, t.bytes = p :: (y ++ [p]) → (stripQuote p t).bytes = y := by
    intro p t ht
    rw [stripQuote_bytes, if_pos (by rw [CString.head, ht]; rfl), ht, List.drop_one, List.tail_cons,
      List.dropLast_concat]
  rcases isQuote_iff.mp hq with rfl | rfl
  · have hkeep : stripQuote doubleQuote second = second :=
      CString.ext_bytes ((stripQuote_bytes ..).trans (if_neg (by rw [CString.head, hsecond, List.headD_cons]; decide)))
    rw [stripQuotes, hkeep, if_neg (fun h => absurd h.1 (by decide))]
    exact hinner hsecond
  · rw [stripQuotes, stripQuote_bytes, CString.head, hinner hsecond]
    cases y with
    | nil => rfl
    | cons b y => simp

/-- The text of a word in quotes is the word, and no operator. -/
theorem text_iff (hq : isQuote q = true) (hinside : q ∉ y)
    (hstrip : w.bytes = if q = doubleQuote ∧ y.head? = some singleQuote then (y.drop 1).dropLast else y) :
    Stands getenv q y w ∧ operator w = false ↔
      (∀ x ∈ y.head?, x ≠ 124 ∧ x ≠ 62) ∧ ¬(q = doubleQuote ∧ y.head? = some singleQuote) := by
  have hop : w.bytes = y → (operator w = false ↔ ∀ x ∈ y.head?, x ≠ 124 ∧ x ≠ 62) := by
    intro hbytes
    rw [← Bool.not_eq_true, operator_iff, hbytes]
    cases y with
    | nil => simp
    | cons b y => simp [not_or]
  split at hstrip
  · rename_i hin
    refine iff_of_false (fun h => ?_) fun h => h.2 hin
    obtain ⟨rfl, hhead⟩ := hin
    cases y with
    | nil => cases hhead
    | cons b y =>
      obtain rfl : b = singleQuote := Option.some.inj hhead
      -- what is left is shorter than the word
      have hlen : w.bytes.length < (singleQuote :: y).length := by
        rw [hstrip, List.drop_one, List.tail_cons, List.length_dropLast, List.length_cons]
        omega
      cases h.1 with
      | quoted hw => rw [hw] at hlen; simp at hlen; omega
      | bare hw => rw [hw] at hlen; exact absurd hlen (Nat.lt_irrefl _)
      | value hname => cases (List.cons.inj hname).1
  · rename_i hin
    rw [hop hstrip]
    exact ⟨fun h => ⟨h.2, hin⟩, fun h => ⟨.bare hstrip, h.1⟩⟩

/-- A text that begins with a quote. -/
theorem operator_of_head (hq : isQuote q = true) (hhead : w.head = q) : operator w = false := by
  refine Bool.eq_false_iff.mpr fun hop => ?_
  obtain ⟨x, hx, r, hr⟩ := operator_iff.mp hop
  rw [CString.head, hr] at hhead
  obtain rfl : x = q := hhead
  rcases hx with rfl | rfl <;> cases hq

/-- The name behind a `$`. -/
theorem bytes_of_dollar (h : w.head = dollar) : w.bytes = dollar :: (w.drop 1).bytes := by
  rw [CString.head] at h
  show w.bytes = dollar :: w.bytes.drop 1
  cases hb : w.bytes with
  | nil => rw [hb] at h; cases h
  | cons b bytes => rw [hb] at h; rw [show b = dollar from h]; rfl

section

variable {name value : CString} {b : UInt8}

/-- The first token names a variable. -/
theorem second_of_variable (hq : isQuote q = true) (hinside : q ∉ y) (hfirst : first.head = dollar)
    (hstrip : w.bytes = if q = doubleQuote ∧ y.head? = some singleQuote then (y.drop 1).dropLast else y) :
    Stands getenv q y ((getenv (first.drop 1)).getD w) ∧ operator ((getenv (first.drop 1)).getD w) = false ↔
      Second getenv first q y := by
  cases hv : getenv (first.drop 1) with
  | some value =>
    rw [Option.getD_some]
    constructor
    · rintro ⟨hs, hop⟩
      exact .overwritten hfirst hv hs hop
    · intro h
      cases h with
      | text hnone => cases hv.symm.trans (hnone hfirst)
      | overwritten _ hv' hs hop =>
        obtain rfl := Option.some.inj (hv.symm.trans hv')
        exact ⟨hs, hop⟩
      | nested hno => exact absurd hfirst hno
  | none =>
    rw [Option.getD_none, text_iff hq hinside hstrip]
    constructor
    · rintro ⟨hop, hin⟩
      exact .text (fun _ => hv) hop hin fun hno => absurd hfirst hno
    · intro h
      cases h with
      | text _ hop hin => exact ⟨hop, hin⟩
      | overwritten _ hv' => cases hv.symm.trans hv'
      | nested hno => exact absurd hfirst hno

/-- The second one names a variable in quotes inside the quotes. -/
theorem second_of_nested (hfirst : first.head ≠ dollar) (hv : getenv name = some value)
    (hy : y = singleQuote :: dollar :: (name.bytes ++ [b])) :
    Stands getenv doubleQuote y value ∧ operator value = false ↔ Second getenv first doubleQuote y := by
  constructor
  · rintro ⟨hs, _⟩
    refine .nested hfirst rfl hy hv ?_
    cases hs with
    | quoted hw => exact .inr hw
    | bare hw => exact .inl hw
    | value hw => rw [hy] at hw; cases (List.cons.inj hw).1
  · intro h
    cases h with
    | text _ _ hin => exact absurd ⟨rfl, by rw [hy]; rfl⟩ hin
    | overwritten hyes => exact absurd hyes hfirst
    | @nested name' value' b' _ _ hy' hv' hw =>
      have hbytes := (List.cons.inj (List.cons.inj (hy.symm.trans hy')).2).2
      obtain rfl : name = name' := CString.ext_bytes (List.append_inj' hbytes rfl).1
      obtain rfl := Option.some.inj (hv.symm.trans hv')
      rcases hw with hw | hw
      · exact ⟨.bare hw, operator_of_head (q := singleQuote) rfl (by rw [CString.head, hw, hy]; rfl)⟩
      · exact ⟨.quoted hw, operator_of_head (q := doubleQuote) rfl (by rw [CString.head, hw]; rfl)⟩

/-- It names a variable. -/
theorem second_of_named (hfirst : first.head ≠ dollar) (hv : getenv name = some value)
    (hy : y = dollar :: name.bytes) :
    Stands getenv q y value ∧ operator value = false ↔ Second getenv first q y := by
  constructor
  · rintro ⟨_, hop⟩
    refine .text (fun hyes => absurd hyes hfirst) ?_ ?_ fun _ name' value' hy' hv' => ?_
    · rw [hy]
      rintro x ⟨⟩
      decide
    · rintro ⟨_, hsingle⟩
      rw [hy] at hsingle
      cases hsingle
    · obtain rfl : name = name' := CString.ext_bytes (List.cons.inj (hy.symm.trans hy')).2
      obtain rfl := Option.some.inj (hv.symm.trans hv')
      exact hop
  · intro h
    cases h with
    | text _ _ _ hop => exact ⟨.value hy hv, hop hfirst name value hy hv⟩
    | overwritten hyes => exact absurd hyes hfirst
    | nested _ _ hy' =>
      rw [hy] at hy'
      cases (List.cons.inj hy').1

/-- It names nothing. -/
theorem second_of_text (hq : isQuote q = true) (hinside : q ∉ y) (hfirst : first.head ≠ dollar)
    (hstrip : w.bytes = if q = doubleQuote ∧ y.head? = some singleQuote then (y.drop 1).dropLast else y)
    (hnone : ∀ name : CString, w.bytes = dollar :: name.bytes → getenv name = none) :
    Stands getenv q y w ∧ operator w = false ↔ Second getenv first q y := by
  rw [text_iff hq hinside hstrip]
  constructor
  · rintro ⟨hop, hin⟩
    refine .text (fun hyes => absurd hyes hfirst) hop hin fun _ name value hy hv => ?_
    rw [if_neg hin, hy] at hstrip
    cases (hnone name hstrip).symm.trans hv
  · intro h
    cases h with
    | text _ hop hin => exact ⟨hop, hin⟩
    | overwritten hyes => exact absurd hyes hfirst
    | nested _ hdouble hy hv =>
      rw [hy, if_pos ⟨hdouble, rfl⟩, List.drop_one, List.tail_cons, ← List.cons_append, List.dropLast_concat] at hstrip
      cases (hnone _ hstrip).symm.trans hv

end

/-- **The second token** of the operands. -/
theorem second_iff (hq : isQuote q = true) (hinside : q ∉ y) (hsecond : second.bytes = q :: (y ++ [q]))
    (h1 : (operands getenv (first :: second :: rest) behind)[1]? = some w) :
    Stands getenv q y w ∧ operator w = false ↔ Second getenv first q y := by
  obtain rfl := Option.some.inj (operands_one.symm.trans h1)
  have hstrip := stripQuotes_quoted hq hsecond
  by_cases hfirst : first.head = dollar
  · rw [if_pos hfirst]
    exact second_of_variable hq hinside hfirst hstrip
  · rw [if_neg hfirst]
    by_cases hvalue : (stripQuotes second).head = dollar ∧ (getenv ((stripQuotes second).drop 1)).isSome = true
    · obtain ⟨hhead, hsome⟩ := hvalue
      obtain ⟨value, hv⟩ := Option.isSome_iff_exists.mp hsome
      rw [if_pos hhead, hv, Option.getD_some]
      rw [bytes_of_dollar hhead] at hstrip
      split at hstrip
      · rename_i hin
        obtain ⟨rfl, hsingle⟩ := hin
        obtain ⟨z, rfl⟩ : ∃ z, y = singleQuote :: z := by
          cases y with
          | nil => cases hsingle
          | cons c z => exact ⟨z, by rw [Option.some.inj hsingle]⟩
        rw [List.drop_one, List.tail_cons] at hstrip
        have hz : z ≠ [] := by
          rintro rfl
          cases hstrip
        refine second_of_nested (b := z.getLast hz) hfirst hv ?_
        rw [← List.cons_append, hstrip, List.dropLast_append_getLast]
      · exact second_of_named hfirst hv hstrip.symm
    · have hnone : ∀ name : CString, (stripQuotes second).bytes = dollar :: name.bytes → getenv name = none := by
        intro name hname
        have hhead : (stripQuotes second).head = dollar := by rw [CString.head, hname]; rfl
        have hdrop : (stripQuotes second).drop 1 = name := CString.ext_bytes (congrArg (List.drop 1) hname)
        exact Option.not_isSome_iff_eq_none.mp fun hsome => hvalue ⟨hhead, hdrop.symm ▸ hsome⟩
      have hkeep : (if (stripQuotes second).head = dollar then
          (getenv ((stripQuotes second).drop 1)).getD (stripQuotes second) else stripQuotes second) =
            stripQuotes second := by
        split
        · rename_i hhead
          rw [hnone _ (bytes_of_dollar hhead), Option.getD_none]
        · rfl
      rw [hkeep]
      exact second_of_text hq hinside hfirst hstrip hnone

/-! ## The tokens and their places -/

theorem map_snd_placedLoop (left off : Nat) (cursor : Option CString) :
    (placedLoop left off cursor).map Prod.snd = tokenLoop left cursor := by
  induction left generalizing off cursor with
  | zero => rfl
  | succ left ih =>
    cases cursor with
    | none => rfl
    | some str =>
      rw [placedLoop, tokenLoop]
      rcases next_token delimiters (some str) with ⟨_ | tok, cursor⟩
      · rfl
      · dsimp only
        split
        · rfl
        · rw [List.map_cons, ih]

/-- The tokens of a command, typed or replayed. -/
theorem prefix_of_command (h : toks = tokens str ∨ ∃ bg, command (tokens str) = some ⟨toks, bg⟩) :
    toks <+: stored str := by
  have htokens : tokens str <+: stored str := by
    unfold tokens
    split
    · exact List.prefix_refl _
    · exact List.nil_prefix
  rcases h with rfl | ⟨bg, hc⟩
  · exact htokens
  · refine List.IsPrefix.trans ?_ htokens
    obtain ⟨first, rest, hne⟩ := List.exists_cons_of_ne_nil (command_ne_none hc)
    rw [hne] at hc ⊢
    have hcmd := Option.some.inj hc
    split at hcmd
    · rw [← (Command.mk.inj hcmd).1]
      exact List.dropLast_prefix _
    · exact (Command.mk.inj hcmd).1 ▸ List.prefix_refl _

/-- **A word that the tokenizer has not cut.** -/
theorem argument_iff (behind : List (Option CString)) (hq : isQuote q = true) (hinside : q ∉ y)
    (htok : toks[i]? = some tok) (hword : tok.bytes = q :: (y ++ [q])) :
    (∃ w, Stands getenv q y w ∧ AsArgument (exec getenv (argumentsOf toks behind)) i w) ↔
      Harmless getenv toks behind i q y := by
  have hi : i < toks.length := (List.getElem?_eq_some_iff.mp htok).1
  have hne : toks ≠ [] := List.ne_nil_of_length_pos (Nat.zero_lt_of_lt hi)
  obtain ⟨w, hw⟩ : ∃ w, (operands getenv toks behind)[i]? = some w :=
    ⟨_, List.getElem?_eq_getElem (Nat.lt_of_lt_of_le hi length_le_operands)⟩
  simp only [asArgument_iff hne hw]
  have hkey : Stands getenv q y w ∧ operator w = false ↔ (i = 1 → ∀ first ∈ toks.head?, Second getenv first q y) := by
    by_cases h1 : i = 1
    · subst h1
      obtain ⟨first, second, rest, rfl⟩ : ∃ first second rest, toks = first :: second :: rest := by
        match toks, htok with
        | first :: second :: rest, _ => exact ⟨first, second, rest, rfl⟩
      obtain rfl := Option.some.inj htok
      rw [second_iff hq hinside hword hw]
      simp
    · rw [operands_of_ne_one hi h1, htok] at hw
      obtain rfl := Option.some.inj hw
      refine iff_of_true ⟨.quoted hword, ?_⟩ fun h => absurd h h1
      refine Bool.eq_false_iff.mpr fun hop => ?_
      obtain ⟨x, hx, r, hr⟩ := operator_iff.mp hop
      obtain rfl := (List.cons.inj (hr.symm.trans hword)).1
      rcases hx with rfl | rfl <;> cases hq
  constructor
  · rintro ⟨w', hs, rfl, hop, hruns⟩
    exact ⟨hruns, hkey.mp ⟨hs, hop⟩⟩
  · rintro ⟨hruns, hsecond⟩
    obtain ⟨hs, hop⟩ := hkey.mpr hsecond
    exact ⟨w, hs, rfl, hop, hruns⟩

/-- The line `echo "x" 'a b'`. -/
def quotedLine : CString := literal ['e', 'c', 'h', 'o', ' ', '"', 'x', '"', ' ', '\'', 'a', ' ', 'b', '\'']

/-- Its tokens. -/
def quotedTokens : List CString :=
  [literal ['e', 'c', 'h', 'o'], literal ['"', 'x', '"'], literal ['\'', 'a', ' ', 'b', '\'']]

theorem placedTokens_quotedLine : placedTokens quotedLine = [0, 5, 9].zip quotedTokens := by decide

theorem operands_quotedTokens : operands (fun _ => none) quotedTokens [] =
    [literal ['e', 'c', 'h', 'o'], literal ['x'], literal ['\'', 'a', ' ', 'b', '\'']] := by decide

/-- The quotes of a word stand where it begins and ends. -/
theorem QuotedWord.ends {text : List UInt8} (h : QuotedWord text o q y) :
    text[o]? = some q ∧ text[o + 1 + y.length]? = some q ∧ y = (text.drop (o + 1)).take y.length := by
  obtain ⟨u, v, rfl, rfl, _⟩ := h.placed
  refine ⟨by simp, ?_, ?_⟩
  · rw [List.getElem?_append_right (by omega), show u.length + 1 + y.length - u.length = y.length + 1 by omega]
    simp
  · rw [List.drop_length_add_append, List.drop_one, List.tail_cons, List.take_left]

/-- The words in quotes of the line. -/
theorem quotedWord_quotedLine (h : QuotedWord quotedLine.bytes o q y) :
    o = 5 ∧ q = doubleQuote ∧ y = chars ['x'] ∨ o = 9 ∧ q = singleQuote ∧ y = chars ['a', ' ', 'b'] := by
  obtain ⟨hfirst, hlast, hy⟩ := h.ends
  have hlt : o + 1 + y.length < 14 := (List.getElem?_eq_some_iff.mp hlast).1
  have hfinite : ((List.range 14).all fun o => (List.range 14).all fun n => quotes.all fun q => decide
      (quotedLine.bytes[o]? = some q ∧ quotedLine.bytes[o + 1 + n]? = some q →
        o = 5 ∧ n = 1 ∧ q = 34 ∨ o = 9 ∧ n = 3 ∧ q = 39)) = true := by decide
  have hq : q ∈ quotes := by simpa [isQuote] using h.quote
  have hn := List.all_eq_true.mp (List.all_eq_true.mp hfinite o (List.mem_range.mpr (by omega))) y.length
    (List.mem_range.mpr (by omega))
  rcases of_decide_eq_true (List.all_eq_true.mp hn q hq) ⟨hfirst, hlast⟩ with ⟨rfl, hn, rfl⟩ | ⟨rfl, hn, rfl⟩
  · exact .inl ⟨rfl, rfl, by rw [hy, hn]; rfl⟩
  · exact .inr ⟨rfl, rfl, by rw [hy, hn]; rfl⟩

end Cs326.Prompt
