import Cs326.Lib.Fallible
import Cs326.Lib.Run
import Cs326.Shell.History
import Cs326.Shell.Tokenizer

/-!
# Lines at the prompt

What `main` does with a line before it looks at the command: the tokens, the `&` at the end, the history references
`!!`, `!n` and `!prefix`, and the recording. Of what the command itself does only `exit` counts here, which ends the
shell; every other command leaves the history and the counters alone.

Not all that is undefined in C stops the model. Where a copy overruns its block, where `tokens` is overrun and where a
block is read that was never written, it notes so (`Undefined`) and goes on, with the copied text whole and with
`Env.unwritten` for what the block holds.
-/

namespace Cs326.Prompt

/-- `!`. -/
def bang : UInt8 := 33

/-- The token `&`. -/
def ampersand : CString := ⟨[38], by decide⟩

/-- The token `exit`. -/
def exitToken : CString := literal ['e', 'x', 'i', 't']

inductive Undefined
  /-- A block is read that was never written. -/
  | unwritten
  /-- An array or an allocated block is written past its end. -/
  | overrun
  deriving DecidableEq

/-- What C leaves open in a step. -/
structure Env where
  /-- The string in a block that was never written. -/
  unwritten : CString
  /-- The value of `atoi` where the number is no `int`. -/
  atoi : Int

/-- The history, the global `num_cmds`, and two ghosts: the texts recorded so far and what was undefined so far. -/
structure Session where
  history : History
  num_cmds : Nat
  commands : List CString
  undefined : List Undefined

/-- The tokens at the built-in commands and at `exec`, and `isBackground`. -/
structure Command where
  tokens : List CString
  isBackground : Bool
  deriving DecidableEq

/-- The kinds of `tokens[0]` with `!` in front. -/
inductive Reference
  | last
  | number (digits : CString)
  | find (cmd : CString)
  deriving DecidableEq

namespace Session

variable (s : Session)

/-- When the shell starts. -/
def init : Session := ⟨.init, 0, [], []⟩

def note (u : Undefined) : Session := { s with undefined := s.undefined ++ [u] }

/-- `strcpy` of `text` into `size` bytes. -/
def copy (size : Nat) (text : CString) : Session := if text.length < size then s else s.note .overrun

def counted : Session := { s with num_cmds := s.num_cmds + 1 }

/-- `num_cmds++`. -/
def increment : Except Fault Session := if s.num_cmds = INT_MAX then .error .overflow else .ok s.counted

/-- `add_history(text)`. -/
def record (text : CString) : Except Fault Session := do
  let history ← s.history.add_history text
  pure { s.copy 100000 text with history, commands := s.commands ++ [text] }

/-- A line that begins with `#` is recorded by `tokenizer`. -/
def comment (str : CString) : Except Fault Session :=
  if str.head = hash then do (← s.increment).record str else pure s

/-- `tokenizer` of `shell.c`. -/
def tokenizer (str : CString) : Except Fault (Session × List CString) := do
  let s ← s.comment str
  pure (if (stored str).length < 5000 then s else s.note .overrun, tokens str)

end Session

/-- `isEmpty`, `isBackground` and the tokens without the `&`. -/
def command : List CString → Option Command
  | [] => none
  | toks => some (if toks.getLast? = some ampersand then ⟨toks.dropLast, true⟩ else ⟨toks, false⟩)

/-- The branches under `tokens[0][0] == '!'`. -/
def reference (first : CString) : Reference :=
  if (first.drop 1).head = bang then .last
  else if isdigit (first.drop 1).head then .number (first.drop 1)
  else .find (first.drop 1)

def atoi (env : Env) (digits : CString) : Int := if digits.decimal ≤ INT_MAX then digits.decimal else env.atoi

/-- `hisStr`, the counter `num_cmds` having been incremented for the line. -/
def hisStr (env : Env) (s : Session) : Reference → Option CString
  | .last => s.history.get_cmd (s.num_cmds - 2)
  | .number digits => s.history.get_cmd (atoi env digits)
  | .find cmd => s.history.find_cmd cmd

/-- The block that `find_cmd` copies its result to has `sizeof(char *) + 1` bytes. -/
def Session.found (s : Session) (text : CString) : Reference → Session
  | .find _ => s.copy 9 text
  | _ => s

/-- From the test of `tokens[0][1]` to `add_history(hisTemp)`. -/
def expand (env : Env) (s : Session) (ref : Reference) (toks : List CString) :
    Except Fault (Session × List CString) :=
  match hisStr env s ref, ref with
  -- `strcpy(hisTemp, hisStr)` is in front of the test of `hisStr`
  | none, .last => .error .null
  -- `hisTemp` is allocated and not written
  | none, _ => do
    let s ← (s.note .unwritten).record env.unwritten
    pure (s, toks)
  | some text, ref => do
    let (s, toks) ← ((s.found text ref).copy 8 text).tokenizer text
    let s ← s.record text
    pure (s, toks)

/-- From the test of `tokens[0][0]` to `add_history(command_char)`. -/
def remember (env : Env) (s : Session) (line first : CString) (toks : List CString) :
    Except Fault (Session × List CString) :=
  if first.head = bang then expand env s (reference first) toks
  else do
    let s ← s.record line
    pure (s, toks)

/-- The body of the loop of `main` up to the test for `exit`. -/
def read_command (env : Env) (s : Session) (line : CString) : Except Fault (Session × Option Command) := do
  let (s, toks) ← s.tokenizer line
  match command toks with
  | none => pure (s, none)
  | some cmd =>
    let s ← s.increment
    match cmd.tokens with
    | [] => .error .null
    | first :: _ =>
      let (s, toks) ← remember env s line first cmd.tokens
      -- `strcmp(tokens[0], "exit")`
      if toks = [] then .error .null else pure (s, some ⟨toks, cmd.isBackground⟩)

/-- A command that does not end the shell. -/
def Continues (cmd : Option Command) : Prop := ∀ c, cmd = some c → c.tokens.head? ≠ some exitToken

/-- One line typed at the prompt, up to the next prompt. -/
def Step (s : Session) (lines : List CString) (s' : Session) : Prop :=
  ∃ env line cmd, lines = [line] ∧ read_command env s line = .ok (s', cmd) ∧ Continues cmd

/-- The shell has read the lines and is at the prompt with the session `s`. -/
def Reaches (lines : List CString) (s : Session) : Prop := Run Step .init lines s

/-! ## What a line does -/

variable {env : Env} {s s' : Session} {line text str first : CString} {toks toks' rest : List CString}
  {cmd : Option Command} {c : Command} {ref : Reference} {n : Nat} {u : Undefined}

namespace Session

@[simp] theorem copy_history : (s.copy n text).history = s.history := by
  unfold copy; split <;> rfl

@[simp] theorem copy_num_cmds : (s.copy n text).num_cmds = s.num_cmds := by
  unfold copy; split <;> rfl

@[simp] theorem copy_commands : (s.copy n text).commands = s.commands := by
  unfold copy; split <;> rfl

theorem copy_undefined : (s.copy n text).undefined = s.undefined ++ if text.length < n then [] else [.overrun] := by
  unfold copy
  split
  · rw [List.append_nil]
  · rfl

@[simp] theorem found_history : (s.found text ref).history = s.history := by
  cases ref <;> simp [found]

@[simp] theorem found_num_cmds : (s.found text ref).num_cmds = s.num_cmds := by
  cases ref <;> simp [found]

@[simp] theorem found_commands : (s.found text ref).commands = s.commands := by
  cases ref <;> simp [found]

@[simp] theorem counted_history : s.counted.history = s.history := rfl

@[simp] theorem counted_num_cmds : s.counted.num_cmds = s.num_cmds + 1 := rfl

@[simp] theorem counted_commands : s.counted.commands = s.commands := rfl

@[simp] theorem counted_undefined : s.counted.undefined = s.undefined := rfl

theorem increment_eq_ok : s.increment = .ok s' ↔ s.num_cmds ≠ INT_MAX ∧ s' = s.counted := by
  unfold increment
  split
  · rename_i heq
    simp [heq]
  · rename_i hne
    simp [hne, eq_comm]

theorem record_eq_ok : s.record text = .ok s' ↔ ∃ h', s.history.add_history text = .ok h' ∧
    s' = { s.copy 100000 text with history := h', commands := s.commands ++ [text] } := by
  unfold record
  rw [bind_eq_ok]
  simp [eq_comm]

/-- A text with tokens leaves nothing behind in the session. -/
theorem tokenizer_of_ne_nil (htok : tokens str ≠ []) : s.tokenizer str = .ok (s, tokens str) := by
  have hhash : str.head ≠ hash := fun hh => htok (tokens_of_hash hh)
  have hstored : (stored str).length < 5000 := by
    by_contra hge
    exact htok (if_neg hge)
  unfold tokenizer comment
  rw [if_neg hhash, pure_ok, ok_bind, if_pos hstored]
  rfl

/-- **What `tokenizer` does**: it records a comment line, and it may overrun `tokens`. -/
theorem tokenizer_cases (ht : s.tokenizer str = .ok (s', toks)) : toks = tokens str ∧
    ∃ s₁, (s₁ = s ∨ s.counted.record str = .ok s₁) ∧ (s' = s₁ ∨ s' = s₁.note .overrun) := by
  unfold tokenizer comment at ht
  obtain ⟨s₁, hc, ht⟩ := bind_ok ht
  obtain ⟨hs', htoks⟩ := Prod.mk.inj (Except.ok.inj ht)
  refine ⟨htoks.symm, s₁, ?_, ?_⟩
  · split at hc
    · obtain ⟨s₂, hi, hr⟩ := bind_ok hc
      obtain ⟨_, rfl⟩ := increment_eq_ok.mp hi
      exact .inr hr
    · exact .inl (Except.ok.inj hc).symm
  · split at hs'
    · exact .inl hs'.symm
    · exact .inr hs'.symm

end Session

/-- **What a line does**, one case for each way through the loop of `main`. -/
inductive Reads (env : Env) (s : Session) (line : CString) : Session → Option Command → Prop
  | empty {s' : Session} : tokens line = [] → s.tokenizer line = .ok (s', []) → Reads env s line s' none
  | typed {s' : Session} {c : Command} {first : CString} {rest : List CString} :
      command (tokens line) = some c → c.tokens = first :: rest → s.num_cmds ≠ INT_MAX → first.head ≠ bang →
      s.counted.record line = .ok s' → Reads env s line s' (some c)
  | unmatched {s' : Session} {c : Command} {first : CString} {rest : List CString} :
      command (tokens line) = some c → c.tokens = first :: rest → s.num_cmds ≠ INT_MAX → first.head = bang →
      hisStr env s.counted (reference first) = none → reference first ≠ .last →
      (s.counted.note .unwritten).record env.unwritten = .ok s' → Reads env s line s' (some c)
  | expanded {s' : Session} {c : Command} {first text : CString} {rest : List CString} :
      command (tokens line) = some c → c.tokens = first :: rest → s.num_cmds ≠ INT_MAX → first.head = bang →
      hisStr env s.counted (reference first) = some text → tokens text ≠ [] →
      ((s.counted.found text (reference first)).copy 8 text).record text = .ok s' →
      Reads env s line s' (some ⟨tokens text, c.isBackground⟩)

/-- The line is no reference. -/
def Plain (line : CString) : Prop := ∀ first, (tokens line).head? = some first → first.head ≠ bang

theorem command_ne_none (hc : command toks = some c) : toks ≠ [] := by
  rintro rfl
  cases hc

/-- The branch for a reference, where it leaves a first token. -/
theorem expand_eq_ok : expand env s ref toks = .ok (s', toks') ∧ toks' ≠ [] ↔
    (hisStr env s ref = none ∧ ref ≠ .last ∧ (s.note .unwritten).record env.unwritten = .ok s' ∧ toks' = toks ∧
      toks ≠ []) ∨
    ∃ text, hisStr env s ref = some text ∧ tokens text ≠ [] ∧
      ((s.found text ref).copy 8 text).record text = .ok s' ∧ toks' = tokens text := by
  unfold expand
  cases hs : hisStr env s ref with
  | none =>
    simp only [reduceCtorEq, false_and, exists_false, or_false, true_and]
    cases ref with
    | last => simp
    | number | find =>
      simp only [bind_eq_ok, pure_ok, Except.ok.injEq, Prod.mk.injEq, ne_eq, reduceCtorEq, not_false_eq_true, true_and]
      constructor
      · rintro ⟨⟨_, hr, rfl, rfl⟩, hne⟩
        exact ⟨hr, rfl, hne⟩
      · rintro ⟨hr, rfl, hne⟩
        exact ⟨⟨_, hr, rfl, rfl⟩, hne⟩
  | some text =>
    simp only [reduceCtorEq, false_and, false_or, Option.some.injEq, exists_eq_left', bind_eq_ok, pure_ok,
      Except.ok.injEq, Prod.mk.injEq]
    constructor
    · rintro ⟨⟨⟨s₁, toks₁⟩, ht, s₂, hr, rfl, rfl⟩, hne⟩
      obtain ⟨rfl, _⟩ := Session.tokenizer_cases ht
      rw [Session.tokenizer_of_ne_nil hne] at ht
      obtain ⟨rfl, _⟩ := Prod.mk.inj (Except.ok.inj ht)
      exact ⟨hne, hr, rfl⟩
    · rintro ⟨hne, hr, rfl⟩
      exact ⟨⟨_, Session.tokenizer_of_ne_nil hne, _, hr, rfl, rfl⟩, hne⟩

/-- The same with the lines that are no reference. -/
theorem remember_eq_ok : remember env s line first toks = .ok (s', toks') ∧ toks' ≠ [] ↔
    (first.head ≠ bang ∧ s.record line = .ok s' ∧ toks' = toks ∧ toks ≠ []) ∨
    first.head = bang ∧ expand env s (reference first) toks = .ok (s', toks') ∧ toks' ≠ [] := by
  unfold remember
  split
  · rename_i hb
    simp [hb]
  · rename_i hb
    simp only [bind_eq_ok, pure_ok, Except.ok.injEq, Prod.mk.injEq, ne_eq, hb, not_false_eq_true, true_and, false_and,
      or_false]
    constructor
    · rintro ⟨⟨_, hr, rfl, rfl⟩, hne⟩
      exact ⟨hr, rfl, hne⟩
    · rintro ⟨hr, rfl, hne⟩
      exact ⟨⟨_, hr, rfl, rfl⟩, hne⟩

theorem tokens_eq_nil (hc : command toks = none) : toks = [] := by
  cases toks with
  | nil => rfl
  | cons _ _ => cases hc

/-- A line that is not empty runs a command or stops the shell. -/
theorem read_command_of_command (hc : command (tokens line) = some c) : read_command env s line = .ok (s', cmd) ↔
    ∃ first rest toks, s.num_cmds ≠ INT_MAX ∧ c.tokens = first :: rest ∧
      (remember env s.counted line first c.tokens = .ok (s', toks) ∧ toks ≠ []) ∧
      cmd = some ⟨toks, c.isBackground⟩ := by
  unfold read_command
  rw [Session.tokenizer_of_ne_nil (command_ne_none hc), ok_bind]
  simp only [hc]
  rw [bind_eq_ok]
  constructor
  · rintro ⟨s₁, hi, h⟩
    obtain ⟨hmax, rfl⟩ := Session.increment_eq_ok.mp hi
    split at h
    · cases h
    · rename_i first rest htoks
      obtain ⟨⟨s₂, toks⟩, hr, h⟩ := bind_ok h
      dsimp only at h
      split at h
      · cases h
      · rename_i hne
        obtain ⟨rfl, rfl⟩ := Prod.mk.inj (Except.ok.inj h)
        exact ⟨first, rest, toks, hmax, htoks, ⟨hr, hne⟩, rfl⟩
  · rintro ⟨first, rest, toks, hmax, htoks, ⟨hr, hne⟩, rfl⟩
    refine ⟨s.counted, Session.increment_eq_ok.mpr ⟨hmax, rfl⟩, ?_⟩
    rw [htoks]
    dsimp only
    rw [← htoks, hr, ok_bind]
    exact if_neg hne

theorem read_command_iff : read_command env s line = .ok (s', cmd) ↔ Reads env s line s' cmd := by
  cases hc : command (tokens line) with
  | none =>
    have hnil := tokens_eq_nil hc
    have hread : read_command env s line = .ok (s', cmd) ↔ s.tokenizer line = .ok (s', []) ∧ cmd = none := by
      unfold read_command
      rw [bind_eq_ok]
      constructor
      · rintro ⟨⟨s₀, toks⟩, ht, h⟩
        obtain ⟨rfl, _⟩ := Session.tokenizer_cases ht
        simp only [hc] at h
        obtain ⟨rfl, rfl⟩ := Prod.mk.inj (Except.ok.inj h)
        exact ⟨hnil ▸ ht, rfl⟩
      · rintro ⟨ht, rfl⟩
        exact ⟨_, ht, rfl⟩
    rw [hread]
    constructor
    · rintro ⟨ht, rfl⟩
      exact .empty hnil ht
    · intro h
      cases h with
      | empty _ ht => exact ⟨ht, rfl⟩
      | typed hc' | unmatched hc' | expanded hc' => rw [hc] at hc'; cases hc'
  | some c =>
    rw [read_command_of_command hc]
    constructor
    · rintro ⟨first, rest, toks, hmax, htoks, hr, rfl⟩
      rcases remember_eq_ok.mp hr with ⟨hb, hrec, rfl, _⟩ | ⟨hb, hx⟩
      · exact .typed hc htoks hmax hb hrec
      · rcases expand_eq_ok.mp hx with ⟨hnone, hlast, hrec, rfl, _⟩ | ⟨text, hsome, hne, hrec, rfl⟩
        · exact .unmatched hc htoks hmax hb hnone hlast hrec
        · exact .expanded hc htoks hmax hb hsome hne hrec
    · intro h
      cases h with
      | empty hnil => rw [hnil] at hc; cases hc
      | typed hc' htoks hmax hb hrec =>
        obtain rfl := Option.some.inj (hc.symm.trans hc')
        exact ⟨_, _, _, hmax, htoks, remember_eq_ok.mpr (.inl ⟨hb, hrec, rfl, by simp [htoks]⟩), rfl⟩
      | unmatched hc' htoks hmax hb hnone hlast hrec =>
        obtain rfl := Option.some.inj (hc.symm.trans hc')
        exact ⟨_, _, _, hmax, htoks, remember_eq_ok.mpr (.inr ⟨hb, expand_eq_ok.mpr
          (.inl ⟨hnone, hlast, hrec, rfl, by simp [htoks]⟩)⟩), rfl⟩
      | expanded hc' htoks hmax hb hsome hne hrec =>
        obtain rfl := Option.some.inj (hc.symm.trans hc')
        exact ⟨_, _, _, hmax, htoks, remember_eq_ok.mpr (.inr ⟨hb, expand_eq_ok.mpr
          (.inr ⟨_, hsome, hne, hrec, rfl⟩)⟩), rfl⟩

theorem head_of_command (hc : command toks = some c)
    (hfirst : c.tokens = first :: rest) : toks.head? = some first := by
  cases toks with
  | nil => cases hc
  | cons a as =>
    obtain rfl := Option.some.inj hc
    split at hfirst
    · cases as with
      | nil => cases hfirst
      | cons b as =>
        rw [List.dropLast_cons_of_ne_nil (List.cons_ne_nil b as)] at hfirst
        rw [(List.cons.inj hfirst).1]
        rfl
    · rw [(List.cons.inj hfirst).1]
      rfl

/-- The `&` that is taken off a line is not its first token. -/
theorem tokens_of_command (hc : command (first :: rest) = some c) (hne : first ≠ ampersand) :
    ∃ rest', c.tokens = first :: rest' := by
  obtain rfl := Option.some.inj hc
  split
  · cases rest with
    | nil =>
      rename_i hlast
      exact absurd (by simpa using hlast) hne
    | cons b rest => exact ⟨_, rfl⟩
  · exact ⟨rest, rfl⟩

theorem ne_ampersand (hb : first.head = bang) : first ≠ ampersand := by
  rintro rfl
  exact absurd hb (by decide)

/-- **What a reference does.** -/
theorem read_reference (htok : tokens line = first :: rest) (hb : first.head = bang) :
    read_command env s line = .ok (s', cmd) ↔ s.num_cmds ≠ INT_MAX ∧ ∃ c, command (tokens line) = some c ∧
      ((hisStr env s.counted (reference first) = none ∧ reference first ≠ .last ∧
        (s.counted.note .unwritten).record env.unwritten = .ok s' ∧ cmd = some c) ∨
      ∃ text, hisStr env s.counted (reference first) = some text ∧ tokens text ≠ [] ∧
        ((s.counted.found text (reference first)).copy 8 text).record text = .ok s' ∧
        cmd = some ⟨tokens text, c.isBackground⟩) := by
  have hne := ne_ampersand hb
  have hfirst : ∀ {c : Command} {f : CString} {r : List CString}, command (tokens line) = some c →
      c.tokens = f :: r → first = f := by
    intro c f r hc hf
    rw [htok] at hc
    obtain ⟨rest', hr⟩ := tokens_of_command hc hne
    exact (List.cons.inj (hr.symm.trans hf)).1
  rw [read_command_iff]
  constructor
  · intro h
    cases h with
    | empty hnil => rw [hnil] at htok; cases htok
    | typed hc htoks _ hb' => exact absurd (hfirst hc htoks ▸ hb) hb'
    | unmatched hc htoks hmax _ hnone hlast hrec =>
      obtain rfl := hfirst hc htoks
      exact ⟨hmax, _, hc, .inl ⟨hnone, hlast, hrec, rfl⟩⟩
    | expanded hc htoks hmax _ hsome hne hrec =>
      obtain rfl := hfirst hc htoks
      exact ⟨hmax, _, hc, .inr ⟨_, hsome, hne, hrec, rfl⟩⟩
  · rintro ⟨hmax, c, hc, h⟩
    obtain ⟨rest', htoks⟩ := tokens_of_command (htok ▸ hc) hne
    rcases h with ⟨hnone, hlast, hrec, rfl⟩ | ⟨text, hsome, hne, hrec, rfl⟩
    · exact .unmatched hc htoks hmax hb hnone hlast hrec
    · exact .expanded hc htoks hmax hb hsome hne hrec

end Cs326.Prompt
