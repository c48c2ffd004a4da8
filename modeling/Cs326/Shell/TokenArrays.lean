import Cs326.Shell.Builtins
import Cs326.Shell.FirstWord
import Cs326.Shell.Quoting

/-!
# The arrays of tokens

`tokenizer` writes its tokens and the `NULL` behind them to the places of `tokens[5000]` from `0` on, one place for each
token stored. `exec` writes the words of a command and a `NULL` to a block of `5000` bytes. The words are a stretch of
tokens without an operator and maybe the operator at its end, which is only taken off if it is `|` or `>` alone
(`Stretch`).
-/

namespace Cs326.Prompt

/-- The places of `tokens` that the loop of `tokenizer` writes from round `i` on, and the place of the last `NULL`. -/
def writeLoop : (left i : Nat) → Option CString → List Nat
  | 0, i, _ => [i]
  | left + 1, i, cursor =>
    match next_token delimiters cursor with
    | (none, _) => [i]
    | (some tok, cursor) =>
      if tok.head = hash then [i]
      -- the `5000`th token makes `tokens[0]` `NULL`
      else i :: (if i + 1 = 5000 then [0] else []) ++ writeLoop left (i + 1) cursor

/-- The places of `tokens` that `tokenizer` writes. -/
def tokenWrites (str : CString) : List Nat := writeLoop 5001 0 (some str)

/-- `n` tokens in a row that are no operators, and behind them another one that is not taken off the words. -/
def Stretch (n : Nat) (toks : List CString) : Prop :=
  ∃ front ws w back, toks = front ++ (ws ++ w :: back) ∧ ws.length = n ∧ (∀ x ∈ ws, operator x = false) ∧
    w ≠ bar ∧ w ≠ gt

variable {toks cur rest : List CString} {tok op : CString} {after cursor : Option CString} {n i left : Nat}
  {getenv : CString → Option CString} {behind : List (Option CString)}

/-! ## The places in `tokens` -/

theorem writeLoop_lt (left i : Nat) (cursor : Option CString) : (∀ p ∈ writeLoop left i cursor, p < 5000) ↔
    i + (tokenLoop left cursor).length < 5000 := by
  induction left generalizing i cursor with
  | zero => simp [writeLoop, tokenLoop]
  | succ left ih =>
    rw [writeLoop, tokenLoop]
    rcases next_token delimiters cursor with ⟨_ | tok, cursor⟩
    · simp
    · dsimp only
      split
      · simp
      · have hreset : ∀ p ∈ (if i + 1 = 5000 then [0] else []), p < 5000 := by
          split <;> simp
        rw [List.cons_append, List.forall_mem_cons, List.forall_mem_append, ih, List.length_cons]
        constructor
        · rintro ⟨_, _, h⟩
          omega
        · intro h
          exact ⟨by omega, hreset, by omega⟩

/-- **The places of the tokens.** -/
theorem tokenWrites_lt (str : CString) : (∀ p ∈ tokenWrites str, p < 5000) ↔ (stored str).length < 5000 := by
  have h := writeLoop_lt 5001 0 (some str)
  rwa [Nat.zero_add] at h

/-! ## The places in the blocks -/

theorem stretch_of_plain (hcur : ∀ w ∈ cur, operator w = false) (hlen : n < cur.length) (rest : List CString) :
    Stretch n (cur ++ rest) := by
  have hw := hcur _ (List.getElem_mem hlen)
  have htake : ∀ x ∈ cur.take n, operator x = false := fun x hx => hcur x (List.mem_of_mem_take hx)
  refine ⟨[], cur.take n, cur[n], cur.drop (n + 1) ++ rest, ?_, ?_, htake, ?_, ?_⟩
  · rw [List.nil_append, ← List.cons_append, ← List.append_assoc, ← List.drop_eq_getElem_cons hlen,
      List.take_append_drop]
  · rw [List.length_take, Nat.min_eq_left (Nat.le_of_lt hlen)]
  · intro h
    rw [h] at hw
    cases hw
  · intro h
    rw [h] at hw
    cases hw

/-- Past an operator. -/
theorem stretch_operator (hcur : ∀ w ∈ cur, operator w = false) (htok : operator tok = true) :
    Stretch n (cur ++ tok :: rest) ↔
      n < (if tok = bar ∨ tok = gt then cur else cur ++ [tok]).length ∨ Stretch n rest := by
  constructor
  · rintro ⟨front, ws, w, back, heq, rfl, hws, hbar, hgt⟩
    have hnot : tok ∉ ws := fun hmem => by
      rw [hws tok hmem] at htok
      cases htok
    have hcommand : ws.length < cur.length ∨ ws.length ≤ cur.length ∧ w = tok →
        ws.length < (if tok = bar ∨ tok = gt then cur else cur ++ [tok]).length := by
      rintro (hlt | ⟨hle, rfl⟩)
      · split
        · exact hlt
        · rw [List.length_append]
          omega
      · rw [if_neg (not_or.mpr ⟨hbar, hgt⟩), List.length_append, List.length_singleton]
        omega
    rcases List.append_eq_append_iff.mp heq with ⟨as, rfl, hrest⟩ | ⟨bs, rfl, hrest⟩
    · cases as with
      | nil =>
        cases ws with
        | nil => exact .inl (hcommand (.inr ⟨Nat.zero_le _, (List.cons.inj hrest).1.symm⟩))
        | cons x ws => exact absurd ((List.cons.inj hrest).1 ▸ List.mem_cons_self) hnot
      | cons a as => exact .inr ⟨as, ws, w, back, (List.cons.inj hrest).2, rfl, hws, hbar, hgt⟩
    · rw [List.length_append] at hcommand
      rcases List.append_eq_append_iff.mp hrest with ⟨cs, rfl, hback⟩ | ⟨cs, rfl, hback⟩
      · cases cs with
        | nil => exact .inl (hcommand (.inr ⟨by simp, (List.cons.inj hback).1⟩))
        | cons c cs =>
          refine .inl (hcommand (.inl ?_))
          simp only [List.length_append, List.length_cons]
          omega
      · cases cs with
        | nil => exact .inl (hcommand (.inr ⟨by simp, (List.cons.inj hback).1.symm⟩))
        | cons c cs =>
          exact absurd (List.mem_append_right _ ((List.cons.inj hback).1 ▸ List.mem_cons_self)) hnot
  · rintro (hlen | ⟨front, ws, w, back, rfl, h⟩)
    · split at hlen
      · exact stretch_of_plain hcur hlen _
      · rename_i hne
        obtain ⟨hbar, hgt⟩ := not_or.mp hne
        rcases Nat.lt_or_ge n cur.length with hlt | hge
        · exact stretch_of_plain hcur hlt _
        · rw [List.length_append, List.length_singleton] at hlen
          exact ⟨[], cur, tok, rest, rfl, by omega, hcur, hbar, hgt⟩
    · exact ⟨cur ++ tok :: front, ws, w, back, by simp, h⟩

/-- **A command with more than `n` words** is a stretch. -/
theorem stretch_iff (after : Option CString) (hcur : ∀ w ∈ cur, operator w = false) :
    (∃ cmd ∈ commandLines after cur toks, n < (cmd.tokens.getD []).length) ↔ Stretch n (cur ++ toks) := by
  induction toks generalizing cur with
  | nil =>
    rw [commandLines, List.append_nil]
    constructor
    · rintro ⟨cmd, hcmd, hlen⟩
      rw [List.mem_singleton.mp hcmd] at hlen
      simpa using stretch_of_plain hcur hlen []
    · rintro ⟨front, ws, w, back, rfl, rfl, _⟩
      refine ⟨_, List.mem_singleton_self _, ?_⟩
      show ws.length < (front ++ (ws ++ w :: back)).length
      simp only [List.length_append, List.length_cons]
      omega
  | cons tok rest ih =>
    rcases commandLines_cons after cur tok rest with ⟨htok, heq⟩ | ⟨htok, cmd, heq, htokens⟩
    · have hplain : ∀ w ∈ cur ++ [tok], operator w = false := by
        intro w hw
        rcases List.mem_append.mp hw with hw | hw
        · exact hcur w hw
        · rwa [List.mem_singleton.mp hw]
      rw [heq, ih hplain, List.append_assoc, List.singleton_append]
    · have hrest : (∃ cmd ∈ commandLines after [] rest, n < (cmd.tokens.getD []).length) ↔ Stretch n rest :=
        ih (by simp)
      rw [heq, stretch_operator hcur htok, ← hrest]
      simp [htokens]

/-- **The places of the words.** -/
theorem written_lt (getenv : CString → Option CString) (behind : List (Option CString)) (hne : toks ≠ []) (n : Nat) :
    (∀ p ∈ (exec getenv (argumentsOf toks behind)).written, p < n + 1) ↔
      ¬Stretch n (operands getenv toks behind) := by
  obtain ⟨after, hparsed⟩ := exec_parsed getenv behind hne
  rw [hparsed.written, ← List.nil_append (operands getenv toks behind), ← stretch_iff after (by simp)]
  constructor
  · rintro h ⟨cmd, hcmd, hlen⟩
    have hlast := h _ (List.mem_flatMap.mpr ⟨cmd, hcmd, List.mem_range.mpr (Nat.lt_succ_self _)⟩)
    omega
  · intro h p hp
    obtain ⟨cmd, hcmd, hp⟩ := List.mem_flatMap.mp hp
    have hp := List.mem_range.mp hp
    by_contra hlt
    exact h ⟨cmd, hcmd, by omega⟩

theorem tokens_ne_nil {env : Env} {s s' : Session} {line : CString} {c : Command}
    (hr : read_command env s line = .ok (s', some c)) : c.tokens ≠ [] := by
  cases read_command_iff.mp hr with
  | typed _ htoks | unmatched _ htoks => simp [htoks]
  | expanded _ _ _ _ _ hne => exact hne

/-- **The arrays hold** what a line makes `tokenizer` and `exec` write, pointers having `size` bytes, exactly if the
line and the text in its place have less than `5000` tokens and no command has more words than its block has room
for. -/
theorem token_arrays (size : Nat) (hsize : 0 < 5000 / size) (env : Env) (s : Session) (line : CString)
    (getenv : CString → Option CString) (behind : List (Option CString)) :
    ((∀ str ∈ line :: (replayed env s line).toList, ∀ p ∈ tokenWrites str, p < 5000) ∧
      ∀ s' c st, read_command env s line = .ok (s', some c) → dispatch getenv c.tokens behind = some st →
        ∀ p ∈ st.written, p < 5000 / size) ↔
    (∀ str ∈ line :: (replayed env s line).toList, (stored str).length < 5000) ∧
      ∀ s' c, read_command env s line = .ok (s', some c) → Executed c.tokens →
        ¬Stretch (5000 / size - 1) (operands getenv c.tokens behind) := by
  simp only [tokenWrites_lt]
  apply and_congr_right
  intro _
  obtain ⟨n, hn⟩ : ∃ n, 5000 / size = n + 1 := ⟨_, (Nat.sub_add_cancel hsize).symm⟩
  rw [hn, Nat.add_sub_cancel]
  constructor
  · intro h s' c hr hex
    have hne := tokens_ne_nil hr
    exact (written_lt getenv behind hne n).mp (h s' c _ hr ((dispatch_eq_some hne).mpr ⟨hex, rfl⟩))
  · intro h s' c st hr hst
    have hne := tokens_ne_nil hr
    obtain ⟨hex, rfl⟩ := (dispatch_eq_some hne).mp hst
    exact (written_lt getenv behind hne n).mpr (h s' c hr hex)

/-- The line `ls`, with pointers of eight bytes. -/
theorem token_arrays_ls : ∃ s' c st, read_command ⟨.empty, 0⟩ .init (literal ['l', 's']) = .ok (s', some c) ∧
    dispatch (fun _ => none) c.tokens [] = some st ∧ ∀ p ∈ st.written, p < 5000 / 8 := by
  have hcmd : command (tokens (literal ['l', 's'])) = some ⟨[literal ['l', 's']], false⟩ := by decide
  have hlen : (literal ['l', 's']).length < (100 - 0 % 100) * 100000 := by decide
  have hadd : ∃ h, Session.init.counted.history.add_history (literal ['l', 's']) = .ok h :=
    History.exists_add_history.mpr ⟨by decide, hlen⟩
  obtain ⟨s', hrec⟩ := record_isOk.mpr hadd
  have hread : read_command ⟨.empty, 0⟩ .init (literal ['l', 's']) = .ok (s', some ⟨[literal ['l', 's']], false⟩) :=
    read_command_iff.mpr (.typed hcmd rfl (by decide) (by decide) hrec)
  refine ⟨s', _, _, hread, rfl, ?_⟩
  refine ((token_arrays 8 (by decide) ⟨.empty, 0⟩ .init (literal ['l', 's']) (fun _ => none) []).mpr ⟨?_, ?_⟩).2
    s' _ _ hread rfl
  · rw [show replayed ⟨.empty, 0⟩ .init (literal ['l', 's']) = none by rfl]
    decide
  · intro s₁ c hr _ hstretch
    obtain ⟨_, hc⟩ := Prod.mk.inj (Except.ok.inj (hread.symm.trans hr))
    obtain rfl := Option.some.inj hc
    obtain ⟨front, ws, w, back, heq, hlen, _⟩ := hstretch
    have hone := congrArg List.length heq
    simp only [List.length_append, List.length_cons, hlen] at hone
    rw [show (operands (fun _ => none) [literal ['l', 's']] []).length = 1 by decide] at hone
    omega

/-! ## A long line -/

/-- `a` and a blank, `k` times. -/
def repeated (k : Nat) : CString := ⟨(List.replicate k [97, 32]).flatten, by
  intro h
  obtain ⟨l, hl, h0⟩ := List.mem_flatten.mp h
  rw [(List.mem_replicate.mp hl).2] at h0
  exact absurd h0 (by decide)⟩

theorem tokenLoop_repeated (n k : Nat) : tokenLoop n (some (repeated k)) =
    List.replicate (min n k) (literal ['a']) := by
  induction n generalizing k with
  | zero => rw [Nat.zero_min]; rfl
  | succ n ih =>
    rw [tokenLoop]
    cases k with
    | zero => rfl
    | succ k =>
      have hplain : ∀ b ∈ [(97 : UInt8)], isDelimiter b = false := List.forall_mem_singleton.mpr rfl
      have hword : Word isDelimiter isQuote [97] := ⟨List.cons_ne_nil _ _, rfl, List.forall_mem_singleton.mpr rfl⟩
      have hstr : (repeated (k + 1)).bytes = [] ++ ([97] ++ 32 :: (repeated k).bytes) := rfl
      obtain ⟨tok, cursor, hnext, htok, hcursor⟩ :=
        next_token_of_kept (by simp) hword (by simp; decide) hstr (.inl hplain)
      obtain rfl : tok = literal ['a'] := CString.ext_bytes htok
      obtain ⟨str, rfl, hstr⟩ := Option.map_eq_some_iff.mp hcursor
      obtain rfl : str = repeated k := CString.ext_bytes hstr
      rw [hnext]
      dsimp only
      rw [if_neg (by decide), ih, Nat.add_min_add_right, List.replicate_succ]

theorem tokens_repeated {k : Nat} (hk : k < 5000) : tokens (repeated k) = List.replicate k (literal ['a']) := by
  unfold tokens stored
  rw [tokenLoop_repeated, Nat.min_eq_right (by omega), List.length_replicate, if_pos hk]

theorem operands_repeated (k : Nat) : operands (fun _ => none) (List.replicate (k + 2) (literal ['a'])) [] =
    List.replicate (k + 2) (literal ['a']) := by
  have hlive : live (argumentsOf (List.replicate (k + 2) (literal ['a'])) []) =
      List.replicate (k + 2) (literal ['a']) := by
    have hstrip : stripQuotes (literal ['a']) = literal ['a'] := by decide
    rw [argumentsOf, live_eq _ rfl, List.replicate_succ, List.replicate_succ, unquote, hstrip]
  rw [operands, expandVars_eq _ fun w hw => ?_, hlive]
  rw [hlive] at hw
  rw [List.eq_of_mem_replicate (List.mem_of_mem_take hw)]
  decide

/-- `625` words go to the `626` places from `0` to `625`, one more than `5000` bytes have room for. -/
theorem words_overrun : ¬∀ (env : Env) (s : Session) (line : CString) (getenv : CString → Option CString)
    (behind : List (Option CString)),
    (∀ str ∈ line :: (replayed env s line).toList, ∀ p ∈ tokenWrites str, p < 5000) ∧
      ∀ s' c st, read_command env s line = .ok (s', some c) → dispatch getenv c.tokens behind = some st →
        ∀ p ∈ st.written, p < 5000 / 8 := by
  intro hall
  have hcmd : command (tokens (repeated 625)) = some ⟨List.replicate 625 (literal ['a']), false⟩ := by
    have hlast : (List.replicate 625 (literal ['a'])).getLast? ≠ some ampersand := by
      rw [List.getLast?_replicate, if_neg (by decide)]
      decide
    rw [tokens_repeated (by decide), List.replicate_succ] at *
    exact congrArg some (if_neg hlast)
  have hadd : ∃ h, Session.init.counted.history.add_history (repeated 625) = .ok h := by
    refine History.exists_add_history.mpr ⟨by decide, ?_⟩
    show (List.replicate 625 [97, 32]).flatten.length < 100 * 100000
    rw [List.length_flatten, List.map_replicate, List.sum_replicate_nat]
    decide
  obtain ⟨s', hrec⟩ := record_isOk.mpr hadd
  have hread : read_command ⟨.empty, 0⟩ .init (repeated 625) =
      .ok (s', some ⟨List.replicate 625 (literal ['a']), false⟩) :=
    read_command_iff.mpr (.typed hcmd List.replicate_succ (by decide) (by decide) hrec)
  have hne : List.replicate 625 (literal ['a']) ≠ [] := by
    rw [List.replicate_succ]
    exact List.cons_ne_nil _ _
  have hex : Executed (List.replicate 625 (literal ['a'])) := by
    intro first hf
    rw [List.replicate_succ] at hf
    obtain rfl := Option.some.inj hf
    decide
  have hlt := (hall ⟨.empty, 0⟩ .init (repeated 625) (fun _ => none) []).2 s' _ _ hread
    ((dispatch_eq_some hne).mpr ⟨hex, rfl⟩)
  apply (written_lt (fun _ => none) [] hne 624).mp hlt
  rw [operands_repeated]
  have hplain : ∀ w ∈ List.replicate 625 (literal ['a']), operator w = false := by
    intro w hw
    rw [List.eq_of_mem_replicate hw]
    decide
  have hstretch := stretch_of_plain hplain (n := 624) (by rw [List.length_replicate]; decide) []
  rwa [List.append_nil] at hstretch

end Cs326.Prompt
