import Cs326.Shell.Prompt

/-!
# The first word of a command

`main` goes on with `tokens[0]` once the line is known not to be empty: at the test for `!`, and behind the recording at
the builtin commands and the quotes. The `&` of a line that is nothing else is taken off before that, and the text in
place of a reference need not have tokens (a comment, or the slot of the next command, which `get_cmd` accepts).
-/

namespace Cs326.Prompt

/-- The text that is tokenized in place of the line. -/
def replayed (env : Env) (s : Session) (line : CString) : Option CString :=
  match command (tokens line) with
  | some ⟨first :: _, _⟩ =>
    if first.head = bang ∧ s.num_cmds ≠ INT_MAX then hisStr env s.counted (reference first) else none
  | _ => none

/-- What `tokens[0]` is where the loop of `main` goes on with it, the line being not empty. -/
def firstWords (env : Env) (s : Session) (line : CString) : List (Option CString) :=
  match command (tokens line), s.increment with
  | some cmd, .ok s =>
    match cmd.tokens with
    | [] => [none]
    | first :: _ =>
      match remember env s line first cmd.tokens with
      | .ok (_, toks) => [some first, toks.head?]
      | .error _ => [some first]
  | _, _ => []

/-- `tokenizer` and `add_history` can record the text, a comment twice. -/
def Recordable (s : Session) (text : CString) : Prop :=
  ∃ h, s.history.add_history text = .ok h ∧
    (text.head = hash → s.num_cmds ≠ INT_MAX ∧ ∃ h', h.add_history text = .ok h')

variable {env : Env} {s s' : Session} {line text first : CString} {toks rest : List CString} {cmd : Option Command}
  {c : Command} {ref : Reference}

/-- Only the `&` leaves nothing of a line. -/
theorem command_tokens_nil (hc : command toks = some c) : c.tokens = [] ↔ toks = [ampersand] := by
  constructor
  · intro hnil
    obtain ⟨first, rest, rfl⟩ := List.exists_cons_of_ne_nil (command_ne_none hc)
    by_cases hne : first = ampersand
    · cases rest with
      | nil => rw [hne]
      | cons b rest =>
        obtain rfl := Option.some.inj hc
        split at hnil
        · cases hnil
        · cases hnil
    · obtain ⟨rest', hrest⟩ := tokens_of_command hc hne
      cases hnil.symm.trans hrest
  · rintro rfl
    obtain rfl := Option.some.inj hc
    rfl

/-- **A line that goes through** has its first words. -/
theorem firstWords_of_read (hr : read_command env s line = .ok (s', cmd)) : none ∉ firstWords env s line := by
  unfold firstWords
  cases hc : command (tokens line) with
  | none => exact List.not_mem_nil
  | some c =>
    obtain ⟨first, rest, toks, hmax, htoks, ⟨hrem, hne⟩, _⟩ := (read_command_of_command hc).mp hr
    rw [Session.increment_eq_ok.mpr ⟨hmax, rfl⟩]
    dsimp only
    rw [htoks] at hrem ⊢
    dsimp only
    rw [hrem]
    obtain ⟨a, as, rfl⟩ := List.exists_cons_of_ne_nil hne
    simp

theorem record_isOk : (∃ s', s.record text = .ok s') ↔ ∃ h, s.history.add_history text = .ok h := by
  simp only [Session.record_eq_ok]
  constructor
  · rintro ⟨_, h, hadd, _⟩
    exact ⟨h, hadd⟩
  · rintro ⟨h, hadd⟩
    exact ⟨_, h, hadd, rfl⟩

/-- A comment is recorded by `tokenizer`, and any text behind it. -/
theorem comment_isOk : (∃ s₁, s.comment text = .ok s₁ ∧ ∃ h, s₁.history.add_history text = .ok h) ↔
    Recordable s text := by
  unfold Session.comment Recordable
  by_cases hhash : text.head = hash
  · rw [if_pos hhash]
    constructor
    · rintro ⟨s₁, hc, h', hadd'⟩
      obtain ⟨s₂, hi, hr⟩ := bind_ok hc
      obtain ⟨hmax, rfl⟩ := Session.increment_eq_ok.mp hi
      obtain ⟨h, hadd, rfl⟩ := Session.record_eq_ok.mp hr
      exact ⟨h, hadd, fun _ => ⟨hmax, h', hadd'⟩⟩
    · rintro ⟨h, hadd, hcomment⟩
      obtain ⟨hmax, h', hadd'⟩ := hcomment hhash
      refine ⟨{ s.counted.copy 100000 text with history := h, commands := s.counted.commands ++ [text] }, ?_, h', hadd'⟩
      rw [Session.increment_eq_ok.mpr ⟨hmax, rfl⟩]
      exact Session.record_eq_ok.mpr ⟨h, hadd, rfl⟩
  · rw [if_neg hhash]
    constructor
    · rintro ⟨_, ⟨⟩, h, hadd⟩
      exact ⟨h, hadd, fun hh => absurd hh hhash⟩
    · rintro ⟨h, hadd, _⟩
      exact ⟨s, rfl, h, hadd⟩

/-- What is recorded in place of a reference whose text has no tokens. -/
theorem expand_of_nil (hs : hisStr env s ref = some text) (hnil : tokens text = []) :
    (∃ s', expand env s ref toks = .ok (s', [])) ↔ Recordable s text := by
  have hsame : Recordable ((s.found text ref).copy 8 text) text ↔ Recordable s text := by
    simp [Recordable]
  rw [← hsame, ← comment_isOk]
  have hhistory : ∀ s₁ : Session,
      (if (stored text).length < 5000 then s₁ else s₁.note .overrun).history = s₁.history := by
    intro s₁
    split <;> rfl
  unfold expand Session.tokenizer
  rw [hs]
  dsimp only
  constructor
  · rintro ⟨s', hx⟩
    obtain ⟨⟨s₂, toks₂⟩, ht, hx⟩ := bind_ok hx
    obtain ⟨s₁, hc, ht⟩ := bind_ok ht
    obtain ⟨rfl, _⟩ := Prod.mk.inj (Except.ok.inj ht)
    obtain ⟨s₃, hr, _⟩ := bind_ok hx
    exact ⟨s₁, hc, hhistory s₁ ▸ record_isOk.mp ⟨s₃, hr⟩⟩
  · rintro ⟨s₁, hc, hadd⟩
    obtain ⟨s₃, hr⟩ := record_isOk.mpr ((hhistory s₁).symm ▸ hadd)
    refine ⟨s₃, ?_⟩
    rw [hc, hnil, ok_bind, pure_ok, ok_bind]
    dsimp only
    rw [hr]
    rfl

/-- Only a text without tokens takes the first word away. -/
theorem remember_nil (hne : toks ≠ []) : (∃ s', remember env s line first toks = .ok (s', [])) ↔
    first.head = bang ∧ ∃ text, hisStr env s (reference first) = some text ∧ tokens text = [] ∧ Recordable s text := by
  unfold remember
  split
  · rename_i hb
    simp only [hb, true_and]
    cases hs : hisStr env s (reference first) with
    | none =>
      refine iff_of_false ?_ (by simp)
      rintro ⟨s', hx⟩
      unfold expand at hx
      rw [hs] at hx
      split at hx
      · cases hx
      · obtain ⟨s₁, _, hx⟩ := bind_ok hx
        exact hne (Prod.mk.inj (Except.ok.inj hx)).2
      · rename_i h
        cases h
    | some text =>
      simp only [Option.some.injEq, exists_eq_left']
      constructor
      · rintro ⟨s', hx⟩
        have hnil : tokens text = [] := by
          have hx' := hx
          unfold expand at hx'
          rw [hs] at hx'
          obtain ⟨⟨s₁, toks₁⟩, ht, hx'⟩ := bind_ok hx'
          obtain ⟨s₂, _, hx'⟩ := bind_ok hx'
          obtain rfl := (Prod.mk.inj (Except.ok.inj hx')).2
          exact (Session.tokenizer_cases ht).1.symm
        exact ⟨hnil, (expand_of_nil hs hnil).mp ⟨s', hx⟩⟩
      · rintro ⟨hnil, hrec⟩
        exact (expand_of_nil hs hnil).mpr hrec
  · rename_i hb
    refine iff_of_false ?_ fun h => hb h.1
    rintro ⟨s', hx⟩
    obtain ⟨s₁, _, hx⟩ := bind_ok hx
    exact hne (Prod.mk.inj (Except.ok.inj hx)).2

theorem none_mem_firstWords (hc : command (tokens line) = some c) (hmax : s.num_cmds ≠ INT_MAX)
    (htoks : c.tokens = first :: rest) : none ∈ firstWords env s line ↔
      ∃ s', remember env s.counted line first c.tokens = .ok (s', []) := by
  unfold firstWords
  rw [hc, Session.increment_eq_ok.mpr ⟨hmax, rfl⟩]
  dsimp only
  rw [htoks]
  dsimp only
  cases remember env s.counted line first (first :: rest) with
  | error => simp
  | ok r =>
    obtain ⟨s', _ | ⟨a, as⟩⟩ := r <;> simp

/-- **The first word** is there unless the line is `&`, or the text that takes its place has no tokens. -/
theorem first_word (env : Env) (s : Session) (line : CString) : none ∉ firstWords env s line ↔
    s.num_cmds = INT_MAX ∨ tokens line ≠ [ampersand] ∧
      ∀ text, replayed env s line = some text → Recordable s.counted text → tokens text ≠ [] := by
  cases hc : command (tokens line) with
  | none =>
    refine iff_of_true ?_ (.inr ⟨?_, ?_⟩)
    · unfold firstWords
      rw [hc]
      exact List.not_mem_nil
    · rw [tokens_eq_nil hc]
      nofun
    · unfold replayed
      rw [hc]
      nofun
  | some c =>
    by_cases hmax : s.num_cmds = INT_MAX
    · refine iff_of_true ?_ (.inl hmax)
      unfold firstWords
      rw [hc, Session.increment, if_pos hmax]
      exact List.not_mem_nil
    · rw [or_iff_right hmax]
      cases htoks : c.tokens with
      | nil =>
        refine iff_of_false ?_ fun h => h.1 ((command_tokens_nil hc).mp htoks)
        unfold firstWords
        rw [hc, Session.increment_eq_ok.mpr ⟨hmax, rfl⟩]
        dsimp only
        rw [htoks]
        simp
      | cons first rest =>
        have hne : c.tokens ≠ [] := by simp [htoks]
        have hamp : tokens line ≠ [ampersand] := mt (command_tokens_nil hc).mpr hne
        have hreplayed : replayed env s line =
            if first.head = bang then hisStr env s.counted (reference first) else none := by
          obtain ⟨toks, bg⟩ := c
          obtain rfl : toks = first :: rest := htoks
          unfold replayed
          rw [hc]
          simp [hmax]
        rw [none_mem_firstWords hc hmax htoks, remember_nil hne, hreplayed]
        simp only [ne_eq, hamp, not_false_eq_true, true_and]
        split
        · rename_i hb
          simp only [hb, true_and]
          constructor
          · exact fun h text hs hrec hnil => h ⟨text, hs, hnil, hrec⟩
          · rintro h ⟨text, hs, hnil, hrec⟩
            exact h text hs hrec hnil
        · rename_i hb
          simp [hb]

/-- The line `&`. -/
theorem no_first_word : ¬∀ (env : Env) (s : Session) (line : CString), none ∉ firstWords env s line := by
  intro hall
  exact hall ⟨.empty, 0⟩ .init (literal ['&', '\n']) (by decide)

end Cs326.Prompt
