import Cs326.Shell.Prompt

/-!
# The two counters

`num_cmds` of `main` and `cmd_count` of the history count the same: between the increment for a line and the recording
of that line `num_cmds` is one ahead (`Coherent`), everywhere else they agree. So the prompt shows the number that the
next recorded text gets, and `!!`, which looks two below the incremented `num_cmds`, finds the newest entry.
-/

namespace Cs326.Prompt

variable {env : Env} {s s₁ s' : Session} {line text str first last : CString} {lines toks rest : List CString}
  {cmd : Option Command} {c : Command} {ref : Reference} {d n : Nat} {u : Undefined}

/-- The history is that of the recorded texts, and `num_cmds` is `d` ahead of their number. -/
structure Coherent (d : Nat) (s : Session) : Prop where
  num_cmds : s.num_cmds = s.commands.length + d
  records : Records s.history s.commands

theorem coherent_init : Coherent 0 .init := ⟨rfl, records_init⟩

namespace Coherent

theorem note (h : Coherent d s) : Coherent d (s.note u) := ⟨h.num_cmds, h.records⟩

theorem copy (h : Coherent d s) : Coherent d (s.copy n text) := ⟨by simpa using h.num_cmds, by simpa using h.records⟩

theorem found (h : Coherent d s) : Coherent d (s.found text ref) :=
  ⟨by simpa using h.num_cmds, by simpa using h.records⟩

theorem counted (h : Coherent d s) : Coherent (d + 1) s.counted := ⟨by simp [h.num_cmds, Nat.add_assoc], h.records⟩

theorem record (h : Coherent (d + 1) s) (hr : s.record text = .ok s') : Coherent d s' := by
  obtain ⟨h', ha, rfl⟩ := Session.record_eq_ok.mp hr
  refine ⟨?_, h.records.add_history ha⟩
  simp only [Session.copy_num_cmds, h.num_cmds, List.length_append, List.length_singleton]
  omega

end Coherent

/-- One text is recorded from the session `s` to `s'`. -/
def Adds (text : CString) (s s' : Session) : Prop :=
  s.history.add_history text = .ok s'.history ∧ s'.commands = s.commands ++ [text]

/-- What happens in front of a recording does not touch what is recorded. -/
theorem adds_of_record (hr : s₁.record text = .ok s') (hhist : s₁.history = s.history)
    (hcmds : s₁.commands = s.commands) : Adds text s s' := by
  obtain ⟨h', ha, rfl⟩ := Session.record_eq_ok.mp hr
  rw [hhist] at ha
  refine ⟨ha, ?_⟩
  dsimp only
  rw [hcmds]

/-- What `tokenizer` records is a comment line. -/
theorem Coherent.tokenizer (h : Coherent d s) (ht : s.tokenizer line = .ok (s', toks)) :
    Coherent d s' ∧ (s'.history = s.history ∧ s'.commands = s.commands ∨ Adds line s s') := by
  obtain ⟨_, s₁, hs₁, hs'⟩ := Session.tokenizer_cases ht
  have hpast : Coherent d s₁ ∧ (s₁.history = s.history ∧ s₁.commands = s.commands ∨ Adds line s s₁) := by
    rcases hs₁ with rfl | hr
    · exact ⟨h, .inl ⟨rfl, rfl⟩⟩
    · exact ⟨h.counted.record hr, .inr (adds_of_record hr rfl rfl)⟩
  rcases hs' with rfl | rfl
  · exact hpast
  · exact ⟨hpast.1.note, hpast.2⟩

/-- **A line** keeps the counters together, and records nothing or one text. -/
theorem Coherent.reads (h : Coherent 0 s) (hr : Reads env s line s' cmd) :
    Coherent 0 s' ∧ (s'.history = s.history ∧ s'.commands = s.commands ∨ ∃ text, Adds text s s') := by
  cases hr with
  | empty _ ht =>
    obtain ⟨hco, hadd⟩ := h.tokenizer ht
    exact ⟨hco, hadd.imp_right fun ha => ⟨line, ha⟩⟩
  | typed _ _ _ _ hrec => exact ⟨h.counted.record hrec, .inr ⟨line, adds_of_record hrec rfl rfl⟩⟩
  | unmatched _ _ _ _ _ _ hrec =>
    exact ⟨h.counted.note.record hrec, .inr ⟨env.unwritten, adds_of_record hrec rfl rfl⟩⟩
  | expanded _ _ _ _ _ _ hrec =>
    exact ⟨h.counted.found.copy.record hrec, .inr ⟨_, adds_of_record hrec (by simp) (by simp)⟩⟩

/-- **At every prompt** the counters agree. -/
theorem Reaches.coherent (h : Reaches lines s) : Coherent 0 s := by
  refine Run.stable (I := Coherent 0) ?_ h coherent_init
  rintro s lines s' hs ⟨env, line, cmd, _, hr, _⟩
  exact (hs.reads (read_command_iff.mp hr)).1

theorem Reaches.next (h : Reaches lines s) (hr : read_command env s line = .ok (s', cmd)) (hc : Continues cmd) :
    Reaches (lines ++ [line]) s' := h.snoc ⟨env, line, cmd, rfl, hr, hc⟩

theorem Coherent.counters (h : Coherent 0 s) : s.num_cmds = s.history.cmd_count := by
  rw [h.num_cmds, h.records.cmd_count, Nat.add_zero]

/-! ## Lines that go well -/

theorem exists_record : (∃ s', s.record text = .ok s') ↔
    s.history.cmd_count ≠ INT_MAX ∧ text.length < (100 - s.history.cmd_count % 100) * 100000 := by
  rw [← History.exists_add_history]
  constructor
  · rintro ⟨_, hr⟩
    obtain ⟨h', ha, _⟩ := Session.record_eq_ok.mp hr
    exact ⟨h', ha⟩
  · rintro ⟨h', ha⟩
    exact ⟨_, Session.record_eq_ok.mpr ⟨h', ha, rfl⟩⟩

theorem room_of_lt (hlt : text.length < 100000) (k : Nat) : text.length < (100 - k % 100) * 100000 := by omega

/-- A line that is no reference is run and recorded. -/
theorem Coherent.exists_typed (h : Coherent 0 s) (hmax : s.commands.length < INT_MAX) (hlt : line.length < 100000)
    (hc : command (tokens line) = some c) (htoks : c.tokens = first :: rest) (hb : first.head ≠ bang) :
    ∃ s', read_command env s line = .ok (s', some c) ∧ Adds line s s' := by
  obtain ⟨s', hr⟩ := (exists_record (s := s.counted)).mpr
    ⟨by rw [Session.counted_history, h.records.cmd_count]; omega, room_of_lt hlt _⟩
  exact ⟨s', read_command_iff.mpr (.typed hc htoks (by rw [h.num_cmds]; omega) hb hr), adds_of_record hr rfl rfl⟩

/-- After such a line, unless it is `exit`, the shell is at the prompt again. -/
theorem Reaches.exists_next (h : Reaches lines s) (hmax : s.commands.length < INT_MAX) (hlt : line.length < 100000)
    (hc : command (tokens line) = some c) (htoks : c.tokens = first :: rest) (hb : first.head ≠ bang)
    (hexit : first ≠ exitToken) : ∃ s', Reaches (lines ++ [line]) s' ∧ s'.commands = s.commands ++ [line] := by
  obtain ⟨s', hr, _, hcmds⟩ : ∃ s', read_command ⟨.empty, 0⟩ s line = .ok (s', some c) ∧ Adds line s s' :=
    h.coherent.exists_typed hmax hlt hc htoks hb
  refine ⟨s', h.next hr ?_, hcmds⟩
  rintro _ ⟨⟩
  rw [htoks]
  simpa using hexit

/-- A reference to a text with tokens runs the text and records it. -/
theorem Coherent.exists_expanded (h : Coherent 0 s) (htok : tokens line = first :: rest) (hb : first.head = bang)
    (hc : command (tokens line) = some c) (hhis : hisStr env s.counted (reference first) = some text)
    (hne : tokens text ≠ []) (hmax : s.history.cmd_count ≠ INT_MAX)
    (hroom : text.length < (100 - s.history.cmd_count % 100) * 100000) :
    ∃ s', read_command env s line = .ok (s', some ⟨tokens text, c.isBackground⟩) ∧
      ((s.counted.found text (reference first)).copy 8 text).record text = .ok s' := by
  obtain ⟨s', hr⟩ := (exists_record (s := (s.counted.found text (reference first)).copy 8 text)).mpr
    ⟨by simpa using hmax, by simpa using hroom⟩
  have hnum : s.num_cmds ≠ INT_MAX := by rwa [h.counters]
  exact ⟨s', (read_reference htok hb).mpr ⟨hnum, c, hc, .inr ⟨text, hhis, hne, hr, rfl⟩⟩, hr⟩

/-! ## Numbering -/

/-- The number that `!!` asks for is that of the newest entry. -/
theorem hisStr_last (h : Coherent 1 s) (hlast : s.commands.getLast? = some last) :
    hisStr env s .last = some last := by
  have hpos : 0 < s.commands.length := by
    cases hcmds : s.commands with
    | nil => rw [hcmds] at hlast; cases hlast
    | cons _ _ => exact Nat.succ_pos _
  have hcount := h.records.cmd_count
  have hmin := h.records.minimum
  have hnum : ((s.num_cmds : Int) - 2) = (s.commands.length - 1 : Nat) := by
    rw [h.num_cmds]
    omega
  unfold hisStr
  rw [hnum, History.get_cmd_natCast (by omega) (by omega), h.records.newest last hlast]

/-- The first token of the line begins with `!!`. -/
def IsLastReference (line : CString) : Prop :=
  ∃ first rest, tokens line = first :: rest ∧ first.head = bang ∧ reference first = .last

/-- **History numbering.** At every prompt `num_cmds` and `cmd_count` are the same number, which is the number of texts
recorded. It is the number that the next recorded text gets. With a text recorded, a line `!!` runs the newest one and
records it. -/
theorem numbering (h : Reaches lines s) :
    s.num_cmds = s.history.cmd_count ∧ s.history.cmd_count = s.commands.length ∧
    (∀ env line s' cmd, read_command env s line = .ok (s', cmd) → s'.history ≠ s.history →
      ∃ text, s.history.add_history text = .ok s'.history ∧ s'.commands = s.commands ++ [text] ∧
        s'.history.text s.num_cmds = text) ∧
    ∀ line last, IsLastReference line → s.commands.getLast? = some last → ∀ env,
      hisStr env s.counted .last = some last ∧
      ∀ s' cmd, read_command env s line = .ok (s', cmd) → s'.commands = s.commands ++ [last] ∧
        ∃ c, cmd = some c ∧ c.tokens = tokens last := by
  have hco := h.coherent
  refine ⟨hco.counters, hco.records.cmd_count, fun env line s' cmd hr hne => ?_,
    fun line last hline hlast env => ?_⟩
  · obtain ⟨_, ⟨hsame, _⟩ | ⟨text, ha, hcmds⟩⟩ := hco.reads (read_command_iff.mp hr)
    · exact absurd hsame hne
    · refine ⟨text, ha, hcmds, ?_⟩
      rw [hco.counters]
      exact History.text_of_add_history ha
  · have hexp : hisStr env s.counted .last = some last := hisStr_last hco.counted hlast
    refine ⟨hexp, fun s' cmd hr => ?_⟩
    obtain ⟨first, rest, htok, hb, href⟩ := hline
    obtain ⟨_, c, _, ⟨hnone, _⟩ | ⟨text, hsome, _, hrec, rfl⟩⟩ := (read_reference htok hb).mp hr
    · rw [href, hexp] at hnone
      cases hnone
    · rw [href, hexp] at hsome
      obtain rfl := Option.some.inj hsome
      obtain ⟨_, hcmds⟩ : Adds last s s' := adds_of_record hrec (by simp) (by simp)
      exact ⟨hcmds, _, rfl, rfl⟩

/-- After `ls`, the line `!!` runs `ls` and records it. -/
theorem numbering_repeats : ∃ s s' : Session, Reaches [literal ['l', 's', '\n']] s ∧
    s.num_cmds = s.history.cmd_count ∧
    read_command ⟨.empty, 0⟩ s (literal ['!', '!', '\n']) = .ok (s', some ⟨[literal ['l', 's']], false⟩) ∧
    s'.commands = [literal ['l', 's', '\n'], literal ['l', 's', '\n']] := by
  have hls : command (tokens (literal ['l', 's', '\n'])) = some ⟨[literal ['l', 's']], false⟩ := by decide
  have hrep : tokens (literal ['!', '!', '\n']) = [literal ['!', '!']] := by decide
  obtain ⟨s, hreach, hcmds⟩ := Reaches.exists_next .nil (by decide) (by decide) hls rfl (by decide) (by decide)
  obtain ⟨hnum, hcount, _, hlast⟩ := numbering hreach
  rw [hcmds] at hcount
  obtain ⟨hhis, hrun⟩ := hlast _ _ ⟨_, _, hrep, by decide, by decide⟩ (by rw [hcmds]; rfl) ⟨.empty, 0⟩
  obtain ⟨s', hr', _⟩ := hreach.coherent.exists_expanded hrep (by decide) (by rw [hrep]; rfl) hhis (by decide)
    (by rw [hcount]; decide) (room_of_lt (by decide) _)
  exact ⟨s, s', hreach, hnum, hr', by rw [(hrun _ _ hr').1, hcmds]; rfl⟩

end Cs326.Prompt
