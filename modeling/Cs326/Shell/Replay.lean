import Cs326.Shell.Numbering

/-!
# Replaying an entry

`!k` runs the tokens of entry `k` as they are: the `&` at the end is looked for before the reference is expanded, and
not again in the text that takes its place. So a background command comes back as a foreground command with `&` for its
last word, and a comment line, which has no tokens, comes back as a `NULL` command. All other entries are replayed, the
copy in `hisTemp` having room for texts of less than `8` bytes.
-/

namespace Cs326.Prompt

variable {env : Env} {s s' : Session} {line text : CString} {lines : List CString} {cmd : Option Command} {c : Command}
  {k : Nat}

/-- The line is `!k`. -/
def IsNumber (line : CString) (k : Nat) : Prop :=
  ∃ first, tokens line = [first] ∧ first.head = bang ∧ (first.drop 1).bytes ≠ [] ∧
    (first.drop 1).bytes.all isdigit = true ∧ (first.drop 1).decimal = k

/-- The text was recorded with the number `k`, which is still retained. -/
structure Retained (s : Session) (k : Nat) (text : CString) : Prop where
  recorded : s.commands[k]? = some text
  minimum : s.history.minimum ≤ k

/-- As long as no text has run over its slot, the retained texts are in their slots. -/
theorem Retained.text_eq (h : Coherent 0 s) (hk : Retained s k text)
    (hshort : ∀ t ∈ s.commands, t.length < 100000) : s.history.text k = text := by
  have hmin := hk.minimum
  rw [h.records.minimum] at hmin
  exact h.records.text_eq hshort hk.recorded (by omega)

/-- The line does what the line `text` did, and records `text`. -/
def Replays (env : Env) (s : Session) (line text : CString) (s' : Session) : Prop :=
  read_command env s line = .ok (s', command (tokens text)) ∧ s.history.add_history text = .ok s'.history

/-- A text with a command in the foreground. -/
def Foreground (text : CString) : Prop := tokens text ≠ [] ∧ (tokens text).getLast? ≠ some ampersand

instance : Decidable (Foreground text) := inferInstanceAs (Decidable (_ ∧ _))

/-- What a line that is no reference runs is told by its tokens. -/
theorem typed_command (hr : read_command env s line = .ok (s', cmd))
    (hb : Plain line) : cmd = command (tokens line) := by
  cases read_command_iff.mp hr with
  | empty hnil =>
    rw [hnil]
    rfl
  | typed hc => exact hc.symm
  | unmatched hc htoks _ hbang | expanded hc htoks _ hbang => exact absurd hbang (hb _ (head_of_command hc htoks))

theorem command_eq_iff : command (tokens text) = some ⟨tokens text, false⟩ ↔ Foreground text := by
  unfold Foreground
  cases tokens text with
  | nil => simp [command]
  | cons a as =>
    unfold command
    split <;> simp_all

theorem reference_number {first : CString} (hne : (first.drop 1).bytes ≠ [])
    (hdigits : (first.drop 1).bytes.all isdigit = true) : reference first = .number (first.drop 1) := by
  have hd : isdigit (first.drop 1).head = true := by
    cases hb : (first.drop 1).bytes with
    | nil => exact absurd hb hne
    | cons b bs =>
      rw [hb, List.all_cons, Bool.and_eq_true] at hdigits
      rw [CString.head, hb]
      exact hdigits.1
  have hbang : (first.drop 1).head ≠ bang := by
    intro he
    rw [he] at hd
    exact absurd hd (by decide)
  rw [reference, if_neg hbang, if_pos hd]

/-- **What `!k` does** with a retained entry. -/
theorem read_number (h : Coherent 0 s) (hk : Retained s k text) (hline : IsNumber line k) :
    read_command env s line = .ok (s', cmd) ↔ s.num_cmds ≠ INT_MAX ∧ tokens (s.history.text k) ≠ [] ∧
      (s.counted.copy 8 (s.history.text k)).record (s.history.text k) = .ok s' ∧
      cmd = some ⟨tokens (s.history.text k), false⟩ := by
  obtain ⟨first, htok, hb, hne, hdigits, hval⟩ := hline
  have hcount := h.records.cmd_count
  have hbound := h.records.bound
  have hlt : k < s.commands.length := (List.getElem?_eq_some_iff.mp hk.recorded).1
  have hhis : hisStr env s.counted (reference first) = some (s.history.text k) := by
    rw [reference_number hne hdigits, hisStr, atoi, hval, if_pos (by omega)]
    exact History.get_cmd_natCast (h := s.history) hk.minimum (by omega)
  have hc : command (tokens line) = some ⟨[first], false⟩ := by
    rw [← htok, command_eq_iff, Foreground, htok]
    exact ⟨List.cons_ne_nil _ _, by simpa using ne_ampersand hb⟩
  rw [read_reference htok hb, hhis, reference_number hne hdigits]
  simp only [hc, reduceCtorEq, false_and, false_or, Option.some.injEq, exists_eq_left', Session.found]

/-- What the replay of an entry takes. -/
theorem exists_replays (h : Coherent 0 s) (hk : Retained s k text) (hline : IsNumber line k) :
    Replays env s line text s' ↔ s.history.text k = text ∧ Foreground text ∧ s.history.cmd_count ≠ INT_MAX ∧
      (s.counted.copy 8 text).record text = .ok s' := by
  unfold Replays
  rw [read_number h hk hline, h.counters]
  constructor
  · rintro ⟨⟨hmax, _, hr, hcmd⟩, ha⟩
    obtain ⟨ha', _⟩ : Adds (s.history.text k) s s' := adds_of_record hr (by simp) (by simp)
    have htext : s.history.text k = text :=
      (History.text_of_add_history ha').symm.trans (History.text_of_add_history ha)
    rw [htext] at hr hcmd
    exact ⟨htext, command_eq_iff.mp hcmd, hmax, hr⟩
  · rintro ⟨htext, hfg, hmax, hr⟩
    rw [htext]
    obtain ⟨ha, _⟩ : Adds text s s' := adds_of_record hr (by simp) (by simp)
    exact ⟨⟨hmax, hfg.1, hr, command_eq_iff.mpr hfg⟩, ha⟩

/-- `hisTemp` has `8` bytes. -/
theorem undefined_iff (hr : (s.counted.copy 8 text).record text = .ok s') :
    s'.undefined = s.undefined ↔ text.length < 8 := by
  obtain ⟨h', _, rfl⟩ := Session.record_eq_ok.mp hr
  simp only [Session.copy_undefined, Session.counted_undefined, List.append_assoc, List.append_right_eq_self,
    List.append_eq_nil_iff]
  constructor
  · rintro ⟨h8, _⟩
    by_contra hge
    rw [if_neg hge] at h8
    cases h8
  · intro hlt
    exact ⟨if_pos hlt, if_pos (by omega)⟩

/-- **Replay.** The line `!k` does what the entry with the number `k` did and records its text exactly if the text is
still in its slot and is a command in the foreground, and there is room to record it. It does so without overrunning
`hisTemp` exactly if the text has less than `8` bytes. -/
theorem replay (h : Reaches lines s) (hk : Retained s k text) (hline : IsNumber line k) :
    ((∃ s', Replays env s line text s') ↔ s.history.text k = text ∧ Foreground text ∧
      s.history.cmd_count ≠ INT_MAX ∧ text.length < (100 - s.history.cmd_count % 100) * 100000) ∧
    ((∃ s', Replays env s line text s' ∧ s'.undefined = s.undefined) ↔ s.history.text k = text ∧ Foreground text ∧
      s.history.cmd_count ≠ INT_MAX ∧ text.length < 8) := by
  have hco := h.coherent
  have hrec : (∃ s', (s.counted.copy 8 text).record text = .ok s') ↔ s.history.cmd_count ≠ INT_MAX ∧
      text.length < (100 - s.history.cmd_count % 100) * 100000 := by
    rw [exists_record, Session.copy_history, Session.counted_history]
  constructor
  · constructor
    · rintro ⟨s', hs⟩
      obtain ⟨htext, hfg, _, hr⟩ := (exists_replays hco hk hline).mp hs
      exact ⟨htext, hfg, hrec.mp ⟨s', hr⟩⟩
    · rintro ⟨htext, hfg, hroom⟩
      obtain ⟨s', hr⟩ := hrec.mpr hroom
      exact ⟨s', (exists_replays hco hk hline).mpr ⟨htext, hfg, hroom.1, hr⟩⟩
  · constructor
    · rintro ⟨s', hs, hu⟩
      obtain ⟨htext, hfg, hmax, hr⟩ := (exists_replays hco hk hline).mp hs
      exact ⟨htext, hfg, hmax, (undefined_iff hr).mp hu⟩
    · rintro ⟨htext, hfg, hmax, hlt⟩
      obtain ⟨s', hr⟩ := hrec.mpr ⟨hmax, room_of_lt (by omega) _⟩
      exact ⟨s', (exists_replays hco hk hline).mpr ⟨htext, hfg, hmax, hr⟩, (undefined_iff hr).mpr hlt⟩

theorem isNumber_zero : IsNumber (literal ['!', '0', '\n']) 0 := ⟨literal ['!', '0'], by decide⟩

/-- After `sleep 5 &`, the line `!0` runs `sleep` with the arguments `5` and `&`, in the foreground. -/
theorem background_not_replayed : ¬∀ (env : Env) (lines : List CString) (s : Session) (line text : CString) (k : Nat),
    Reaches lines s → Retained s k text → IsNumber line k → ∃ s', Replays env s line text s' := by
  intro hall
  have hc : command (tokens (literal ['s', 'l', 'e', 'e', 'p', ' ', '5', ' ', '&', '\n'])) =
      some ⟨[literal ['s', 'l', 'e', 'e', 'p'], literal ['5']], true⟩ := by decide
  obtain ⟨s, hreach, hcmds⟩ := Reaches.exists_next .nil (by decide) (by decide) hc rfl (by decide) (by decide)
  have hk : Retained s 0 (literal ['s', 'l', 'e', 'e', 'p', ' ', '5', ' ', '&', '\n']) :=
    ⟨by rw [hcmds]; rfl, by rw [hreach.coherent.records.minimum, hcmds]; decide⟩
  obtain ⟨s', hs⟩ := hall ⟨.empty, 0⟩ _ s _ _ 0 hreach hk isNumber_zero
  obtain ⟨_, hfg, _⟩ := (exists_replays hreach.coherent hk isNumber_zero).mp hs
  exact absurd hfg (by decide)

/-- After `ls`, the line `!0` runs `ls` again, and nothing is overrun. -/
theorem replay_short : ∃ s s' : Session, Reaches [literal ['l', 's', '\n']] s ∧
    Replays ⟨.empty, 0⟩ s (literal ['!', '0', '\n']) (literal ['l', 's', '\n']) s' ∧
    s'.undefined = s.undefined := by
  have hls : command (tokens (literal ['l', 's', '\n'])) = some ⟨[literal ['l', 's']], false⟩ := by decide
  obtain ⟨s, hreach, hcmds⟩ := Reaches.exists_next .nil (by decide) (by decide) hls rfl (by decide) (by decide)
  have hk : Retained s 0 (literal ['l', 's', '\n']) :=
    ⟨by rw [hcmds]; rfl, by rw [hreach.coherent.records.minimum, hcmds]; decide⟩
  have hshort : ∀ t ∈ s.commands, t.length < 100000 := by
    rw [hcmds]
    intro t ht
    obtain rfl := List.mem_singleton.mp ht
    decide
  obtain ⟨s', hs, hu⟩ := (replay hreach hk isNumber_zero).2.mpr
    ⟨hk.text_eq hreach.coherent hshort, by decide, by rw [hreach.coherent.records.cmd_count, hcmds]; decide, by decide⟩
  exact ⟨s, s', hreach, hs, hu⟩

end Cs326.Prompt
