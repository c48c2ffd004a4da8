import Cs326.Shell.Numbering

/-!
# References without a match

Without a command recorded `!!` copies from `NULL`. For `!n` and `!prefix` without a match `hisTemp` is recorded all the
same, which was allocated and not written (`Session.unwrittenReads` counts these reads). `get_cmd` also takes the number
`cmd_count` of the next command, whose slot is empty or still holds the oldest entry. So a reference without a match
leaves the history intact only where that slot holds the line itself, which takes an earlier read of unwritten memory or
a text longer than its slot (`failed_expansion`).
-/

namespace Cs326.Prompt

variable {env : Env} {s s₁ s' : Session} {line text first : CString} {lines rest toks cs : List CString}
  {cmd : Option Command} {ref : Reference} {n k : Nat} {h : History}

/-! ## Reads of unwritten memory -/

/-- How many unwritten blocks have been read. -/
def Session.unwrittenReads (s : Session) : Nat := s.undefined.count .unwritten

namespace Session

@[simp] theorem counted_unwrittenReads : s.counted.unwrittenReads = s.unwrittenReads := rfl

@[simp] theorem note_unwritten : (s.note .unwritten).unwrittenReads = s.unwrittenReads + 1 := by
  simp [note, unwrittenReads]

@[simp] theorem note_overrun : (s.note .overrun).unwrittenReads = s.unwrittenReads := by
  simp [note, unwrittenReads]

@[simp] theorem copy_unwrittenReads : (s.copy n text).unwrittenReads = s.unwrittenReads := by
  unfold copy
  split
  · rfl
  · exact note_overrun

@[simp] theorem found_unwrittenReads : (s.found text ref).unwrittenReads = s.unwrittenReads := by
  cases ref <;> simp [found]

theorem record_unwrittenReads (hr : s.record text = .ok s') : s'.unwrittenReads = s.unwrittenReads := by
  obtain ⟨h', _, rfl⟩ := record_eq_ok.mp hr
  exact copy_unwrittenReads

theorem tokenizer_unwrittenReads (ht : s.tokenizer line = .ok (s', toks)) : s'.unwrittenReads = s.unwrittenReads := by
  obtain ⟨_, s₁, hs₁, hs'⟩ := tokenizer_cases ht
  have hpast : s₁.unwrittenReads = s.unwrittenReads := by
    rcases hs₁ with rfl | hr
    · rfl
    · exact (record_unwrittenReads hr).trans counted_unwrittenReads
  rcases hs' with rfl | rfl
  · exact hpast
  · rw [note_overrun, hpast]

end Session

/-! ## The texts in the history -/

/-- What a reference expands to is in a slot that `get_cmd` accepts. -/
theorem text_of_hisStr (hmin : s.history.minimum ≤ s.history.cmd_count) (hh : hisStr env s ref = some text) :
    ∃ k, s.history.minimum ≤ k ∧ k ≤ s.history.cmd_count ∧ s.history.text k = text := by
  have hget : ∀ {num : Int}, s.history.get_cmd num = some text →
      ∃ k, s.history.minimum ≤ k ∧ k ≤ s.history.cmd_count ∧ s.history.text k = text := by
    intro num hn
    obtain ⟨h1, h2, ht⟩ := History.get_cmd_eq_some.mp hn
    exact ⟨num.toNat, by omega, by omega, ht⟩
  cases ref with
  | last | number => exact hget hh
  | find cmd =>
    rcases History.find_cmd_cases hmin with ⟨k, h1, h2, _, he⟩ | ⟨_, he⟩
    · exact ⟨k, h1, h2.le, Option.some.inj (he.symm.trans hh)⟩
    · cases he.symm.trans hh

/-- As long as no text has run over its slot, each slot is empty or holds a recorded text. -/
theorem Records.text_cases (hr : Records h cs) (hshort : ∀ t ∈ cs, t.length < 100000) (h1 : h.minimum ≤ k)
    (h2 : k ≤ h.cmd_count) : h.text k = .empty ∨ h.text k ∈ cs := by
  have hcount := hr.cmd_count
  have hmin := hr.minimum
  have hin : ∀ {j}, j < cs.length → cs.length ≤ j + 100 → h.text j ∈ cs := by
    intro j hj hret
    rw [hr.text_eq hshort (List.getElem?_eq_getElem hj) hret]
    exact List.getElem_mem hj
  rcases Nat.lt_or_ge k cs.length with hlt | hge
  · exact .inr (hin hlt (by omega))
  · obtain rfl : k = cs.length := by omega
    rcases Nat.lt_or_ge cs.length 100 with hfew | hfull
    · have hslot := hr.unused hshort (cs.length % 100) (by omega) (by omega)
      left
      rw [History.text_of_lt (by rw [hslot]; decide), hslot]
    · right
      have hwrap : h.text cs.length = h.text (cs.length - 100) := by
        rw [History.text, History.text, show (cs.length - 100) % 100 = cs.length % 100 by omega]
      rw [hwrap]
      exact hin (by omega) (by omega)

theorem plain_of_nil (hnil : tokens line = []) : Plain line := by
  intro first hf
  rw [hnil] at hf
  cases hf

/-- As long as no unwritten memory was read and no text has run over its slot, no recorded text is a reference. -/
def Clean (s : Session) : Prop :=
  s.unwrittenReads = 0 → (∀ t ∈ s.commands, t.length < 100000) → ∀ t ∈ s.commands, Plain t

theorem Clean.adds (hs : Clean s) (ha : Adds text s s') (hu : s'.unwrittenReads = s.unwrittenReads)
    (htext : s.unwrittenReads = 0 → (∀ t ∈ s.commands, t.length < 100000) → Plain text) : Clean s' := by
  intro h0 hshort t ht
  rw [hu] at h0
  rw [ha.2] at hshort ht
  have hold : ∀ t ∈ s.commands, t.length < 100000 := fun t ht => hshort t (List.mem_append_left _ ht)
  rcases List.mem_append.mp ht with ht | ht
  · exact hs h0 hold t ht
  · obtain rfl := List.mem_singleton.mp ht
    exact htext h0 hold

/-- **A line** records itself if it is no reference, or another text of the history. -/
theorem Clean.reads (hs : Clean s) (hco : Coherent 0 s) (hr : Reads env s line s' cmd) : Clean s' := by
  cases hr with
  | empty hnil ht =>
    have hu := Session.tokenizer_unwrittenReads ht
    rcases (hco.tokenizer ht).2 with ⟨_, hcmds⟩ | ha
    · intro h0 hshort
      rw [hu] at h0
      rw [hcmds] at hshort ⊢
      exact hs h0 hshort
    · exact hs.adds ha hu fun _ _ => plain_of_nil hnil
  | typed hc htoks _ hb hrec =>
    have hu := (Session.record_unwrittenReads hrec).trans Session.counted_unwrittenReads
    refine hs.adds (adds_of_record hrec rfl rfl) hu fun _ _ first hfirst => ?_
    obtain rfl := Option.some.inj ((head_of_command hc htoks).symm.trans hfirst)
    exact hb
  | unmatched _ _ _ _ _ _ hrec =>
    have hu := Session.record_unwrittenReads hrec
    intro h0
    rw [hu, Session.note_unwritten] at h0
    exact absurd h0 (Nat.succ_ne_zero _)
  | expanded _ _ _ _ hsome hne hrec =>
    have hcount := hco.records.cmd_count
    have hmin := hco.records.minimum
    have hu : s'.unwrittenReads = s.unwrittenReads := by simpa using Session.record_unwrittenReads hrec
    refine hs.adds (adds_of_record hrec (by simp) (by simp)) hu fun h0 hshort => ?_
    obtain ⟨k, h1, h2, rfl⟩ := text_of_hisStr (s := s.counted) (by dsimp; omega) hsome
    rcases hco.records.text_cases hshort h1 h2 with he | hmem
    · rw [Session.counted_history, he] at hne
      exact absurd rfl hne
    · exact hs h0 hshort _ hmem

theorem Reaches.clean (h : Reaches lines s) : Clean s := by
  refine (Run.stable (I := fun s => Coherent 0 s ∧ Clean s) ?_ h ⟨coherent_init, fun _ _ t ht => by cases ht⟩).2
  rintro s lines s' ⟨hco, hs⟩ ⟨env, line, cmd, _, hr, _⟩
  have hreads := read_command_iff.mp hr
  exact ⟨(hco.reads hreads).1, hs.reads hco hreads⟩

/-! ## References without a match -/

/-- The reference names a listed entry. -/
def Matches (h : History) : Reference → Prop
  | .last => h.cmd_count ≠ 0
  | .number digits => h.minimum ≤ digits.decimal ∧ digits.decimal < h.cmd_count
  | .find cmd => ∃ k, h.minimum ≤ k ∧ k < h.cmd_count ∧ (h.text k).startsWith cmd = true

/-- The line reads no unwritten memory, and leaves the history as it is or records the line as typed. -/
def Intact (env : Env) (s : Session) (line : CString) : Prop :=
  ∃ s' cmd, read_command env s line = .ok (s', cmd) ∧ s'.unwrittenReads = s.unwrittenReads ∧
    (s'.history = s.history ∨ s.history.add_history line = .ok s'.history)

/-- Without a match there is nothing to expand to, but for what `get_cmd` reads for a number it should not accept. -/
theorem hisStr_unmatched (hco : Coherent 0 s) (hno : ¬Matches s.history ref) :
    hisStr env s.counted ref = none ∨
    ∃ digits, ref = .number digits ∧ hisStr env s.counted ref = s.history.get_cmd (atoi env digits) := by
  have hcount := hco.records.cmd_count
  have hmin := hco.records.minimum
  cases ref with
  | last =>
    have h0 : s.history.cmd_count = 0 := by simpa [Matches] using hno
    left
    have hnum := hco.num_cmds
    rw [hisStr, History.get_cmd, if_neg]
    simp only [Session.counted_history, Session.counted_num_cmds]
    omega
  | number digits => exact .inr ⟨digits, rfl, rfl⟩
  | find cmd =>
    left
    have hle : s.history.minimum ≤ s.history.cmd_count := by omega
    rcases History.find_cmd_cases hle with ⟨k, h1, h2, hp, _⟩ | ⟨_, he⟩
    · exact absurd ⟨k, h1, h2, hp⟩ hno
    · exact he

theorem cmd_count_of_add_history {h' : History} (ha : h.add_history text = .ok h') :
    h'.cmd_count = h.cmd_count + 1 := by
  obtain ⟨_, _, _, rfl⟩ := History.add_history_eq_ok.mp ha
  rfl

/-- **A reference without a match** leaves the history intact only if it is `!n`, and `get_cmd` accepts `n` and returns
the line itself. -/
theorem intact_iff (hco : Coherent 0 s) (htok : tokens line = first :: rest) (hb : first.head = bang)
    (hno : ¬Matches s.history (reference first)) :
    Intact env s line ↔ ∃ digits, reference first = .number digits ∧
      s.history.get_cmd (atoi env digits) = some line ∧ s.history.cmd_count ≠ INT_MAX ∧
      line.length < (100 - s.history.cmd_count % 100) * 100000 := by
  have hne : tokens line ≠ [] := by
    rw [htok]
    exact List.cons_ne_nil _ _
  constructor
  · rintro ⟨s', cmd, hr, hu, hh⟩
    obtain ⟨_, c, _, ⟨_, _, hrec, _⟩ | ⟨text, hsome, _, hrec, _⟩⟩ := (read_reference htok hb).mp hr
    · have hu' := Session.record_unwrittenReads hrec
      rw [Session.note_unwritten, Session.counted_unwrittenReads] at hu'
      omega
    · obtain ⟨ha, _⟩ : Adds text s s' := adds_of_record hrec (by simp) (by simp)
      have htext : text = line := by
        rcases hh with hh | hh
        · have hcount := cmd_count_of_add_history ha
          rw [hh] at hcount
          omega
        · exact (History.text_of_add_history ha).symm.trans (History.text_of_add_history hh)
      subst htext
      have hhis : hisStr env s.counted (reference first) = none ∨ _ := hisStr_unmatched hco hno
      rcases hhis with hnone | ⟨digits, href, hget⟩
      · rw [hnone] at hsome
        cases hsome
      · exact ⟨digits, href, hget.symm.trans hsome, History.exists_add_history.mp ⟨_, ha⟩⟩
  · rintro ⟨digits, href, hget, hmax, hroom⟩
    have hhis : hisStr env s.counted (reference first) = some line := by
      rw [href]
      exact hget
    obtain ⟨c, hc⟩ : ∃ c, command (tokens line) = some c := by
      rw [htok]
      exact ⟨_, rfl⟩
    obtain ⟨s', hr, hrec⟩ := hco.exists_expanded htok hb hc hhis hne hmax hroom
    obtain ⟨ha, _⟩ : Adds line s s' := adds_of_record hrec (by simp) (by simp)
    exact ⟨s', _, hr, by simpa using Session.record_unwrittenReads hrec, .inr ha⟩

/-- **Failed expansion.** A reference without a match leaves the history intact exactly if it is `!n`, and `get_cmd`
accepts `n` and returns the line itself, with room to record it. As long as no unwritten memory was read and no text
has run over its slot, no reference without a match leaves the history intact. -/
theorem failed_expansion (h : Reaches lines s) (htok : tokens line = first :: rest) (hb : first.head = bang)
    (hno : ¬Matches s.history (reference first)) :
    (Intact env s line ↔ ∃ digits, reference first = .number digits ∧
      s.history.get_cmd (atoi env digits) = some line ∧ s.history.cmd_count ≠ INT_MAX ∧
      line.length < (100 - s.history.cmd_count % 100) * 100000) ∧
    (.unwritten ∉ s.undefined → (∀ t ∈ s.commands, t.length < 100000) → ¬Intact env s line) := by
  have hco := h.coherent
  have hiff : Intact env s line ↔ _ := intact_iff hco htok hb hno
  refine ⟨hiff, fun hclean hshort hi => ?_⟩
  obtain ⟨digits, _, hget, _⟩ := hiff.mp hi
  obtain ⟨h1, h2, htext⟩ := History.get_cmd_eq_some.mp hget
  rcases hco.records.text_cases hshort (show s.history.minimum ≤ (atoi env digits).toNat by omega) (by omega) with
    he | hmem
  · rw [htext] at he
    rw [he] at htok
    cases htok
  · have hplain := h.clean (List.count_eq_zero.mpr hclean) hshort _ hmem
    rw [htext] at hplain
    exact hplain first (by rw [htok]; rfl) hb

/-- The first line of a session is `!x`. -/
theorem prefix_not_intact : ¬∀ (env : Env) (lines : List CString) (s : Session) (line first : CString)
    (rest : List CString), Reaches lines s → tokens line = first :: rest → first.head = bang →
    ¬Matches s.history (reference first) → Intact env s line := by
  intro hall
  have htok : tokens (literal ['!', 'x', '\n']) = [literal ['!', 'x']] := by decide
  have hno : ¬Matches History.init (reference (literal ['!', 'x'])) := by
    rintro ⟨k, _, hk, _⟩
    cases hk
  have hi := hall ⟨.empty, 0⟩ [] .init _ _ _ .nil htok (by decide) hno
  obtain ⟨digits, href, _⟩ := (intact_iff coherent_init htok (by decide) hno).mp hi
  cases href

/-- A block that is not written holds `!4294967296` when `!x` records it. The same line typed next has a number that is
no `int`, which `atoi` makes `0`. -/
theorem intact_after_unwritten : ∃ s, Reaches [literal ['!', 'x', '\n']] s ∧
    Intact ⟨.empty, 0⟩ s (literal ['!', '4', '2', '9', '4', '9', '6', '7', '2', '9', '6', '\n']) := by
  have hx : tokens (literal ['!', 'x', '\n']) = [literal ['!', 'x']] := by decide
  have hnum : tokens (literal ['!', '4', '2', '9', '4', '9', '6', '7', '2', '9', '6', '\n']) =
      [literal ['!', '4', '2', '9', '4', '9', '6', '7', '2', '9', '6']] := by decide
  obtain ⟨s, hr, hcmds⟩ : ∃ s, read_command
      ⟨literal ['!', '4', '2', '9', '4', '9', '6', '7', '2', '9', '6', '\n'], 0⟩ .init
      (literal ['!', 'x', '\n']) = .ok (s, some ⟨[literal ['!', 'x']], false⟩) ∧
      s.commands = [literal ['!', '4', '2', '9', '4', '9', '6', '7', '2', '9', '6', '\n']] := by
    obtain ⟨s, hrec⟩ : ∃ s, (Session.init.counted.note .unwritten).record
        (literal ['!', '4', '2', '9', '4', '9', '6', '7', '2', '9', '6', '\n']) = .ok s := by
      rw [exists_record]
      decide
    refine ⟨s, (read_reference hx (by decide)).mpr
      ⟨by decide, _, by rw [hx]; rfl, .inl ⟨rfl, by decide, hrec, rfl⟩⟩, ?_⟩
    obtain ⟨_, hcmds⟩ : Adds _ .init s := adds_of_record hrec rfl rfl
    exact hcmds
  have hreach : Reaches [literal ['!', 'x', '\n']] s := Reaches.next .nil hr (by rintro _ ⟨⟩; decide)
  have hrec := hreach.coherent.records
  have hcount := hrec.cmd_count
  have hnew := hrec.newest _ (by rw [hcmds]; rfl)
  rw [hcmds] at hcount hnew
  have hget := History.get_cmd_natCast (h := s.history) (k := 0) (by rw [hrec.minimum, hcmds]; decide) (Nat.zero_le _)
  rw [show s.history.text 0 = _ from hnew] at hget
  refine ⟨s, hreach, (failed_expansion hreach hnum (by decide) ?_).1.mpr
    ⟨_, rfl, hget, by rw [hcount]; decide, ?_⟩⟩
  · rintro ⟨_, hlt⟩
    rw [hcount] at hlt
    exact absurd hlt (by decide)
  · rw [hcount]
    decide

end Cs326.Prompt
