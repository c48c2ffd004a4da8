import Cs326.Shell.Prompt
import Mathlib.Data.List.Induction

/-!
# What the history lists

`history.c` by itself: `add_history` is called with the texts `cs`, one after the other (`Recorded`). The numbers from
`cs.length - 100` on are the retained ones. As long as every text fits its slot, `print_history` prints the retained
entries in order, and `find_cmd` returns the newest one with the prefix. `get_cmd` returns the retained entries too, but
it also takes the number `cmd_count` of the next one.
-/

namespace Cs326.Prompt

variable {s s' : Session} {c p text : CString} {cs : List CString} {h : History} {k n : Nat} {num : Int}

/-- One call of `add_history`. -/
def Record (s : Session) (texts : List CString) (s' : Session) : Prop :=
  ∃ text, texts = [text] ∧ s.record text = .ok s'

/-- `add_history` has been called with the texts `cs`. -/
def Recorded (cs : List CString) (s : Session) : Prop := Run Record .init cs s

/-- The entries with their numbers. -/
def entries (cs : List CString) : List (Int × CString) := cs.zipIdx.map fun e => ((e.2 : Int), e.1)

/-- The retained entries with their numbers. -/
def listing (cs : List CString) : List (Int × CString) := (entries cs).drop (cs.length - 100)

/-- The text of a retained number. -/
def retained (cs : List CString) (num : Int) : Option CString :=
  if (cs.length - 100 : Nat) ≤ num ∧ num < cs.length then cs[num.toNat]? else none

/-- The newest retained text with the prefix. -/
def mostRecent (cs : List CString) (p : CString) : Option CString :=
  (cs.drop (cs.length - 100)).reverse.find? fun c => c.startsWith p

/-! ## Calls of `add_history` -/

/-- What the calls leave behind, and which of them have run over a slot. -/
theorem Recorded.records (hr : Recorded cs s) : Records s.history cs ∧
    s.undefined = cs.flatMap fun c => if c.length < 100000 then [] else [.overrun] := by
  refine Run.invariant (I := fun cs s => Records s.history cs ∧
    s.undefined = cs.flatMap fun c => if c.length < 100000 then [] else [.overrun]) ⟨records_init, rfl⟩ ?_ hr
  rintro cs s _ s' ⟨hrec, hund⟩ ⟨text, rfl, hs⟩
  obtain ⟨h', ha, rfl⟩ := Session.record_eq_ok.mp hs
  refine ⟨hrec.add_history ha, ?_⟩
  dsimp only
  rw [Session.copy_undefined, hund, List.flatMap_append, List.flatMap_singleton]

theorem Recorded.next {h' : History} (hr : Recorded cs s) (ha : s.history.add_history text = .ok h') :
    ∃ s', Recorded (cs ++ [text]) s' ∧ s'.history = h' :=
  ⟨_, hr.snoc ⟨text, rfl, Session.record_eq_ok.mpr ⟨h', ha, rfl⟩⟩, rfl⟩

theorem Recorded.undefined_iff (hr : Recorded cs s) : s.undefined = [] ↔ ∀ c ∈ cs, c.length < 100000 := by
  rw [hr.records.2, List.flatMap_eq_nil_iff]
  simp

/-- Texts that fit their slots are recorded, as many as `cmd_count` can count. -/
theorem exists_recorded (hshort : ∀ c ∈ cs, c.length < 100000) (hmax : cs.length ≤ INT_MAX) :
    ∃ s, Recorded cs s := by
  induction cs using List.reverseRecOn with
  | nil => exact ⟨_, .nil⟩
  | append_singleton cs c ih =>
    rw [List.length_append, List.length_singleton] at hmax
    obtain ⟨s, hs⟩ := ih (fun c hc => hshort c (List.mem_append_left _ hc)) (by omega)
    have hlt : c.length < 100000 := hshort c (by simp)
    have hcount := hs.records.1.cmd_count
    obtain ⟨h', ha⟩ : ∃ h', s.history.add_history c = .ok h' :=
      History.exists_add_history.mpr ⟨by omega, by omega⟩
    obtain ⟨s', hs', _⟩ := hs.next ha
    exact ⟨s', hs'⟩

/-! ## The listing -/

theorem length_entries : (entries cs).length = cs.length := by simp [entries]

theorem getElem_entries (hn : n < (entries cs).length) :
    (entries cs)[n] = ((n : Int), cs.get ⟨n, length_entries ▸ hn⟩) := by
  simp [entries]

namespace Records

/-- With `left` rounds to go, the loop of `print_history` stands `left` in front of the next number, and what it still
prints are the entries from there on. -/
theorem loop_eq (hr : Records h cs) (hshort : ∀ c ∈ cs, c.length < 100000) (hne : ∀ c ∈ cs, c ≠ .empty)
    (hmax : cs.length + 100 ≤ INT_MAX) {left : Nat} (hk : k + left = 100) :
    History.print_history.loop h left (h.tail + 1 + k) (cs.length + k) =
      .ok ((entries cs).drop (cs.length - left)) := by
  have htail := hr.tail
  induction left generalizing k with
  | zero =>
    rw [Nat.sub_zero, List.drop_of_length_le length_entries.le]
    rfl
  | succ left ih =>
    have hrest := ih (k := k + 1) (by omega)
    rw [← Nat.add_assoc, ← Nat.add_assoc] at hrest
    rw [History.print_history.loop, if_neg (by omega), hrest, ok_bind, pure_ok]
    congr 1
    by_cases hlt : cs.length ≤ left
    · -- the slot has never been written
      have hslot := hr.unused hshort ((h.tail + 1 + k) % 100) (by omega) (by omega)
      have htext : h.text (h.tail + 1 + k) = .empty := by
        rw [History.text_of_lt (by rw [hslot]; decide), hslot]
      rw [if_pos htext, Nat.sub_eq_zero_of_le hlt, Nat.sub_eq_zero_of_le (by omega)]
    · obtain ⟨n, hn⟩ : ∃ n, cs.length = n + (left + 1) := ⟨cs.length - (left + 1), by omega⟩
      have hget : cs[n]? = some cs[n] := List.getElem?_eq_getElem (by omega)
      have hmod : (h.tail + 1 + k) % 100 = n % 100 := by omega
      have htext : h.text (h.tail + 1 + k) = cs[n] := by
        rw [← hr.text_eq hshort hget (by omega), History.text, History.text, hmod]
      have hn' : n < (entries cs).length := by
        rw [length_entries]
        omega
      have hnum : ((cs.length + k : Nat) : Int) - 100 = n := by omega
      rw [if_neg (htext ▸ hne _ (List.getElem_mem _)), htext, hnum, show cs.length - (left + 1) = n by omega,
        List.drop_eq_getElem_cons hn', getElem_entries, List.get_eq_getElem, show cs.length - left = n + 1 by omega]

end Records

/-- `j` runs up to `max` above `cmd_count`. -/
theorem loop_overflow {left i j : Nat} (hj : j ≤ INT_MAX) (hlt : INT_MAX < j + left) :
    History.print_history.loop h left i j = .error .overflow := by
  induction left generalizing i j with
  | zero => omega
  | succ left ih =>
    rw [History.print_history.loop]
    split
    · rfl
    · rw [ih (by omega) (by omega), error_bind]

/-- **The listing.** After commands of which none is empty and each is shorter than a slot, `print_history` prints the
retained ones with their numbers in order exactly if `j`, which runs up to `max` above their number, stays an `int`. -/
theorem history_listing (hne : ∀ c ∈ cs, c ≠ .empty) (hshort : ∀ c ∈ cs, c.length < 100000) :
    (∃ s, Recorded cs s ∧ s.history.print_history = .ok (listing cs)) ↔ cs.length + 100 ≤ INT_MAX := by
  constructor
  · rintro ⟨s, hs, hprint⟩
    by_contra hgt
    have hcount := hs.records.1.cmd_count
    have hbound := hs.records.1.bound
    have hover : s.history.print_history = .error .overflow := loop_overflow hbound (by omega)
    rw [hover] at hprint
    cases hprint
  · intro hle
    obtain ⟨s, hs⟩ := exists_recorded hshort (by omega)
    have hcount := hs.records.1.cmd_count
    refine ⟨s, hs, ?_⟩
    rw [History.print_history, hcount]
    exact hs.records.1.loop_eq hshort hne hle (k := 0) rfl

/-- A listing of two commands. -/
theorem history_listing_two : ∃ s, Recorded [literal ['l', 's', '\n'], literal ['p', 's', '\n']] s ∧
    s.history.print_history = .ok [(0, literal ['l', 's', '\n']), (1, literal ['p', 's', '\n'])] :=
  (history_listing (by simp +decide) (by simp +decide)).mpr (by decide)

/-- With `2 ^ 31 - 100` commands recorded, `j` overflows. -/
theorem listing_overflows : ¬∀ cs : List CString, (∀ c ∈ cs, c ≠ .empty) → (∀ c ∈ cs, c.length < 100000) →
    cs.length < 2 ^ 31 → ∀ s, Recorded cs s → s.history.print_history = .ok (listing cs) := by
  intro hall
  have hmem : ∀ c ∈ List.replicate (2 ^ 31 - 100) (literal ['l', 's', '\n']), c = literal ['l', 's', '\n'] :=
    fun c hc => List.eq_of_mem_replicate hc
  have hlen : (List.replicate (2 ^ 31 - 100) (literal ['l', 's', '\n'])).length = 2 ^ 31 - 100 := List.length_replicate
  have hshort : ∀ c ∈ List.replicate (2 ^ 31 - 100) (literal ['l', 's', '\n']), c.length < 100000 := by
    intro c hc
    rw [hmem c hc]
    decide
  obtain ⟨s, hs⟩ := exists_recorded hshort (by rw [hlen]; decide)
  have hcount := hs.records.1.cmd_count
  rw [hlen] at hcount
  have hprint := hall _ (fun c hc => by rw [hmem c hc]; decide) hshort (by rw [hlen]; decide) s hs
  have hover : s.history.print_history = .error .overflow :=
    loop_overflow hs.records.1.bound (by rw [hcount]; decide)
  rw [hover] at hprint
  cases hprint

/-! ## Single entries -/

/-- `get_cmd` returns what the slot of the number holds. -/
theorem Records.get_cmd_eq (hr : Records h cs) (hshort : ∀ c ∈ cs, c.length < 100000) (hne : num ≠ cs.length) :
    h.get_cmd num = retained cs num := by
  have hcount := hr.cmd_count
  have hmin := hr.minimum
  unfold History.get_cmd retained
  by_cases hin : (cs.length - 100 : Nat) ≤ num ∧ num < cs.length
  · have hget : cs[num.toNat]? = some cs[num.toNat] := List.getElem?_eq_getElem (by omega)
    rw [if_pos hin, if_pos (by omega), hget, hr.text_eq hshort hget (by omega)]
  · rw [if_neg hin, if_neg (by omega)]

/-- The number `cmd_count` is taken, though no command has it. -/
theorem Records.get_cmd_next (hr : Records h cs) : h.get_cmd cs.length ≠ retained cs cs.length := by
  have hcount := hr.cmd_count
  have hmin := hr.minimum
  unfold History.get_cmd retained
  rw [if_pos (by omega), if_neg (by omega)]
  exact Option.some_ne_none _

/-- **`get_cmd`.** All texts have been copied into their slots and `get_cmd num` is exact, exactly if the texts are
shorter than a slot, no more than `cmd_count` can count, and `num` is not the number of the next one. -/
theorem get_cmd_exact (cs : List CString) (num : Int) :
    (∃ s, Recorded cs s ∧ s.undefined = [] ∧ s.history.get_cmd num = retained cs num) ↔
      (∀ c ∈ cs, c.length < 100000) ∧ cs.length ≤ INT_MAX ∧ num ≠ cs.length := by
  constructor
  · rintro ⟨s, hs, hund, hget⟩
    have hcount := hs.records.1.cmd_count
    have hbound := hs.records.1.bound
    refine ⟨hs.undefined_iff.mp hund, by omega, ?_⟩
    rintro rfl
    exact hs.records.1.get_cmd_next hget
  · rintro ⟨hshort, hmax, hne⟩
    obtain ⟨s, hs⟩ := exists_recorded hshort hmax
    exact ⟨s, hs, hs.undefined_iff.mpr hshort, hs.records.1.get_cmd_eq hshort hne⟩

/-- With one command recorded, `get_cmd(1)` returns the empty string of a slot that was never written. -/
theorem get_cmd_accepts_next : ¬∀ (cs : List CString) (s : Session) (num : Int), Recorded cs s →
    s.history.get_cmd num = retained cs num := by
  intro hall
  have hshort : ∀ c ∈ [literal ['l', 's', '\n']], c.length < 100000 := by simp +decide
  obtain ⟨s, hs⟩ := exists_recorded hshort (by decide)
  exact hs.records.1.get_cmd_next (hall _ s _ hs)

/-! ## The newest entry with a prefix -/

/-- The search over the first `n` retained entries. -/
theorem Records.search_eq (hr : Records h cs) (hshort : ∀ c ∈ cs, c.length < 100000)
    (hn : n ≤ (cs.drop (cs.length - 100)).length) :
    History.find_cmd.search h p n = ((cs.drop (cs.length - 100)).take n).reverse.find? fun c => c.startsWith p := by
  have hcount := hr.cmd_count
  have hmin := hr.minimum
  induction n with
  | zero => rfl
  | succ n ih =>
    have hlen : n < (cs.drop (cs.length - 100)).length := hn
    rw [List.length_drop] at hlen
    have hget : cs[h.minimum + n]? = some (cs.drop (cs.length - 100))[n] := by
      rw [List.getElem_drop, hmin]
      exact List.getElem?_eq_getElem (by omega)
    rw [History.find_cmd.search, History.get_cmd_natCast (by omega) (by omega), hr.text_eq hshort hget (by omega),
      List.take_succ_eq_append_getElem hn, List.reverse_append, List.reverse_singleton, List.singleton_append,
      List.find?_cons, ih (by omega)]
    dsimp only
    cases (cs.drop (cs.length - 100))[n].startsWith p <;> rfl

theorem Records.find_cmd_eq (hr : Records h cs) (hshort : ∀ c ∈ cs, c.length < 100000) :
    h.find_cmd p = mostRecent cs p := by
  have hwindow : h.cmd_count - h.minimum = (cs.drop (cs.length - 100)).length := by
    rw [List.length_drop, hr.cmd_count, hr.minimum]
  rw [History.find_cmd, hwindow, hr.search_eq hshort le_rfl, List.take_length, mostRecent]

/-- **`find_cmd`.** All texts have been copied into their slots and `find_cmd` returns the newest retained one with the
prefix, exactly if the texts are shorter than a slot and no more than `cmd_count` can count. -/
theorem find_cmd_most_recent (cs : List CString) (p : CString) :
    (∃ s, Recorded cs s ∧ s.undefined = [] ∧ s.history.find_cmd p = mostRecent cs p) ↔
      (∀ c ∈ cs, c.length < 100000) ∧ cs.length ≤ INT_MAX := by
  constructor
  · rintro ⟨s, hs, hund, _⟩
    have hcount := hs.records.1.cmd_count
    have hbound := hs.records.1.bound
    exact ⟨hs.undefined_iff.mp hund, by omega⟩
  · rintro ⟨hshort, hmax⟩
    obtain ⟨s, hs⟩ := exists_recorded hshort hmax
    exact ⟨s, hs, hs.undefined_iff.mpr hshort, hs.records.1.find_cmd_eq hshort⟩

/-- A slot without a zero is read together with what the next one holds by then. -/
theorem read_next {slots : Nat → Slot} {left i : Nat} (hfull : (slots i).str.length = 100000)
    (hlt : text.length < 100000) :
    read (Function.update slots (i + 1) ⟨text, hlt.le⟩) (left + 2) i = (slots i).str.append text := by
  rw [read, Function.update_of_ne (by omega), if_neg (by omega), read, Function.update_self, if_pos hlt]

/-- A command as long as a slot comes back with the next command at its end. -/
theorem text_runs_over {h₁ h₂ : History} {long : CString} (hlong : long.length = 100000) (hlt : text.length < 100000)
    (h1 : History.init.add_history long = .ok h₁) (h2 : h₁.add_history text = .ok h₂) :
    h₂.text 0 = long.append text := by
  obtain ⟨slots₁, hw₁, _, rfl⟩ := History.add_history_eq_ok.mp h1
  obtain ⟨slots₂, hw₂, _, rfl⟩ := History.add_history_eq_ok.mp h2
  obtain rfl := Option.some.inj ((write_short hlt).symm.trans hw₂)
  have hslot : (slots₁ 0).str = long := by
    rw [show History.init.cmd_count = 0 from rfl, write, dif_neg (by omega)] at hw₁
    obtain ⟨slots, _, rfl⟩ := Option.map_eq_some_iff.mp hw₁
    rw [Function.update_self]
    exact CString.ext_bytes (List.take_of_length_le hlong.le)
  exact (read_next (hslot ▸ hlong) hlt).trans (congrArg (fun c => c.append text) hslot)

/-- After a command of `100000` times `a` and the command `ls`, `find_cmd` returns the first with `ls` at its end. -/
theorem find_cmd_runs_over : ¬∀ (cs : List CString) (p : CString) (s : Session), Recorded cs s →
    s.history.find_cmd p = mostRecent cs p := by
  intro hall
  obtain ⟨long, hlong, hp⟩ : ∃ long : CString, long.length = 100000 ∧ long.startsWith (literal ['a']) = true :=
    ⟨⟨List.replicate 100000 97, fun h0 => absurd (List.eq_of_mem_replicate h0) (by decide)⟩, List.length_replicate, rfl⟩
  obtain ⟨h₁, h1⟩ : ∃ h₁, History.init.add_history long = .ok h₁ :=
    History.exists_add_history.mpr ⟨by decide, by rw [hlong]; decide⟩
  have hcount₁ : h₁.cmd_count = 1 := (records_init.add_history h1).cmd_count
  have hls : (literal ['l', 's', '\n']).length < (100 - 1 % 100) * 100000 := by decide
  obtain ⟨h₂, h2⟩ : ∃ h₂, h₁.add_history (literal ['l', 's', '\n']) = .ok h₂ :=
    History.exists_add_history.mpr ⟨by rw [hcount₁]; decide, by rwa [hcount₁]⟩
  have hrec : Records h₂ [long, literal ['l', 's', '\n']] := (records_init.add_history h1).add_history h2
  obtain ⟨s₁, hs₁, rfl⟩ := Recorded.next .nil h1
  obtain ⟨s, hs, rfl⟩ := hs₁.next h2
  have hfind : _ = mostRecent [long, literal ['l', 's', '\n']] _ := hall _ (literal ['a']) s hs
  have hbest : mostRecent [long, literal ['l', 's', '\n']] (literal ['a']) = some long := by
    simp [mostRecent, hp, show (literal ['l', 's', '\n']).startsWith (literal ['a']) = false by decide]
  have hcases : _ ∨ _ ∧ s.history.find_cmd (literal ['a']) = none :=
    History.find_cmd_cases (by rw [hrec.minimum, hrec.cmd_count]; omega)
  rcases hcases with ⟨k, _, hk, _, hfound⟩ | ⟨_, hnone⟩
  · have htext : s.history.text k = long := Option.some.inj (hfound.symm.trans (hfind.trans hbest))
    rw [hrec.cmd_count] at hk
    obtain rfl | rfl : k = 0 ∨ k = 1 := by simp at hk; omega
    · rw [text_runs_over hlong (by decide) h1 h2] at htext
      have hlen := congrArg CString.length htext
      simp [CString.length, CString.append, literal, chars] at hlen
    · rw [show s.history.text 1 = literal ['l', 's', '\n'] from hrec.newest _ rfl] at htext
      rw [← htext] at hlong
      exact absurd hlong (by decide)
  · cases (hfind.symm.trans hnone).symm.trans hbest

end Cs326.Prompt
