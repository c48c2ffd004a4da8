import Cs326.Inspector.GetNextTok

/-!
# What an earlier file leaves behind

`main` of `inspector.c` reads one file after the other into the same array, and `read` puts no zero behind the bytes.
What the lookup then returns is a matter of the file alone if the bytes read hold a zero, or if the token that it comes
to has its end among them (`reported_from_file_iff`). Otherwise it goes on to what the array held before.
-/

namespace Cs326.Inspector

open CharArray Text

variable {cap : Nat}

/-- The string returned. -/
def value (r : CharArray cap × Option Nat) : Except Undefined (Option (List UInt8)) :=
  match r.2 with
  | none => return none
  | some q => do return some (← r.1.string q)

/-- `read(file, buf, count)`, where `file` is what there is to read, and the lookup. -/
def reported (buf : CharArray cap) (count : Nat) (file : List UInt8) (sep str : CString) (k : Nat) :
    Except Undefined (Option (List UInt8)) := do
  let buf ← buf.write 0 (file.take count)
  value (← getNextTok buf sep str k)

/-- Two runs that read the same file report the same, whatever the array holds before, and report nothing from behind
the array. -/
def FromFile (cap count : Nat) (file : List UInt8) (sep str : CString) (k : Nat) : Prop :=
  ∀ buf buf' : CharArray cap, reported buf count file sep str k = reported buf' count file sep str k ∧
    reported buf count file sep str k ≠ .error .overrun

/-- The tokens that end within the bytes. -/
def ended (sep : CString) (bytes : List UInt8) : List (List UInt8) :=
  tokens sep.bytes (closed (fun b => sep.bytes.contains b) bytes)

/-! ## The value -/

variable {sep str : CString} {a buf : CharArray cap} {bytes rest s : List UInt8} {ts : List (List UInt8)} {k n : Nat}
  {r : Option Nat} {file : List UInt8} {count : Nat}

theorem value_some {q : Nat} {t : List UInt8} (h : StringAt a q t) : value (a, some q) = .ok (some t) := by
  simp only [value, h.string, ok_bind, pure_ok]

theorem Gets.value (h : Gets sep s n a r) : value (a, r) = .ok (tokens sep.bytes s)[n]? := by
  cases r with
  | none =>
    rw [List.getElem?_eq_none h]
    rfl
  | some q =>
    obtain ⟨t, ts, hdrop, htok, -⟩ := h
    have hget : (tokens sep.bytes s)[n]? = some t := by rw [← List.head?_drop, hdrop, List.head?_cons]
    rw [hget, value_some htok]

/-- What is reported of a string. -/
def valueOf (sep str : CString) (k : Nat) (s : List UInt8) : Except Undefined (Option (List UInt8)) :=
  let ts := tokens sep.bytes s
  if str ≠ none_key ∧ ts.length < taken str rounds ts then .error .null else .ok ts[place str k ts]?

theorem lookup_value (hs : StringAt a 0 s) : getNextTok a sep str k >>= value = valueOf sep str k s := by
  unfold valueOf
  dsimp only
  split_ifs with hnull
  · rw [lookup_null hs hnull.1 hnull.2, error_bind]
  · have hfound : str = none_key ∨ taken str rounds (tokens sep.bytes s) ≤ (tokens sep.bytes s).length := by
      by_cases hkey : str = none_key
      · exact .inl hkey
      · exact .inr (Nat.le_of_not_lt fun hlt => hnull ⟨hkey, hlt⟩)
    obtain ⟨a', r, hget, hgets⟩ := lookup_string (k := k) hs hfound
    rw [hget, ok_bind, hgets.value]

theorem valueOf_ne_overrun (sep str : CString) (k : Nat) (s : List UInt8) : valueOf sep str k s ≠ .error .overrun := by
  unfold valueOf
  dsimp only
  split_ifs <;> simp

/-! ## The array after the read -/

/-- The bytes read replace the front of the array. -/
theorem reported_eq (h : (file.take count).length ≤ cap) (buf : CharArray cap) (sep str : CString) (k : Nat) :
    ∃ a : CharArray cap, a.bytes = file.take count ++ buf.bytes.drop (file.take count).length ∧
      reported buf count file sep str k = getNextTok a sep str k >>= value := by
  have hsplit : buf.bytes =
      [] ++ (buf.bytes.take (file.take count).length ++ buf.bytes.drop (file.take count).length) := by
    rw [List.nil_append, List.take_append_drop]
  have hlen : (file.take count).length = (buf.bytes.take (file.take count).length).length := by
    rw [List.length_take_of_le (h.trans_eq buf.length_eq.symm)]
  obtain ⟨a, hread, ha⟩ := write_eq [] _ (file.take count) _ hsplit hlen
  refine ⟨a, ha, ?_⟩
  rw [reported, show buf.write 0 (file.take count) = .ok a from hread]
  rfl

/-! ## Arrays without a zero -/

/-- The cursor of an array without a zero, of which `ts` are the tokens with an end. -/
def Endless (sep : CString) (a : CharArray cap) (ptr : Option Nat) (ts : List (List UInt8)) : Prop :=
  ∃ p, ptr = some p ∧ Unended sep.bytes a p ts

theorem supplies_endless (sep : CString) :
    Supplies sep (Endless sep : CharArray cap → Option Nat → List (List UInt8) → Prop) fun _ _ => True := by
  refine ⟨fun {a ptr t ts} h => ?_⟩
  obtain ⟨p, rfl, h⟩ := h
  obtain ⟨a', p', q, hnext, htok, hrest⟩ := next_token_unended_cons sep.nonzero h
  exact ⟨a', some p', q, hnext, htok, trivial, p', rfl, hrest⟩

theorem endless_start (ha : a.bytes = s) (h0 : 0 ∉ s) : Endless sep a (some 0) (ended sep s) :=
  ⟨0, rfl, by rwa [List.drop_zero, ha], by rw [List.drop_zero, ha]; rfl⟩

theorem Endless.overrun {ptr : Option Nat} (h : Endless sep a ptr []) :
    next_token a ptr sep.bytes = .error .overrun := by
  obtain ⟨p, rfl, h⟩ := h
  exact next_token_unended_nil h

theorem Endless.search_overrun {ptr : Option Nat} (n : Nat) (h : Endless sep a ptr []) :
    search sep str (n + 1) a ptr = .error .overrun := by
  simp only [search, h.overrun, error_bind]

theorem Endless.skip_overrun {ptr : Option Nat} (n : Nat) (h : Endless sep a ptr []) :
    skip sep (n + 1) a ptr = .error .overrun := by
  simp only [skip, h.overrun, error_bind]

/-- Where too few tokens have an end, the lookup leaves the array. -/
theorem lookup_overrun (h : Endless sep a (some 0) ts) (hk : ts.length ≤ place str k ts) :
    getNextTok a sep str k = .error .overrun := by
  have hsupplies : Supplies sep (Endless sep : CharArray cap → Option Nat → List (List UInt8) → Prop) fun _ _ => True :=
    supplies_endless sep
  unfold place at hk
  unfold getNextTok
  split_ifs at hk ⊢ with hkey
  · obtain rfl := List.length_eq_zero_iff.mp (Nat.le_zero.mp hk)
    rw [h.overrun, error_bind]
  rcases Nat.lt_or_ge ts.length (taken str rounds ts) with hsearch | hsearch
  · rw [search_end hsupplies str rounds Endless.search_overrun h hsearch, error_bind]
  obtain ⟨a', ptr', hsearch, h'⟩ := search_eq hsupplies str rounds h hsearch
  rw [hsearch, ok_bind]
  rcases Nat.lt_or_ge (ts.drop (taken str rounds ts)).length k with hskip | hskip
  · simp only [skip_end hsupplies Endless.skip_overrun h' hskip, error_bind]
  · obtain ⟨a'', ptr'', hskip, h''⟩ := skip_eq hsupplies h' hskip
    rw [List.drop_drop, List.drop_eq_nil_iff.mpr hk] at h''
    simp only [hskip, ok_bind, h''.overrun, error_bind]

/-! ## Old and new bytes -/

/-- **A token that ends within the bytes** is reported, whatever comes behind them. -/
theorem lookup_ended (ha : a.bytes = bytes ++ rest) (h0 : 0 ∉ bytes)
    (hk : place str k (ended sep bytes) < (ended sep bytes).length) :
    getNextTok a sep str k >>= value = .ok (ended sep bytes)[place str k (ended sep bytes)]? := by
  obtain ⟨a', q, t, us, hget, hdrop, htok⟩ : ∃ a' q t us, getNextTok a sep str k = .ok (a', some q) ∧
      (ended sep bytes).drop (place str k (ended sep bytes)) = t :: us ∧ StringAt a' q t := by
    by_cases hz : 0 ∈ rest
    · obtain ⟨old, back, rfl, hold⟩ := List.eq_append_cons_of_mem hz
      have hs : StringAt a 0 (bytes ++ old) := by
        refine ⟨fun hm => (List.mem_append.mp hm).elim h0 hold, back, ?_⟩
        rw [List.drop_zero, ha, List.append_assoc]
      obtain ⟨us, hus⟩ := pieces_append_closed (fun b => sep.bytes.contains b) bytes old
      have hstart : Coming sep (bytes ++ old) a (some 0) (ended sep bytes ++ us) := hus ▸ coming_start hs
      obtain ⟨a', q, t, us, hget, hdrop, htok, -⟩ := lookup_some (supplies_string sep _).front ⟨us, hstart⟩ hk
      exact ⟨a', q, t, us, hget, hdrop, htok⟩
    · obtain ⟨us, hus⟩ := pieces_closed_append (fun b => sep.bytes.contains b) bytes rest
      have hstart : Endless sep a (some 0) (ended sep bytes ++ us) :=
        hus ▸ endless_start ha fun hm => (List.mem_append.mp hm).elim h0 hz
      obtain ⟨a', q, t, us, hget, hdrop, htok, -⟩ := lookup_some (supplies_endless sep).front ⟨us, hstart⟩ hk
      exact ⟨a', q, t, us, hget, hdrop, htok⟩
  rw [hget, ok_bind, value_some htok, ← List.head?_drop, hdrop, List.head?_cons]

theorem zero_notMem_ended {tok : List UInt8} (h0 : 0 ∉ bytes) (h : tok ∈ ended sep bytes) : 0 ∉ tok := by
  intro hz
  exact h0 (( closed_prefix _ _).subset ((infix_of_mem_pieces h).subset hz))

/-- The array after the call, with the token in it. -/
theorem token_read {tok : List UInt8} (hcount : (file.take count).length ≤ cap) (h0 : 0 ∉ file.take count)
    (htok : (ended sep (file.take count))[place str k (ended sep (file.take count))]? = some tok)
    (buf : CharArray cap) : ∃ a a' q, buf.write 0 (file.take count) = .ok a ∧
      getNextTok a sep str k = .ok (a', some q) ∧ a'.string q = .ok tok := by
  obtain ⟨a, ha, hrep⟩ := reported_eq hcount buf sep str k
  have hvalue := lookup_ended ha h0 (List.getElem?_eq_some_iff.mp htok).1
  rw [← hrep, htok] at hvalue
  unfold reported at hvalue
  obtain ⟨a, hread, hvalue⟩ := bind_ok hvalue
  obtain ⟨⟨a', r⟩, hget, hvalue⟩ := bind_ok hvalue
  cases r with
  | none => cases hvalue
  | some q =>
    obtain ⟨t, hstring, ht⟩ := bind_ok hvalue
    cases ht
    exact ⟨a, a', q, hread, hget, hstring⟩

/-- Old bytes that end neither a token nor the string. -/
theorem exists_endless_byte (sep : CString) (h0 : 0 ∉ bytes) (m : Nat) : ∃ x, x ≠ 0 ∧
    ended sep (bytes ++ List.replicate m x) = ended sep bytes := by
  by_cases h : ∃ x, x ≠ 0 ∧ sep.bytes.contains x = false
  · obtain ⟨x, hx, hsep⟩ := h
    refine ⟨x, hx, ?_⟩
    rw [ended, closed_append_of_none]
    · rfl
    · intro b hb
      rw [List.eq_of_mem_replicate hb, hsep]
  · -- every byte but the zero is a separator, and there are no tokens at all
    have hall : ∀ {s : List UInt8}, 0 ∉ s → ended sep s = [] := by
      intro s hs
      apply pieces_delims
      intro b hb
      by_contra hsep
      have hmem : b ∈ s := List.IsPrefix.mem hb ( closed_prefix _ s)
      exact h ⟨b, fun hb0 => hs (hb0 ▸ hmem), by simpa using hsep⟩
    refine ⟨1, by decide, ?_⟩
    rw [hall h0, hall]
    intro hm
    rcases List.mem_append.mp hm with hm | hm
    · exact h0 hm
    · exact absurd (List.eq_of_mem_replicate hm) (by decide)

/-- **What is reported is a matter of the file alone** if and only if the bytes read hold a zero, or so many tokens have
their end in them that the lookup comes to one of these. -/
theorem reported_from_file_iff (hcount : count ≤ cap) (file : List UInt8) (sep str : CString) (k : Nat) :
    FromFile cap count file sep str k ↔ 0 ∈ file.take count ∨
      place str k (ended sep (file.take count)) < (ended sep (file.take count)).length := by
  have hfits : (file.take count).length ≤ cap := (List.length_take_le _ _).trans hcount
  constructor
  · intro h
    by_contra hneither
    obtain ⟨h0, hk⟩ := not_or.mp hneither
    obtain ⟨x, hx, hended⟩ := exists_endless_byte sep h0 (cap - (file.take count).length)
    obtain ⟨a, ha, hrep⟩ := reported_eq hfits ⟨List.replicate cap x, List.length_replicate⟩ sep str k
    rw [List.drop_replicate] at ha
    have hstart : Endless sep a (some 0) (ended sep (file.take count)) := by
      rw [← hended]
      apply endless_start ha
      exact fun hm => (List.mem_append.mp hm).elim h0 fun hm => hx (List.eq_of_mem_replicate hm).symm
    refine (h ⟨List.replicate cap x, List.length_replicate⟩ ⟨List.replicate cap x, List.length_replicate⟩).2 ?_
    rw [hrep, lookup_overrun hstart (Nat.le_of_not_lt hk), error_bind]
  · intro h
    -- the same value in every run
    obtain ⟨v, hv, hsame⟩ : ∃ v, v ≠ .error .overrun ∧
        ∀ buf : CharArray cap, reported buf count file sep str k = v := by
      by_cases h0 : 0 ∈ file.take count
      · obtain ⟨text, back, hfile, htext⟩ := List.eq_append_cons_of_mem h0
        refine ⟨_, valueOf_ne_overrun sep str k text, fun buf => ?_⟩
        obtain ⟨a, ha, hrep⟩ := reported_eq hfits buf sep str k
        rw [hfile, List.append_assoc, List.cons_append] at ha
        rw [hrep, lookup_value ⟨htext, _, ha⟩]
      · refine ⟨.ok (ended sep (file.take count))[place str k (ended sep (file.take count))]?, by simp, fun buf => ?_⟩
        obtain ⟨a, ha, hrep⟩ := reported_eq hfits buf sep str k
        rw [hrep, lookup_ended ha h0 (h.resolve_left h0)]
    intro buf buf'
    rw [hsame buf, hsame buf']
    exact ⟨rfl, hv⟩

/-- A word and its end of line are read. -/
theorem closed_word_reported : FromFile 100000 1000 (chars ['5', '\n']) (literal [' ', '\n']) none_key 0 :=
  (reported_from_file_iff (by decide) _ _ _ _).mpr (.inr (by decide))

/-- An array with the string `s` in front, and zeros behind it. -/
def holding (cap : Nat) (s : List UInt8) (h : s.length ≤ cap) : CharArray cap :=
  ⟨s ++ List.replicate (cap - s.length) 0, by simp [h]⟩

/-- The string that the array held shows behind the bytes read. -/
theorem reported_holding (hlt : s.length < cap) (hle : (file.take count).length ≤ s.length)
    (h0 : 0 ∉ file.take count ++ s.drop (file.take count).length) :
    reported (holding cap s hlt.le) count file sep str k =
      valueOf sep str k (file.take count ++ s.drop (file.take count).length) := by
  obtain ⟨a, ha, hrep⟩ := reported_eq (hle.trans hlt.le) (holding cap s hlt.le) sep str k
  obtain ⟨m, hm⟩ : ∃ m, cap - s.length = m + 1 := ⟨cap - s.length - 1, by omega⟩
  rw [hrep]
  refine lookup_value ⟨h0, List.replicate m 0, ?_⟩
  rw [List.drop_zero, ha, holding, List.drop_append_of_le_length hle, hm, List.replicate_succ, List.append_assoc]

/-- The second digit is one of the old contents. -/
theorem old_digit_reported :
    reported (holding 100000 (chars ['1']) (by decide)) 1000 (chars ['5']) (literal [' ', '\n']) none_key 0 =
      .ok (some (chars ['5'])) ∧
    reported (holding 100000 (chars ['1', '7']) (by decide)) 1000 (chars ['5']) (literal [' ', '\n']) none_key 0 =
      .ok (some (chars ['5', '7'])) ∧
    ¬FromFile 100000 1000 (chars ['5']) (literal [' ', '\n']) none_key 0 := by
  have hone : reported (holding 100000 (chars ['1']) (by decide)) 1000 (chars ['5']) (literal [' ', '\n']) none_key 0 =
      .ok (some (chars ['5'])) :=
    reported_holding (by decide) (by decide) (by decide)
  have htwo : reported (holding 100000 (chars ['1', '7']) (by decide)) 1000 (chars ['5']) (literal [' ', '\n'])
      none_key 0 = .ok (some (chars ['5', '7'])) :=
    reported_holding (by decide) (by decide) (by decide)
  refine ⟨hone, htwo, fun h => ?_⟩
  have hsame := hone.symm.trans ((h _ _).1.trans htwo)
  exact absurd hsame (by decide)

end Cs326.Inspector
