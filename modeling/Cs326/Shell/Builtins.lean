import Cs326.Shell.Exec
import Cs326.Shell.Prompt

/-!
# From the command to `exec`

What `main` does with the tokens behind the recording of the line: the builtin commands, the quotes of `tokens[1]`, and
`exec` for all but the builtin commands and `exit`. `setenv` is not marked as builtin, so `exec` runs for it as well.

The quotes are stripped through `temp[500]`. A longer token overruns it, and of a token that is nothing but a quote the
byte in front of `temp` is written: `stripQuote` is what C computes where neither happens (`StripsInTemp`).
-/

namespace Cs326.Prompt

/-- `"`. -/
def doubleQuote : UInt8 := 34

/-- `'`. -/
def singleQuote : UInt8 := 39

/-- `isBIn`. -/
def isBIn (first : CString) : Bool :=
  [literal ['h', 'i', 's', 't', 'o', 'r', 'y'], literal ['c', 'd'],
    literal ['n', 'u', 'm', '_', 'j', 'o', 'b', 's']].contains first

/-- The first byte and the last one are taken off, if the first one is the quote and `temp` holds what is copied. -/
def stripQuote (quote : UInt8) (tok : CString) : CString :=
  if tok.head = quote then (tok.drop 1).take ((tok.drop 1).length - 1) else tok

/-- `tokens[1]` without its quotes. -/
def stripQuotes (tok : CString) : CString := stripQuote singleQuote (stripQuote doubleQuote tok)

/-- `strcpy(temp, tokens[1])` and `temp[length - 1] = 0` behind the quote stay inside of `temp[500]`. -/
def InTemp (quote : UInt8) (tok : CString) : Prop := tok.head = quote → 2 ≤ tok.length ∧ tok.length ≤ 500

/-- So they do for both quotes. -/
def StripsInTemp (toks : List CString) : Prop :=
  ∀ second ∈ toks[1]?, InTemp doubleQuote second ∧ InTemp singleQuote (stripQuote doubleQuote second)

instance (quote : UInt8) (tok : CString) : Decidable (InTemp quote tok) := inferInstanceAs (Decidable (_ → _))

instance (toks : List CString) : Decidable (StripsInTemp toks) :=
  inferInstanceAs (Decidable (∀ second ∈ toks[1]?, _))

/-- The tokens behind the quote handling. -/
def unquote : List CString → List CString
  | first :: second :: rest => first :: stripQuotes second :: rest
  | toks => toks

/-- The array `tokens` at `exec`. Behind its `NULL` it holds what earlier lines have left there. -/
def argumentsOf (toks : List CString) (behind : List (Option CString)) : List (Option CString) :=
  (unquote toks).map some ++ none :: behind

/-- From the test for `exit` to `exec`, `none` where `exec` is not called. -/
def dispatch (getenv : CString → Option CString) (toks : List CString) (behind : List (Option CString)) :
    Option Parse :=
  match toks with
  | [] => none
  | first :: _ => if first = exitToken ∨ isBIn first = true then none else some (exec getenv (argumentsOf toks behind))

/-- The tokens are those of a command that is neither builtin nor `exit`. -/
def Executed (toks : List CString) : Prop := ∀ first ∈ toks.head?, first ≠ exitToken ∧ isBIn first = false

variable {getenv : CString → Option CString} {toks rest : List CString} {behind tokens : List (Option CString)}
  {st : Parse} {first second tok check : CString} {i n : Nat}

theorem dispatch_eq_some (hne : toks ≠ []) : dispatch getenv toks behind = some st ↔
    Executed toks ∧ st = exec getenv (argumentsOf toks behind) := by
  obtain ⟨first, rest, rfl⟩ := List.exists_cons_of_ne_nil hne
  unfold dispatch Executed
  dsimp only
  split
  · rename_i h
    constructor
    · nofun
    · rintro ⟨hex, rfl⟩
      obtain ⟨hexit, hbin⟩ := hex first rfl
      rcases h with h | h
      · exact absurd h hexit
      · cases hbin.symm.trans h
  · rename_i h
    obtain ⟨hexit, hbin⟩ := not_or.mp h
    constructor
    · rintro ⟨⟩
      refine ⟨fun f hf => ?_, rfl⟩
      obtain rfl := Option.some.inj hf
      exact ⟨hexit, Bool.eq_false_iff.mpr hbin⟩
    · rintro ⟨_, rfl⟩
      rfl

/-! ## The stripped quotes -/

theorem stripQuote_bytes (q : UInt8) (tok : CString) : (stripQuote q tok).bytes =
    if tok.head = q then (tok.bytes.drop 1).dropLast else tok.bytes := by
  unfold stripQuote
  split
  · exact List.dropLast_eq_take.symm
  · rfl

/-! ## The array at `exec` -/

/-- `expandVars` changes no other entry than `tokens[1]`. -/
theorem entry_expandVars (hi : i ≠ 1) : entry (expandVars getenv tokens) i = entry tokens i := by
  have hset : ∀ check, entry (tokens.set 1 (some check)) i = entry tokens i := by
    intro check
    rw [entry, List.getElem?_set_ne (Ne.symm hi), entry]
  unfold expandVars
  repeat' split
  all_goals first | rfl | exact hset _

/-- **What `expandVars` leaves in `tokens[1]`**: the value of a variable, or what was there. -/
theorem entry_expandVars_one (h0 : entry tokens 0 = some first) (h1 : entry tokens 1 = some second) :
    entry (expandVars getenv tokens) 1 = some
      (if first.head = dollar then (getenv (first.drop 1)).getD second
      else if second.head = dollar then (getenv (second.drop 1)).getD second
      else second) := by
  have hlen : 1 < tokens.length := by
    by_contra hlen
    rw [entry, List.getElem?_eq_none (by omega)] at h1
    cases h1
  have hset : ∀ check, entry (tokens.set 1 (some check)) 1 = some check := by
    intro check
    rw [entry, List.getElem?_set_self hlen]
    rfl
  unfold expandVars
  rw [h0, h1]
  dsimp only
  split
  · cases getenv (first.drop 1) with
    | none => exact h1
    | some check => exact hset check
  · split
    · cases getenv (second.drop 1) with
      | none => exact h1
      | some check => exact hset check
    · exact h1

theorem le_length_live (h : ∀ i < n, entry tokens i ≠ none) : n ≤ (live tokens).length := by
  by_contra hlt
  apply h _ (Nat.lt_of_not_le hlt)
  rw [entry_of_live (Nat.le_refl _), List.getElem?_eq_none (Nat.le_refl _)]

theorem unquote_length (toks : List CString) : (unquote toks).length = toks.length := by
  unfold unquote
  split <;> rfl

theorem entry_argumentsOf (hi : i ≤ toks.length) : entry (argumentsOf toks behind) i = (unquote toks)[i]? := by
  have hlive : live (argumentsOf toks behind) = unquote toks := live_eq _ rfl
  rw [entry_of_live (by rwa [hlive, unquote_length]), hlive]

/-- The tokens that `exec` goes over. Where the value of the only token takes the place of the `NULL`, they go on with
what is left behind it. -/
def operands (getenv : CString → Option CString) (toks : List CString) (behind : List (Option CString)) :
    List CString :=
  live (expandVars getenv (argumentsOf toks behind))

theorem length_le_operands : toks.length ≤ (operands getenv toks behind).length := by
  apply le_length_live
  intro i hi
  have hentry : entry (argumentsOf toks behind) i ≠ none := by
    rw [entry_argumentsOf (Nat.le_of_lt hi), List.getElem?_eq_getElem (by rwa [unquote_length])]
    nofun
  by_cases h1 : i = 1
  · subst h1
    obtain ⟨second, h1⟩ := Option.ne_none_iff_exists'.mp hentry
    have h0 : entry (argumentsOf toks behind) 0 ≠ none := by
      rw [entry_argumentsOf (Nat.zero_le _), List.getElem?_eq_getElem (by rw [unquote_length]; omega)]
      nofun
    obtain ⟨first, h0⟩ := Option.ne_none_iff_exists'.mp h0
    rw [entry_expandVars_one h0 h1]
    nofun
  · rwa [entry_expandVars h1]

theorem operands_getElem (hi : i < toks.length) :
    (operands getenv toks behind)[i]? = entry (expandVars getenv (argumentsOf toks behind)) i :=
  (entry_of_live (Nat.le_of_lt (Nat.lt_of_lt_of_le hi length_le_operands))).symm

/-- All tokens but the second one are as they were. -/
theorem operands_of_ne_one (hi : i < toks.length) (h1 : i ≠ 1) : (operands getenv toks behind)[i]? = toks[i]? := by
  rw [operands_getElem hi, entry_expandVars h1, entry_argumentsOf (Nat.le_of_lt hi)]
  unfold unquote
  split
  · match i, h1 with
    | 0, _ => rfl
    | i + 2, _ => rfl
  · rfl

/-- The second token. -/
theorem operands_one : (operands getenv (first :: second :: rest) behind)[1]? = some
    (if first.head = dollar then (getenv (first.drop 1)).getD (stripQuotes second)
    else if (stripQuotes second).head = dollar then
      (getenv ((stripQuotes second).drop 1)).getD (stripQuotes second)
    else stripQuotes second) := by
  rw [operands_getElem (by simp)]
  exact entry_expandVars_one rfl rfl

/-- **What `exec` makes of the tokens of a command.** -/
theorem exec_parsed (getenv : CString → Option CString) (behind : List (Option CString)) (hne : toks ≠ []) : ∃ after,
    Parsed (commandLines after [] (operands getenv toks behind)) (operands getenv toks behind)
      (exec getenv (argumentsOf toks behind)) := by
  refine ⟨_, parse_eq _ fun hnil => hne (List.length_eq_zero_iff.mp (Nat.le_zero.mp ?_))⟩
  have hle : toks.length ≤ (operands getenv toks behind).length := length_le_operands
  rwa [operands, hnil] at hle

end Cs326.Prompt
