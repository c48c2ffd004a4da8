import Cs326.Web.Lines

/-!
# Requests

The loop of `handle_request` follows the lines of the request: it is undefined at a line that is
(`handle_request_undefined`), gives up when the input ends before a blank line (`handle_request_closed`), and else
serves the target of the last `GET` line (`handle_request_served`). So a property of the calls of a request is one of
`serve` (`handles_iff`).
-/

namespace Cs326.Web

open CharArray Text

variable {env : Env} {path : CharArray 8192} {input text rest p q target : List UInt8} {ts : List (List UInt8)}
  {hs : List (Option HeaderLine)}

/-! ## The loop -/

/-- What a `GET` line asks for. -/
def targetOf : Option HeaderLine → Option (List UInt8)
  | some (.get target) => some target
  | _ => none

/-- The target of the last `GET` line. -/
def lastTarget (hs : List (Option HeaderLine)) : Option (List UInt8) := (hs.filterMap targetOf).getLast?

/-- `path` where it was `p` before. -/
def pathFrom (p : List UInt8) (hs : List (Option HeaderLine)) : List UInt8 := ((lastTarget hs).map (46 :: ·)).getD p

@[simp] theorem pathFrom_get : pathFrom p (some (.get target) :: hs) = pathFrom (46 :: target) hs := by
  unfold pathFrom lastTarget
  rw [List.filterMap_cons_some (by rfl), List.getLast?_cons]
  cases (hs.filterMap targetOf).getLast? <;> rfl

@[simp] theorem pathFrom_other : pathFrom p (some .other :: hs) = pathFrom p hs := rfl

theorem pathFrom_of_lastTarget (h : lastTarget hs = some target) : pathFrom p hs = 46 :: target := by
  rw [pathFrom, h]
  rfl

/-- The end of the input. -/
theorem header_round_closed (env : Env) (path : CharArray 8192) (h : chunk input = none) : ∃ ret rest,
    header_round env path input = .ok (.closed ret rest) ∧ (ret = -1 ∨ ret = 0) := by
  obtain ⟨header, ret, rest, hread, hret⟩ := read_line_closed env h
  refine ⟨ret, rest, ?_, hret⟩
  rw [header_round, hread, ok_bind]
  exact if_pos hret

/-- A line. -/
theorem header_round_eq (env : Env) (path : CharArray 8192) (h : chunk input = some (text, rest)) :
    ∃ header : CharArray 8192, (header_line env header).toOption = classify env.debug text ∧
      header_round env path input = do
        match ← header_line env header with
        | .get target =>
          let path ← path.write 0 [46]
          return .again (← path.strcpy 1 target) rest
        | .other => return .again path rest
        | .blank => return .done path rest := by
  obtain ⟨header, ret, hread, hret, hbytes⟩ := read_line_chunk env h
  refine ⟨header, header_line_eq hbytes, ?_⟩
  rw [header_round, hread, ok_bind]
  exact if_neg (by omega)

theorem ofTokens_get (h : HeaderLine.ofTokens ts = some (.get target)) : ∃ us, ts = GET :: target :: us := by
  match ts with
  | [] => cases h
  | [t] =>
    rw [HeaderLine.ofTokens] at h
    split_ifs at h
    cases h
  | t :: u :: us =>
    rw [HeaderLine.ofTokens] at h
    split_ifs at h with ht
    · cases h
      exact ⟨us, by rw [ht]⟩
    · cases h

/-- The target of a line has room in `path`. -/
theorem classify_get {debug : Bool} (h : classify debug text = some (.get target)) (hlen : text.length ≤ 8192) :
    0 ∉ target ∧ 1 + target.length < 8192 := by
  obtain ⟨s, hs0, hslen, us, hus⟩ : ∃ s, 0 ∉ s ∧ s.length ≤ 8192 ∧ ∃ us, tokens delimiters s = GET :: target :: us := by
    unfold classify at h
    split_ifs at h with hterm hover
    · refine ⟨cstring text, fun hm => by simpa using List.mem_takeWhile_imp hm, ?_, ofTokens_get h⟩
      exact (List.takeWhile_prefix _).length_le.trans hlen
    · have hpre := closed_prefix (fun b => delimiters.contains b) text
      exact ⟨_, fun hm => hterm (.inr (hpre.subset hm)), hpre.length_le.trans hlen, ofTokens_get h⟩
  have hlt : GET.length + target.length < s.length := length_of_pieces hus
  have hmem : target ∈ tokens delimiters s := by
    rw [hus]
    simp
  have hget : GET.length = 3 := by decide
  exact ⟨fun hm => hs0 ((infix_of_mem_pieces hmem).subset hm), by omega⟩

/-- The dot and the target behind it. -/
theorem set_path (path : CharArray 8192) (ht0 : 0 ∉ target) (hlt : 1 + target.length < 8192) :
    ∃ path₁ path₂, path.write 0 [46] = .ok path₁ ∧ path₁.strcpy 1 target = .ok path₂ ∧
      StringAt path₂ 0 (46 :: target) := by
  obtain ⟨b, back, hbytes⟩ : ∃ b back, path.bytes = b :: back :=
    List.exists_cons_of_length_pos (by rw [path.length_eq]; decide)
  obtain ⟨path₁, hwrite, hbytes₁⟩ := write_eq [] [b] [46] back hbytes rfl
  obtain ⟨path₂, hcopy, ⟨-, rest, hrest⟩, htake⟩ := path₁.strcpy_eq hlt ht0
  refine ⟨path₁, path₂, hwrite, hcopy, fun hm => ?_, rest, ?_⟩
  · rcases List.mem_cons.mp hm with h | h
    · exact absurd h (by decide)
    · exact ht0 h
  · rw [List.drop_zero, ← List.take_append_drop 1 path₂.bytes, htake, hrest, hbytes₁]
    rfl

/-- A round of the loop. -/
theorem header_round_line (env : Env) (path : CharArray 8192) (h : chunk input = some (text, rest)) :
    match classify env.debug text with
    | none => ∃ e, header_round env path input = .error e
    | some (.get target) =>
      ∃ path', header_round env path input = .ok (.again path' rest) ∧ StringAt path' 0 (46 :: target)
    | some .other => header_round env path input = .ok (.again path rest)
    | some .blank => header_round env path input = .ok (.done path rest) := by
  obtain ⟨header, hline, hround⟩ := header_round_eq env path h
  rw [← hline, hround]
  cases hres : header_line env header with
  | error e => exact ⟨e, rfl⟩
  | ok line =>
    cases line with
    | get target =>
      rw [hres] at hline
      obtain ⟨ht0, hlt⟩ := classify_get hline.symm (chunk_eq h).2.2.2.1
      obtain ⟨path₁, path₂, hwrite, hcopy, hpath⟩ := set_path path ht0 hlt
      refine ⟨path₂, ?_, hpath⟩
      simp only [hwrite, hcopy, ok_bind]
      rfl
    | other => rfl
    | blank => rfl

/-- What the loop does with lines. -/
structure Follows (p : List UInt8) (hs : List (Option HeaderLine))
    (result : Except Undefined ((Int ⊕ CharArray 8192) × List UInt8)) : Prop where
  undefined : none ∈ hs → ∃ e, result = .error e
  closed : none ∉ hs → some .blank ∉ hs → ∃ ret rest, result = .ok (.inl ret, rest) ∧ (ret = -1 ∨ ret = 0)
  served : none ∉ hs → some .blank ∈ hs → ∃ path rest, result = .ok (.inr path, rest) ∧ StringAt path 0 (pathFrom p hs)

theorem Follows.cons_get {result : Except Undefined ((Int ⊕ CharArray 8192) × List UInt8)}
    (h : Follows (46 :: target) hs result) : Follows p (some (.get target) :: hs) result where
  undefined hm := h.undefined (by simpa using hm)
  closed hn hb := h.closed (by simpa using hn) (by simpa using hb)
  served hn hb := pathFrom_get ▸ h.served (by simpa using hn) (by simpa using hb)

theorem Follows.cons_other {result : Except Undefined ((Int ⊕ CharArray 8192) × List UInt8)}
    (h : Follows p hs result) : Follows p (some .other :: hs) result where
  undefined hm := h.undefined (by simpa using hm)
  closed hn hb := h.closed (by simpa using hn) (by simpa using hb)
  served hn hb := pathFrom_other ▸ h.served (by simpa using hn) (by simpa using hb)

theorem stringAt_zero : StringAt (CharArray.zero 8192) 0 [] := ⟨by simp, List.replicate 8191 0, rfl⟩

/-- **The loop follows the lines.** -/
theorem read_request_follows (env : Env) (hpath : StringAt path 0 p) :
    Follows p (headers env.debug input) (read_request env path input) := by
  induction input using headers.induct env.debug generalizing path p with
  | case1 input h =>
    obtain ⟨ret, rest, hround, hret⟩ := header_round_closed env path h
    rw [headers_nil h, read_request, hround]
    exact ⟨fun hm => absurd hm (by simp), fun _ _ => ⟨ret, rest, rfl, hret⟩, fun _ hb => absurd hb (by simp)⟩
  | case2 input text rest h target hline ih =>
    have hround := header_round_line env path h
    rw [hline] at hround
    obtain ⟨path', hround, hpath'⟩ := hround
    rw [headers_cons h, hline, read_request, hround]
    exact (ih hpath').cons_get
  | case3 input text rest h hline ih =>
    have hround := header_round_line env path h
    rw [hline] at hround
    rw [headers_cons h, hline, read_request, hround]
    exact (ih hpath).cons_other
  | case4 input text rest h hget hother =>
    have hround := header_round_line env path h
    rw [headers_cons h]
    cases hline : classify env.debug text with
    | none =>
      rw [hline] at hround
      obtain ⟨e, hround⟩ := hround
      rw [read_request, hround]
      exact ⟨fun _ => ⟨e, rfl⟩, fun hn _ => absurd hn (by simp), fun hn _ => absurd hn (by simp)⟩
    | some line =>
      cases line with
      | get target => exact absurd hline (hget target)
      | other => exact absurd hline hother
      | blank =>
        rw [hline] at hround
        rw [read_request, hround]
        exact ⟨fun hm => absurd hm (by simp), fun _ hb => absurd hb (by simp), fun _ _ => ⟨path, rest, rfl, hpath⟩⟩

/-! ## `handle_request` -/

/-- The page of a directory. -/
def index (path : List UInt8) : List UInt8 := path ++ chars "/index.html".toList

/-- The calls that look a path up. -/
def lookups (env : Env) (path : List UInt8) : List Event :=
  .stat path :: if (env.stat path).any Stat.isdir then [.stat (index path)] else []

/-- The file that is there for a path. -/
def found (env : Env) (path : List UInt8) : Option (List UInt8 × Stat) := do
  let sb ← env.stat path
  if sb.isdir then return (index path, ← env.stat (index path)) else return (path, sb)

def answer : Option (List UInt8 × Stat) → List Event
  | none => [.write .not_found]
  | some (path, sb) => send_file path sb

/-- What is done to answer a request for `path`. -/
def serve (env : Env) (path : List UInt8) : List Event := lookups env path ++ answer (found env path)

theorem serve_head (env : Env) (p : List UInt8) : (serve env p).head? = some (.stat p) := rfl

theorem stat_mem_serve (env : Env) (p : List UInt8) : .stat p ∈ serve env p := List.mem_cons_self

theorem serve_ne_nil : serve env p ≠ [] := List.cons_ne_nil _ _

theorem serve_inj (h : serve env p = serve env q) : p = q := by
  have hhead := congrArg List.head? h
  rw [serve_head, serve_head] at hhead
  simpa using hhead

/-- The name of a directory leaves room for the name of the page. -/
theorem respond_eq (hpath : StringAt path 0 p) : respond env path = .ok (serve env p) := by
  unfold respond
  simp only [hpath.string, hpath.strlen, ok_bind]
  cases hstat : env.stat p with
  | none => simp [serve, lookups, found, answer, hstat]
  | some sb =>
    cases hdir : sb.isdir with
    | false => simp [serve, lookups, found, answer, hstat, hdir]
    | true =>
      have hlt : p.length < 4096 := by
        by_contra hge
        rw [env.stat_long p (Nat.not_lt.mp hge)] at hstat
        cases hstat
      have hlen : (chars "/index.html".toList).length = 11 := by decide
      obtain ⟨path', hcat, hpath'⟩ : ∃ path', path.strcpy p.length (chars "/index.html".toList) = .ok path' ∧
          StringAt path' 0 (index p) := hpath.strcat (by omega) (by decide)
      simp only [hdir, hcat, hpath'.string, ok_bind, if_true]
      cases hindex : env.stat (index p) with
      | none => simp [serve, lookups, found, answer, hstat, hdir, hindex]
      | some sb => simp [serve, lookups, found, answer, hstat, hdir, hindex]

theorem handle_request_undefined (h : none ∈ headers env.debug input) : ∃ e, handle_request env input = .error e := by
  obtain ⟨e, hread⟩ := (read_request_follows env stringAt_zero).undefined h
  exact ⟨e, by rw [handle_request, hread]; rfl⟩

theorem handle_request_defined {o : Outcome} (h : handle_request env input = .ok o) :
    none ∉ headers env.debug input := by
  intro hmem
  obtain ⟨e, he⟩ := handle_request_undefined hmem
  rw [he] at h
  cases h

/-- The input ends first. -/
theorem handle_request_closed (hn : none ∉ headers env.debug input) (hb : some .blank ∉ headers env.debug input) :
    ∃ o, handle_request env input = .ok o ∧ o.events = [] ∧ (o.ret = -1 ∨ o.ret = 0) := by
  obtain ⟨ret, rest, hread, hret⟩ := (read_request_follows env stringAt_zero).closed hn hb
  exact ⟨⟨ret, [], rest⟩, by rw [handle_request, hread]; rfl, rfl, hret⟩

/-- **The target of the last `GET` line is served.** -/
theorem handle_request_served (hn : none ∉ headers env.debug input) (hb : some .blank ∈ headers env.debug input) :
    ∃ o, handle_request env input = .ok o ∧ o.events = serve env (pathFrom [] (headers env.debug input)) ∧
      o.ret = 0 := by
  obtain ⟨path, rest, hread, hpath⟩ := (read_request_follows env stringAt_zero).served hn hb
  refine ⟨⟨0, serve env (pathFrom [] (headers env.debug input)), rest⟩, ?_, rfl, rfl⟩
  rw [handle_request, hread, ok_bind]
  simp only [respond_eq hpath, ok_bind]
  rfl

/-- All that a call can have done. -/
theorem handle_request_cases {o : Outcome} (ho : handle_request env input = .ok o) :
    (some .blank ∉ headers env.debug input ∧ o.events = [] ∧ (o.ret = -1 ∨ o.ret = 0)) ∨
    (some .blank ∈ headers env.debug input ∧ o.events = serve env (pathFrom [] (headers env.debug input)) ∧
      o.ret = 0) := by
  have hn := handle_request_defined ho
  by_cases hb : some .blank ∈ headers env.debug input
  · obtain ⟨o', ho', hevents, hret⟩ := handle_request_served hn hb
    obtain rfl := Except.ok.inj (ho.symm.trans ho')
    exact .inr ⟨hb, hevents, hret⟩
  · obtain ⟨o', ho', hevents, hret⟩ := handle_request_closed hn hb
    obtain rfl := Except.ok.inj (ho.symm.trans ho')
    exact .inl ⟨hb, hevents, hret⟩

theorem events_served {o : Outcome} (ho : handle_request env input = .ok o) (hhs : headers env.debug input = hs)
    (hb : some .blank ∈ hs) : o.events = serve env (pathFrom [] hs) := by
  subst hhs
  rcases handle_request_cases ho with ⟨hb', -⟩ | ⟨-, hevents, -⟩
  · exact absurd hb hb'
  · exact hevents

/-- **What holds of the calls of a request** holds of those that serve the target of its last `GET` line. -/
theorem handles_iff (env : Env) (input : List UInt8) {Q : List Event → Prop} (hnil : Q []) :
    (∃ o, handle_request env input = .ok o ∧ Q o.events) ↔ none ∉ headers env.debug input ∧
      (some .blank ∈ headers env.debug input → Q (serve env (pathFrom [] (headers env.debug input)))) := by
  constructor
  · rintro ⟨o, ho, hq⟩
    exact ⟨handle_request_defined ho, fun hb => events_served ho rfl hb ▸ hq⟩
  · rintro ⟨hn, hq⟩
    by_cases hb : some .blank ∈ headers env.debug input
    · obtain ⟨o, ho, hevents, -⟩ := handle_request_served hn hb
      exact ⟨o, ho, hevents ▸ hq hb⟩
    · obtain ⟨o, ho, hevents, -⟩ := handle_request_closed hn hb
      exact ⟨o, ho, hevents ▸ hnil⟩

end Cs326.Web
