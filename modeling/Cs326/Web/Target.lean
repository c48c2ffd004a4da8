import Cs326.Web.Request

/-!
# The target of a request

The path that `handle_request` uses against the first line of the request. The loop looks for `GET` in every line, and
in every stretch of 8192 bytes of a longer one, so the last `GET` decides.
-/

namespace Cs326.Web

open CharArray Text

variable {env : Env} {line rest target p q : List UInt8} {ts : List (List UInt8)}

/-- `ts` are the tokens behind the `GET` of the request line: the first of them, behind a dot, is the path served if any
is; where there is none, the response is an error. -/
def FromRequestLine (env : Env) (input : List UInt8) (ts : List (List UInt8)) : Prop :=
  ∃ o, handle_request env input = .ok o ∧
    match ts with
    | [] => .write .not_found ∈ o.events
    | target :: _ => o.events ≠ [] → o.events = serve env (46 :: target)

/-- The request line has a target, each line is read inside its buffer and has a target if it starts with `GET`, and the
last such line in front of a blank one has the target of the request line. -/
def LastTargetFirst (hs : List (Option HeaderLine)) (ts : List (List UInt8)) : Prop :=
  ∃ target us, ts = target :: us ∧ none ∉ hs ∧ (some .blank ∈ hs → lastTarget hs = some target)

theorem ofTokens_cons (ts : List (List UInt8)) : HeaderLine.ofTokens (GET :: ts) = none ∨
    ∃ target us, ts = target :: us ∧ HeaderLine.ofTokens (GET :: ts) = some (.get target) := by
  cases ts with
  | nil => exact .inl (by simp [HeaderLine.ofTokens])
  | cons target us => exact .inr ⟨target, us, rfl, by simp [HeaderLine.ofTokens]⟩

/-- The first text that is read of a `GET` line. -/
theorem first_line (debug : Bool) (h10 : 10 ∉ line) (hget : tokens delimiters (cstring line) = GET :: ts)
    (rest : List UInt8) : ∃ text rest', chunk (line ++ 10 :: rest) = some (text, rest') ∧
      (classify debug text = none ∨ ∃ target us, ts = target :: us ∧ classify debug text = some (.get target)) := by
  have hne : line ≠ [] := by
    rintro rfl
    cases hget
  have hget : tokens delimiters (cstring (line ++ [10])) = GET :: ts := (tokens_cstring_newline line).trans hget
  refine ⟨_, _, chunk_line h10 hne, ?_⟩
  generalize htext : (line ++ [10]).take 8192 = text
  have hline : text ++ (line ++ [10]).drop 8192 = line ++ [10] := by rw [← htext, List.take_append_drop]
  unfold classify
  split_ifs with hterm hover
  · -- the string ends in the buffer
    have hstring : cstring text = cstring (line ++ [10]) := by
      rcases hterm with hlen | h0
      · rw [← htext, List.take_of_length_le]
        rw [← htext, List.length_take] at hlen
        omega
      · rw [← hline, cstring_append_of_mem h0]
    rw [hstring, hget]
    exact ofTokens_cons ts
  · exact .inl rfl
  · -- the tokens that end in the buffer are the first of the line
    obtain ⟨us, hus⟩ := pieces_append_closed (fun b => delimiters.contains b) text (cstring ((line ++ [10]).drop 8192))
    rw [← cstring_append_of_not_mem fun h0 => hterm (.inr h0), hline] at hus
    have hpre : GET :: ts = closedTokens text ++ us := hget.symm.trans hus
    obtain ⟨t, vs, hvs⟩ := List.exists_cons_of_ne_nil fun hnil => hover (.inr hnil)
    rw [hvs] at hpre ⊢
    cases hpre
    rcases ofTokens_cons vs with hnone | ⟨target, ws, rfl, hsome⟩
    · exact .inl hnone
    · exact .inr ⟨target, ws ++ us, rfl, hsome⟩

/-- A list that starts with a `GET` line has a last one. -/
theorem exists_lastTarget (target : List UInt8) (hs : List (Option HeaderLine)) :
    ∃ u, lastTarget (some (.get target) :: hs) = some u := by
  unfold lastTarget
  rw [List.filterMap_cons_some (by rfl), List.getLast?_cons]
  exact ⟨_, rfl⟩

/-- **The path comes from the request line** if and only if the last target is the first. -/
theorem target_from_request_line (env : Env) (line rest : List UInt8) (ts : List (List UInt8)) (h10 : 10 ∉ line)
    (hget : tokens delimiters (cstring line) = GET :: ts) :
    FromRequestLine env (line ++ 10 :: rest) ts ↔ LastTargetFirst (headers env.debug (line ++ 10 :: rest)) ts := by
  obtain ⟨text, rest', hchunk, hnone | ⟨target, us, rfl, hsome⟩⟩ := first_line env.debug h10 hget rest
  · have hmem : none ∈ headers env.debug (line ++ 10 :: rest) := by simp [headers_cons hchunk, hnone]
    constructor
    · rintro ⟨o, ho, -⟩
      exact absurd hmem (handle_request_defined ho)
    · rintro ⟨_, _, _, hn, _⟩
      exact absurd hmem hn
  · obtain ⟨u, hu⟩ : ∃ u, lastTarget (headers env.debug (line ++ 10 :: rest)) = some u := by
      rw [headers_cons hchunk, hsome]
      exact exists_lastTarget target _
    have hiff := handles_iff env (line ++ 10 :: rest)
      (Q := fun events => events ≠ [] → events = serve env (46 :: target)) fun h => absurd rfl h
    rw [pathFrom_of_lastTarget hu] at hiff
    constructor
    · intro h
      obtain ⟨hn, hserve⟩ := hiff.mp h
      refine ⟨target, us, rfl, hn, fun hb => ?_⟩
      rw [hu, List.tail_eq_of_cons_eq (serve_inj (hserve hb serve_ne_nil))]
    · rintro ⟨_, _, heq, hn, hlast⟩
      cases heq
      refine hiff.mpr ⟨hn, fun hb _ => ?_⟩
      rw [Option.some.inj (hu.symm.trans (hlast hb))]

/-- A request with another header. -/
theorem target_from_request_line_host :
    FromRequestLine .empty_directory
      (chars "GET /a HTTP/1.1\r".toList ++ 10 :: (chars "Host: cs326\r".toList ++ 10 :: [13, 10]))
      [chars "/a".toList, chars "HTTP/1.1".toList] := by
  refine (target_from_request_line _ _ _ _ (by decide) (by decide)).mpr ⟨_, _, rfl, ?_⟩
  have hget : HeaderLine.ofTokens (tokens delimiters (chars "GET /a HTTP/1.1\r".toList)) =
      some (.get (chars "/a".toList)) := by decide
  have hhost : HeaderLine.ofTokens (tokens delimiters (chars "Host: cs326\r".toList)) = some .other := by decide
  rw [headers_get (by decide) hget, headers_other (by decide) hhost, headers_blank]
  exact ⟨by simp, fun _ => rfl⟩

/-- A later line that starts with `GET`, and a request line without a target. -/
theorem target_from_later_line :
    ¬FromRequestLine .empty_directory
      (chars "GET /a HTTP/1.1\r".toList ++ 10 :: (chars "GET /b HTTP/1.1\r".toList ++ 10 :: [13, 10]))
      [chars "/a".toList, chars "HTTP/1.1".toList] ∧
    ¬FromRequestLine .empty_directory (chars "GET\r".toList ++ 10 :: [13, 10]) [] := by
  constructor
  · rintro ⟨o, ho, hserve⟩
    have ha : HeaderLine.ofTokens (tokens delimiters (chars "GET /a HTTP/1.1\r".toList)) =
        some (.get (chars "/a".toList)) := by decide
    have hb : HeaderLine.ofTokens (tokens delimiters (chars "GET /b HTTP/1.1\r".toList)) =
        some (.get (chars "/b".toList)) := by decide
    have hevents := events_served ho
      ((headers_get (by decide) ha _).trans (by rw [headers_get (by decide) hb, headers_blank])) (by simp)
    have hpath := serve_inj (hevents.symm.trans (hserve (hevents ▸ serve_ne_nil)))
    exact absurd hpath (by decide)
  · rintro ⟨o, ho, -⟩
    apply handle_request_defined ho
    have hnone : HeaderLine.ofTokens (tokens delimiters (chars "GET\r".toList)) = none := by decide
    rw [headers_line (by decide), hnone]
    simp

end Cs326.Web
