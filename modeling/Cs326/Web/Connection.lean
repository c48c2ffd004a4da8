import Cs326.Web.Responses

/-!
# Requests on one connection

The loop of the child against a sequence of requests. `handle_request` returns `0` at the end of the input and after a
response alike, and the loop stops at `0`, so the child never comes to a second request (`child_eq`).
-/

namespace Cs326.Web

open Text

/-- A `GET` request with its lines complete. -/
structure Request where
  target : List UInt8
  version : List UInt8
  fields : List (List UInt8)
  target_piece : Piece (fun b => delimiters.contains b) target
  version_piece : Piece (fun b => delimiters.contains b) version
  /-- A field has no newline in it and is not blank. -/
  fields_lines : ∀ field ∈ fields, 10 ∉ field ∧ tokens delimiters field ≠ []

namespace Request

def line (r : Request) : List UInt8 := GET ++ 32 :: (r.target ++ 32 :: (r.version ++ [13]))

/-- The bytes of the request. -/
def text (r : Request) : List UInt8 :=
  r.line ++ 10 :: (r.fields.flatMap (fun field => field ++ [13] ++ [10]) ++ [13, 10])

end Request

variable {env : Env} {input p target : List UInt8} {o : Outcome} {r : Request} {rs : List Request} {debug : Bool}
  {hs : List (Option HeaderLine)}

/-- What the child does is to serve each request in its turn. -/
def AllAnswered (env : Env) (rs : List Request) : Prop :=
  child env (rs.flatMap Request.text) = .ok (rs.flatMap fun r => serve env (46 :: r.target))

/-! ## Responses -/

def Event.message : Event → Option Message
  | .write m => some m
  | _ => none

/-- The responses that are written. -/
def responses (events : List Event) : List Message := events.filterMap Event.message

/-- One response to one request. -/
theorem responses_serve (env : Env) (p : List UInt8) : responses (serve env p) = [response (found env p)] := by
  have hlookups : responses (lookups env p) = [] := by
    unfold lookups responses
    split_ifs <;> rfl
  unfold responses at hlookups ⊢
  rw [serve, List.filterMap_append, hlookups, List.nil_append]
  cases found env p with
  | none => rfl
  | some file => rfl

theorem responses_flatMap (env : Env) (rs : List Request) : responses (rs.flatMap fun r => serve env (46 :: r.target)) =
    rs.map fun r => response (found env (46 :: r.target)) := by
  induction rs with
  | nil => rfl
  | cons r rs ih =>
    have happend : responses (serve env (46 :: r.target) ++ rs.flatMap fun r => serve env (46 :: r.target)) =
        responses (serve env (46 :: r.target)) ++ responses (rs.flatMap fun r => serve env (46 :: r.target)) :=
      List.filterMap_append
    rw [List.flatMap_cons, happend, responses_serve, ih]
    rfl

/-! ## The loop -/

theorem handle_request_ret (ho : handle_request env input = .ok o) : o.ret = -1 ∨ o.ret = 0 := by
  rcases handle_request_cases ho with ⟨-, -, hret⟩ | ⟨-, -, hret⟩
  · exact hret
  · exact .inr hret

/-- **The loop ends after one request.** -/
theorem child_eq (env : Env) (input : List UInt8) :
    child env input = do return (← handle_request env input).events := by
  unfold child child_loop
  cases ho : handle_request env input with
  | error e => rfl
  | ok o => exact if_pos (handle_request_ret ho)

theorem child_served (hhs : headers env.debug input = hs) (hn : none ∉ hs) (hb : some .blank ∈ hs)
    (ht : lastTarget hs = some target) : child env input = .ok (serve env (46 :: target)) := by
  subst hhs
  obtain ⟨o, ho, hevents, -⟩ := handle_request_served hn hb
  rw [child_eq, ho, ok_bind, hevents, pathFrom_of_lastTarget ht]
  rfl

theorem allAnswered_one : AllAnswered env [r] ↔ child env r.text = .ok (serve env (46 :: r.target)) := by
  simp only [AllAnswered, List.flatMap_singleton]

/-- **All requests are answered** if and only if there is no second one and the first is read as it was sent. -/
theorem all_requests_answered (env : Env) (r : Request) (rs : List Request) : AllAnswered env (r :: rs) ↔
    rs = [] ∧ none ∉ headers env.debug r.text ∧ some .blank ∈ headers env.debug r.text ∧
      lastTarget (headers env.debug r.text) = some r.target := by
  constructor
  · intro h
    unfold AllAnswered at h
    rw [child_eq] at h
    obtain ⟨o, ho, hevents⟩ := bind_ok h
    have hevents := Except.ok.inj hevents
    have hn := handle_request_defined ho
    obtain ⟨hb, hserved⟩ : some .blank ∈ headers env.debug ((r :: rs).flatMap Request.text) ∧
        o.events = serve env (pathFrom [] (headers env.debug ((r :: rs).flatMap Request.text))) := by
      rcases handle_request_cases ho with ⟨-, hnone, -⟩ | ⟨hb, hserved, -⟩
      · rw [hnone, List.flatMap_cons] at hevents
        cases hevents
      · exact ⟨hb, hserved⟩
    -- one response for all of them
    have hresponses := responses_flatMap env (r :: rs)
    rw [← hevents, hserved, responses_serve] at hresponses
    have hlen : 1 = rs.length + 1 := (congrArg List.length hresponses).trans (List.length_map _)
    obtain rfl := List.length_eq_zero_iff.mp (Nat.succ.inj hlen).symm
    rw [List.flatMap_singleton] at hn hb hserved hevents
    refine ⟨rfl, hn, hb, ?_⟩
    have hpath := serve_inj (hserved.symm.trans hevents)
    unfold pathFrom at hpath
    cases ht : lastTarget (headers env.debug r.text) with
    | none =>
      rw [ht] at hpath
      cases hpath
    | some u =>
      rw [ht] at hpath
      exact congrArg some (List.tail_eq_of_cons_eq hpath)
  · rintro ⟨rfl, hn, hb, ht⟩
    exact allAnswered_one.mpr (child_served rfl hn hb ht)

/-! ## One request -/

namespace Request

/-- The lines have room in their buffer, and no field starts with `GET`. -/
structure Plain (r : Request) : Prop where
  line : ShortLine r.line
  fields : ∀ field ∈ r.fields, ShortLine (field ++ [13]) ∧ (tokens delimiters field).head? ≠ some GET

theorem tokens_line (r : Request) : tokens delimiters r.line = [GET, r.target, r.version] := by
  have hget : Piece (fun b => delimiters.contains b) GET := piece_of_all (by decide) (by decide)
  unfold tokens line
  rw [hget.pieces_cons (by decide), r.target_piece.pieces_cons (by decide)]
  rw [r.version_piece.pieces_end (List.forall_mem_singleton.mpr (by decide))]

theorem ofTokens_field {field : List UInt8} (hne : tokens delimiters field ≠ [])
    (hget : (tokens delimiters field).head? ≠ some GET) :
    HeaderLine.ofTokens (tokens delimiters (field ++ [13])) = some .other := by
  rw [tokens_append rfl]
  match tokens delimiters field, hne, hget with
  | [t], _, hget => exact if_neg fun ht => hget (by rw [ht]; rfl)
  | t :: u :: us, _, hget => exact if_neg fun ht => hget (by rw [ht]; rfl)

theorem Plain.headers_eq (h : r.Plain) (debug : Bool) : headers debug r.text =
    some (.get r.target) :: (r.fields.map (fun _ => some HeaderLine.other) ++ [some .blank]) := by
  have hline : HeaderLine.ofTokens (tokens delimiters r.line) = some (.get r.target) := by
    rw [tokens_line]
    simp [HeaderLine.ofTokens]
  have hfields : ∀ fields : List (List UInt8), (∀ field ∈ fields, field ∈ r.fields) →
      headers debug (fields.flatMap (fun field => field ++ [13] ++ [10]) ++ [13, 10]) =
        fields.map (fun _ => some HeaderLine.other) ++ [some .blank] := by
    intro fields hmem
    induction fields with
    | nil => exact headers_blank []
    | cons field fields ih =>
      have hfield := hmem field List.mem_cons_self
      obtain ⟨hshort, hget⟩ := h.fields field hfield
      have hother := ofTokens_field (r.fields_lines field hfield).2 hget
      rw [List.flatMap_cons, List.append_assoc, List.append_assoc (field ++ [13]), List.singleton_append]
      rw [headers_other hshort hother, ih fun f hf => hmem f (List.mem_cons_of_mem _ hf)]
      rfl
  unfold text
  rw [headers_get h.line hline, hfields _ fun _ hf => hf]

end Request

/-- **One plain request** is answered. -/
theorem plain_request_answered (env : Env) (h : r.Plain) : AllAnswered env [r] := by
  have ht : lastTarget (some (.get r.target) :: (r.fields.map (fun _ => some HeaderLine.other) ++ [some .blank])) =
      some r.target := by
    have hnone : (r.fields.map fun _ => some HeaderLine.other).filterMap targetOf = [] := by
      rw [List.filterMap_map]
      exact List.filterMap_eq_nil_iff.mpr fun _ _ => rfl
    unfold lastTarget
    rw [List.filterMap_cons_some (by rfl), List.filterMap_append, hnone]
    rfl
  exact allAnswered_one.mpr (child_served (h.headers_eq env.debug) (by simp) (by simp) ht)

/-- `GET /a HTTP/1.1` without a field. -/
def Request.get_a : Request where
  target := chars "/a".toList
  version := chars "HTTP/1.1".toList
  fields := []
  target_piece := piece_of_all (by decide) (by decide)
  version_piece := piece_of_all (by decide) (by decide)
  fields_lines _ h := absurd h List.not_mem_nil

/-- The second of two requests is not answered. -/
theorem second_request_not_answered : ¬AllAnswered .empty_directory [.get_a, .get_a] := by
  intro h
  unfold AllAnswered at h
  have htext : [Request.get_a, .get_a].flatMap Request.text =
      Request.get_a.line ++ 10 :: (13 :: 10 :: Request.get_a.text) := by decide
  have hget : HeaderLine.ofTokens (tokens delimiters Request.get_a.line) = some (.get (chars "/a".toList)) := by decide
  have hhs : headers Env.empty_directory.debug (Request.get_a.line ++ 10 :: (13 :: 10 :: Request.get_a.text)) =
      [some (.get (chars "/a".toList)), some .blank] := by rw [headers_get (by decide) hget, headers_blank]
  rw [htext, child_served hhs (by simp) (by simp) rfl] at h
  have hlen := congrArg List.length (Except.ok.inj h)
  exact absurd hlen (by decide)

end Cs326.Web
