import Cs326.Web.Request

/-!
# The framing of a response

What is on the connection behind a header against the length that the header gives. The header of a file is written
before the file is opened, and one `sendfile` is made whose result is not looked at, so the framing is left to the
system (`framed_serve`).
-/

namespace Cs326.Web

open Text

variable {env : Env} {p q input target : List UInt8} {m : Message}

/-- How many bytes of a message are taken. -/
def taken (env : Env) (m : Message) : Nat := (env.write (m.text env.timestamp)).getD 0

/-- What is on the connection after the events. -/
def output (env : Env) (events : List Event) : List UInt8 := events.flatMap (sent env)

/-- Behind a header that was written comes as much as it says, of the error text or of the file that was opened. -/
def Framed (env : Env) (events : List Event) : Prop :=
  ∀ m, .write m ∈ events → (m.header env.timestamp).length ≤ taken env m →
    ∃ body, output env events = m.header env.timestamp ++ body ∧ body.length = m.content_length ∧
      (m = .not_found → body = Message.error) ∧
      ∀ path file, .open_rdonly path ∈ events → env.file path = some file → body <+: file

/-- The request is handled, and the response is framed. -/
def WellFramed (env : Env) (input : List UInt8) : Prop :=
  ∃ o, handle_request env input = .ok o ∧ Framed env o.events

/-- The system cuts the response in its header or not at all: the error is taken as a whole, or the file is opened and
has the bytes that `stat` gave, and `sendfile` transfers them. -/
def Delivered (env : Env) (path : List UInt8) : Prop :=
  match found env path with
  | none => taken env .not_found < (Message.not_found.header env.timestamp).length ∨
      (Message.not_found.text env.timestamp).length ≤ taken env .not_found
  | some (path, sb) => taken env (.ok sb.st_size) < ((Message.ok sb.st_size).header env.timestamp).length ∨
      sb.st_size = 0 ∨
      ∃ file, env.file path = some file ∧ sb.st_size ≤ file.length ∧ sb.st_size ≤ env.sendfile path sb.st_size

/-- The message of the response. -/
def response : Option (List UInt8 × Stat) → Message
  | none => .not_found
  | some (_, sb) => .ok sb.st_size

theorem write_mem_serve : .write m ∈ serve env p ↔ m = response (found env p) := by
  have hlookups : .write m ∉ lookups env p := by
    unfold lookups
    split_ifs <;> simp
  unfold serve
  rw [List.mem_append, or_iff_right hlookups]
  cases found env p with
  | none => simp [answer, response]
  | some file => simp [answer, response, send_file]

theorem open_mem_serve : .open_rdonly q ∈ serve env p ↔ ∃ sb, found env p = some (q, sb) := by
  have hlookups : .open_rdonly q ∉ lookups env p := by
    unfold lookups
    split_ifs <;> simp
  unfold serve
  rw [List.mem_append, or_iff_right hlookups]
  cases found env p with
  | none => simp [answer]
  | some file => 
    obtain ⟨path, sb⟩ := file
    simp [answer, send_file, eq_comm]

/-- Looking a path up puts nothing on the connection. -/
theorem output_serve (env : Env) (p : List UInt8) : output env (serve env p) = output env (answer (found env p)) := by
  have hlookups : output env (lookups env p) = [] := by
    unfold lookups output
    split_ifs <;> simp [sent]
  unfold output at hlookups ⊢
  rw [serve, List.flatMap_append, hlookups, List.nil_append]

/-- A message whose header is taken. -/
theorem sent_write (h : (m.header env.timestamp).length ≤ taken env m) :
    sent env (.write m) = m.header env.timestamp ++ m.body.take (taken env m - (m.header env.timestamp).length) := by
  show ((m.header env.timestamp) ++ m.body).take (taken env m) = _
  rw [List.take_append, List.take_of_length_le h]

/-- All the bytes that are asked for. -/
theorem length_sent_sendfile {n : Nat} : (sent env (.sendfile p n)).length = n ↔
    n = 0 ∨ ∃ file, env.file p = some file ∧ n ≤ file.length ∧ n ≤ env.sendfile p n := by
  show (List.take _ (List.take _ _)).length = n ↔ _
  rw [List.length_take, List.length_take]
  cases env.file p with
  | none =>
    simp only [Option.getD_none, List.length_nil, reduceCtorEq, false_and, exists_false, or_false]
    omega
  | some file =>
    simp only [Option.getD_some, Option.some.injEq, exists_eq_left']
    omega

/-- The response to a path where there is no file. -/
theorem framed_not_found (h : found env p = none) : Framed env (serve env p) ↔
    taken env .not_found < (Message.not_found.header env.timestamp).length ∨
      (Message.not_found.text env.timestamp).length ≤ taken env .not_found := by
  have hmem : ∀ m, .write m ∈ serve env p ↔ m = .not_found := fun m => by rw [write_mem_serve, h]; rfl
  have hlen : (Message.not_found.text env.timestamp).length =
      (Message.not_found.header env.timestamp).length + Message.error.length := List.length_append
  have houtput : output env (serve env p) = sent env (.write .not_found) := by
    rw [output_serve, h]
    exact List.append_nil _
  constructor
  · intro hframed
    rw [or_iff_not_imp_left, Nat.not_lt]
    intro hheader
    obtain ⟨body, hbody, -, herror, -⟩ := hframed .not_found ((hmem _).mpr rfl) hheader
    rw [houtput, sent_write hheader, herror rfl, List.append_cancel_left_eq] at hbody
    have hle := congrArg List.length hbody
    rw [show Message.not_found.body = Message.error from rfl, List.length_take] at hle
    omega
  · rintro hdelivered m hm hheader
    obtain rfl := (hmem m).mp hm
    have hall := hdelivered.resolve_left (Nat.not_lt.mpr hheader)
    refine ⟨Message.error, ?_, rfl, fun _ => rfl, fun path file hopen => ?_⟩
    · rw [houtput, sent_write hheader, List.take_of_length_le]
      · rfl
      · rw [show Message.not_found.body = Message.error from rfl]
        omega
    · obtain ⟨sb, hsb⟩ := open_mem_serve.mp hopen
      rw [h] at hsb
      cases hsb

/-- The response with a file. -/
theorem framed_ok {sb : Stat} (h : found env p = some (q, sb)) : Framed env (serve env p) ↔
    taken env (.ok sb.st_size) < ((Message.ok sb.st_size).header env.timestamp).length ∨ sb.st_size = 0 ∨
      ∃ file, env.file q = some file ∧ sb.st_size ≤ file.length ∧ sb.st_size ≤ env.sendfile q sb.st_size := by
  have hmem : ∀ m, .write m ∈ serve env p ↔ m = .ok sb.st_size := fun m => by rw [write_mem_serve, h]; rfl
  have houtput : ((Message.ok sb.st_size).header env.timestamp).length ≤ taken env (.ok sb.st_size) →
      output env (serve env p) = (Message.ok sb.st_size).header env.timestamp ++ sent env (.sendfile q sb.st_size) := by
    intro hheader
    rw [output_serve, h]
    show sent env (.write (.ok sb.st_size)) ++ ([] ++ (sent env (.sendfile q sb.st_size) ++ [])) = _
    rw [sent_write hheader, List.nil_append, List.append_nil]
    exact congrArg (· ++ _) (by simp [Message.body])
  rw [← length_sent_sendfile]
  constructor
  · intro hframed
    rw [or_iff_not_imp_left, Nat.not_lt]
    intro hheader
    obtain ⟨body, hbody, hlen, -, -⟩ := hframed _ ((hmem _).mpr rfl) hheader
    rw [houtput hheader, List.append_cancel_left_eq] at hbody
    rw [hbody]
    exact hlen
  · rintro hdelivered m hm hheader
    obtain rfl := (hmem m).mp hm
    refine ⟨_, houtput hheader, hdelivered.resolve_left (Nat.not_lt.mpr hheader), fun hne => absurd hne (by simp), ?_⟩
    intro path file hopen hfile
    obtain ⟨sb', hsb⟩ := open_mem_serve.mp hopen
    rw [h] at hsb
    cases hsb
    show ((((env.file q).getD []).take _).take _) <+: file
    rw [hfile]
    exact (List.take_prefix _ _).trans (List.take_prefix _ _)

/-- **The framing is left to the system.** -/
theorem framed_serve (env : Env) (p : List UInt8) : Framed env (serve env p) ↔ Delivered env p := by
  cases h : found env p with
  | none =>
    rw [framed_not_found h, Delivered, h]
  | some file =>
    obtain ⟨q, sb⟩ := file
    rw [framed_ok h, Delivered, h]

/-- **A response is framed** if and only if the system delivers it. -/
theorem response_framing (env : Env) (input : List UInt8) : WellFramed env input ↔ none ∉ headers env.debug input ∧
    (some .blank ∈ headers env.debug input → Delivered env (pathFrom [] (headers env.debug input))) := by
  have hnil : Framed env [] := fun m hm => absurd hm List.not_mem_nil
  rw [WellFramed, handles_iff env input hnil, framed_serve]

/-- A file of five bytes that cannot be opened. -/
def Env.unreadable : Env :=
  { Env.empty_directory with
    stat := fun path => if path = chars "./a".toList then some ⟨false, 5⟩ else none
    stat_long := fun _ hpath => if_neg fun h => absurd hpath (by rw [h]; decide) }

/-- The header says five, and nothing follows. -/
theorem response_without_file : ¬WellFramed .unreadable (chars "GET /a HTTP/1.1\r".toList ++ 10 :: [13, 10]) := by
  rintro ⟨o, ho, hframed⟩
  have hget : HeaderLine.ofTokens (tokens delimiters (chars "GET /a HTTP/1.1\r".toList)) =
      some (.get (chars "/a".toList)) := by decide
  have hevents := events_served ho ((headers_get (by decide) hget _).trans (by rw [headers_blank])) (by simp)
  have hfound : found .unreadable (46 :: chars "/a".toList) = some (46 :: chars "/a".toList, ⟨false, 5⟩) := rfl
  rw [hevents] at hframed
  rcases (framed_ok hfound).mp hframed with hlt | hzero | ⟨file, hfile, -⟩
  · simp only [taken, Env.unreadable, Env.empty_directory, Message.text, List.length_append, Option.getD_some] at hlt
    omega
  · cases hzero
  · cases hfile

end Cs326.Web
