import Cs326.Lib.Run
import Cs326.Socket.Client
import Cs326.Socket.Server

/-!
# A session

`client.c` and `server.c` at the two ends of a connection, their steps in any order. Where the system moves the bytes of
a call at once, the pieces that are written, a size or a message each, are the pieces that are read (`Inv`). Then what
the server has printed is always the front of what has been typed in, the two never block each other, and after seven
steps for each message all of them are printed (`session_delivers`).
-/

namespace Cs326.Socket

open CharArray

structure Session where
  /-- What has not been read of the input of the client. -/
  stdin : List UInt8
  client : Client
  /-- The bytes that are written and not read. -/
  channel : List UInt8
  server : Server
  printed : List (List UInt8)

/-- The connection has been accepted. -/
def Session.init (stdin : List UInt8) : Session := ⟨stdin, .prompt, [], .start, []⟩

/-- Who takes a step, how many bytes the system moves in it, and what is in memory where the client does not initialise
it. -/
inductive Label
  | client (n : Nat) (size_str : Option (CharArray 8)) (beyond : Nat → UInt8)
  | server (n : Nat)

/-- The bytes of a call are moved at once, and `size_str` points to bytes of its own. -/
def Label.Regular : Label → Prop
  | client n size_str _ => 128 ≤ n ∧ size_str.isSome = true
  | server n => 128 ≤ n

instance : DecidablePred Label.Regular
  | .client _ _ _ => inferInstanceAs (Decidable (_ ∧ _))
  | .server _ => inferInstanceAs (Decidable (_ ≤ _))

/-- The client has closed its end. -/
def Client.closed : Client → Bool
  | exited => true
  | _ => false

/-- The step in which it does so. -/
def Client.last : Client → Nat
  | exited => 0
  | _ => 1

/-- A step; `none`: it has to wait. -/
def Session.step (s : Session) : Label → Except Undefined (Option Session)
  | .client n size_str beyond => do
    match ← s.client.step n size_str beyond s.stdin with
    | none => return none
    | some r => return some { s with client := r.client, stdin := r.stdin, channel := s.channel ++ r.written }
  | .server n => do
    match ← s.server.step n s.client.closed s.channel with
    | none => return none
    | some r => return some { s with server := r.server, channel := r.input, printed := s.printed ++ r.printed }

/-- The steps of a session. -/
def Steps (s : Session) (ls : List Label) (t : Session) : Prop := ∃ l, ls = [l] ∧ s.step l = .ok (some t)

/-! ## The invariant -/

variable {n : Nat} {s t : Session} {c : Client} {srv : Server} {str h : List UInt8} {l : Label} {ls : List Label}
  {owed due sent ps : List (List UInt8)} {msgs pending : List (List UInt8)} {stdin : List UInt8} {a b : Nat}

/-- The pieces that messages are written in. -/
inductive Wire : List (List UInt8) → List (List UInt8) → Prop
  | nil : Wire [] []
  | cons {str h : List UInt8} {msgs ps : List (List UInt8)} : Header str h → str.length < 128 → 0 ∉ str →
      Wire msgs ps → Wire (str :: msgs) (h :: (str ++ [0]) :: ps)

theorem Wire.append {msgs' ps' : List (List UInt8)} (h : Wire msgs ps) (h' : Wire msgs' ps') :
    Wire (msgs ++ msgs') (ps ++ ps') := by
  induction h with
  | nil => exact h'
  | cons hh hlt h0 _ ih => exact .cons hh hlt h0 ih

/-- The pieces that the client has still to write of its message, and its steps to there. -/
inductive ClientAt : Client → List (List UInt8) → Nat → Prop
  | prompt : ClientAt .prompt [] 0
  | sendSize {out : Outgoing} {str : List UInt8} : Carries out str →
      ClientAt (.sendSize out) [out.size_str.bytes, str ++ [0]] 2
  | send {out : Outgoing} {str : List UInt8} : Carries out str → ClientAt (.send out ⟨[], 0, out.sz⟩) [str ++ [0]] 1
  | exited : ClientAt .exited [] 0

/-- The pieces that the server has still to read of its message, the message, and its steps to the end of it. -/
inductive ServerAt : Server → List (List UInt8) → List (List UInt8) → Nat → Prop
  | start : ServerAt .start [] [] 0
  | gotSize {str : List UInt8} {size : CharArray 128} : str.length < 128 → 0 ∉ str →
      StringAt size 0 (decimal (str.length + 1)) → ServerAt (.readSize (8 : Nat) size) [str ++ [0]] [str] 3
  | awaits {str : List UInt8} : str.length < 128 → 0 ∉ str →
      ServerAt (.readBody (str.length + 1 : Nat) 0 (.zero 128)) [str ++ [0]] [str] 2
  | gotBody {str : List UInt8} {buf : CharArray 128} : StringAt buf 0 str →
      ServerAt (.readBody (str.length + 1 : Nat) (str.length + 1 : Nat) buf) [] [str] 1

theorem Wire.piece_ne_nil {piece : List UInt8} (h : Wire msgs ps) (hmem : piece ∈ ps) : piece ≠ [] := by
  induction h with
  | nil => cases hmem
  | cons hh _ _ _ ih =>
    rcases List.mem_cons.mp hmem with rfl | hmem
    · rintro rfl
      cases hh.1
    · rcases List.mem_cons.mp hmem with rfl | hmem
      · simp
      · exact ih hmem

theorem ServerAt.piece_ne_nil {piece : List UInt8} (h : ServerAt srv owed msgs a) (hmem : piece ∈ owed) :
    piece ≠ [] := by
  cases h with
  | start | gotBody _ => cases hmem
  | gotSize _ _ _ | awaits _ _ =>
    rw [List.mem_singleton.mp hmem]
    simp

theorem ClientAt.due_nil (h : ClientAt c due b) (hclosed : c.closed = true) : due = [] := by
  cases h with
  | prompt | exited => rfl
  | sendSize _ | send _ => cases hclosed

theorem Wire.msgs_nil (h : Wire msgs []) : msgs = [] := by
  cases h
  rfl

theorem ClientAt.steps_zero (h : ClientAt c due b) (hclosed : c.closed = true) : b = 0 := by
  cases h with
  | prompt | exited => rfl
  | sendSize _ | send _ => cases hclosed

theorem Client.last_eq_zero (c : Client) (h : c.closed = true) : c.last = 0 := by
  cases c with
  | exited => rfl
  | prompt | sendSize _ | send _ _ => cases h

/-- A message that is ready lies in the arrays as it goes on the wire. -/
theorem Carries.wire {out : Outgoing} (h : Carries out str) : Wire [str] [out.size_str.bytes, str ++ [0]] :=
  .cons h.header h.length_lt h.buf.1 .nil

/-- The pieces that are on their way. -/
structure Pieces where
  /-- The server has still to read them for its message. -/
  owed : List (List UInt8)
  /-- The message of the server. -/
  msgs : List (List UInt8)
  /-- The client has still to write them for its message. -/
  due : List (List UInt8)
  /-- The messages behind that of the server, and their pieces. -/
  pending : List (List UInt8)
  ps : List (List UInt8)
  /-- The pieces in the channel. -/
  sent : List (List UInt8)

/-- The state is that of pieces on their way, and there are `left` steps to the end. -/
structure Inv (stdin : List UInt8) (left : Nat) (s : Session) (p : Pieces) : Prop where
  wire : Wire p.pending p.ps
  pieces : p.sent ++ p.due = p.owed ++ p.ps
  channel : s.channel = p.sent.flatten
  messages : s.printed ++ p.msgs ++ p.pending ++ typed s.stdin = typed stdin
  closed : s.client.closed = true → s.stdin = []
  parties : ∃ a b, ServerAt s.server p.owed p.msgs a ∧ ClientAt s.client p.due b ∧
    left = a + 4 * p.pending.length + b + 7 * (typed s.stdin).length + s.client.last

theorem inv_init (stdin : List UInt8) :
    Inv stdin (7 * (typed stdin).length + 1) (Session.init stdin) ⟨[], [], [], [], [], []⟩ where
  wire := .nil
  pieces := rfl
  channel := rfl
  messages := rfl
  closed := fun h => by cases h
  parties := ⟨0, 0, .start, .prompt, by simp [Session.init, Client.last]⟩

/-! ## Steps of the client -/

section

variable {p : Pieces} {left : Nat}

/-- The client reads a line, or writes a piece, or comes to the end. -/
theorem Inv.client_step (h : Inv stdin left s p) (hopen : s.client.closed = false) (hn : 128 ≤ n)
    (size_str : CharArray 8) (beyond : Nat → UInt8) : ∃ t p', s.step (.client n (some size_str) beyond) = .ok (some t) ∧
      Inv stdin (left - 1) t p' := by
  obtain ⟨hwire, hpieces, hchannel, hmessages, hclosed, a, b, hserver, hclient, hleft⟩ := h
  obtain ⟨rest, client, channel, server, printed⟩ := s
  obtain ⟨owed, msgs, due, pending, ps, sent⟩ := p
  dsimp only at *
  cases hclient with
  | exited => cases hopen
  | prompt =>
    rw [List.append_nil] at hpieces
    by_cases hne : rest = []
    · subst hne
      refine ⟨⟨[], .exited, channel, server, printed⟩, ⟨owed, msgs, [], pending, ps, sent⟩, ?_, hwire, ?_, hchannel,
        hmessages, fun _ => rfl, a, 0, hserver, .exited, ?_⟩
      · unfold Session.step Client.step
        dsimp only
        rw [prompt_nil, ok_bind]
        simp
      · rw [List.append_nil, hpieces]
      · rw [hleft]
        rfl
    · obtain ⟨out, hprompt, hcarries⟩ := prompt_eq size_str hne
      refine ⟨⟨rest.drop (lineOf 127 rest).length, .sendSize out, channel, server, printed⟩,
        ⟨owed, msgs, _, pending ++ [_], ps ++ _, sent⟩, ?_, hwire.append hcarries.wire, ?_, hchannel, ?_,
        (fun h => by cases h), a, 2, hserver, .sendSize hcarries, ?_⟩
      · unfold Session.step Client.step
        dsimp only
        rw [hprompt, ok_bind]
        simp
      · rw [hpieces, List.append_assoc]
      · rw [← hmessages, typed_of_ne_nil hne]
        simp
      · rw [hleft, typed_of_ne_nil hne, List.length_append, List.length_cons]
        simp only [Client.last, List.length_singleton]
        omega
  | @sendSize out str hcarries =>
    refine ⟨⟨rest, .send out ⟨[], 0, out.sz⟩, channel ++ out.size_str.bytes, server, printed⟩,
      ⟨owed, msgs, [str ++ [0]], pending, ps, sent ++ [out.size_str.bytes]⟩, ?_, hwire, ?_, ?_, hmessages,
      (fun h => by cases h), a, 1, hserver, .send hcarries, ?_⟩
    · have htake : out.size_str.bytes.take (moved n 8) = out.size_str.bytes := by
        rw [moved_eq (by decide) (by omega)]
        exact List.take_of_length_le (Nat.le_of_eq out.size_str.length_eq)
      unfold Session.step Client.step
      simp [htake]
    · rw [← hpieces, List.append_assoc]
      rfl
    · rw [hchannel, List.flatten_append, List.flatten_singleton]
    · rw [hleft]
      simp only [Client.last]
      omega
  | @send out str hcarries =>
    refine ⟨⟨rest, .prompt, channel ++ (str ++ [0]), server, printed⟩,
      ⟨owed, msgs, [], pending, ps, sent ++ [str ++ [0]]⟩, ?_, hwire, ?_, ?_, hmessages,
      (fun h => by cases h), a, 0, hserver, .prompt, ?_⟩
    · unfold Session.step Client.step
      dsimp only
      rw [sendStep_whole hcarries hn]
      simp
    · rw [← hpieces, List.append_nil]
    · rw [hchannel, List.flatten_append, List.flatten_singleton]
    · rw [hleft]
      simp only [Client.last]
      omega

/-! ## Steps of the server -/

/-- The first piece in the channel is the one that the server waits for. -/
theorem Inv.next_piece {piece : List UInt8} {ps' : List (List UInt8)} (h : Inv stdin left s p)
    (hnext : p.owed ++ p.ps = piece :: ps') (hsome : s.channel ≠ []) :
    ∃ sent', p.sent = piece :: sent' ∧ s.channel = piece ++ sent'.flatten ∧ sent' ++ p.due = ps' := by
  have hpieces := h.pieces
  rw [hnext] at hpieces
  cases hsent : p.sent with
  | nil =>
    rw [h.channel, hsent] at hsome
    exact absurd rfl hsome
  | cons piece' sent' =>
    rw [hsent, List.cons_append] at hpieces
    obtain ⟨rfl, hrest⟩ := List.cons.inj hpieces
    refine ⟨sent', rfl, ?_, hrest⟩
    rw [h.channel, hsent, List.flatten_cons]

/-- Where nothing is in the channel and nothing will come, the server has all there is. -/
theorem Inv.nothing_left (h : Inv stdin left s p) (hclosed : s.client.closed = true) (hnone : s.channel = []) :
    p.owed = [] ∧ p.ps = [] ∧ p.sent = [] := by
  have hpieces := h.pieces
  obtain ⟨a, b, hserver, hclient, -⟩ := h.parties
  have hsome : ∀ piece ∈ p.owed ++ p.ps, piece ≠ [] := by
    intro piece hmem
    rcases List.mem_append.mp hmem with howed | hps
    · exact hserver.piece_ne_nil howed
    · exact h.wire.piece_ne_nil hps
  have hsent : p.sent = [] := by
    have hflat := List.flatten_eq_nil_iff.mp (h.channel.symm.trans hnone)
    refine List.eq_nil_iff_forall_not_mem.mpr fun piece hmem => hsome piece ?_ (hflat piece hmem)
    rw [← hpieces]
    exact List.mem_append_left _ hmem
  rw [hsent, hclient.due_nil hclosed] at hpieces
  obtain ⟨howed, hps⟩ := List.append_eq_nil_iff.mp hpieces.symm
  exact ⟨howed, hps, hsent⟩

/-- The size comes before the message. -/
theorem start_reads (hn : 128 ≤ n) (hh : Header str h) (eof : Bool) (rest : List UInt8) : ∃ size,
    Server.start.step n eof (h ++ rest) = .ok (some ⟨.readSize (8 : Nat) size, rest, []⟩) ∧
      StringAt size 0 (decimal (str.length + 1)) := by
  obtain ⟨hlen, back, rfl⟩ := hh
  have hpos : 0 < (decimal (str.length + 1) ++ 0 :: back).length := hlen ▸ Nat.succ_pos 7
  obtain ⟨size, zeros, hread, hbytes, -⟩ := readStep_whole hn eof hpos (by omega) rest .readSize
  rw [hlen] at hread
  refine ⟨size, (step_start eof _).trans hread, not_mem_decimal rfl _, back ++ zeros, ?_⟩
  rw [List.drop_zero, hbytes, List.append_assoc, List.cons_append]

theorem awaits_reads (hn : 128 ≤ n) (hlt : str.length < 128) (h0 : 0 ∉ str) (eof : Bool) (rest : List UInt8) :
    ∃ buf, (Server.readBody (str.length + 1 : Nat) 0 (.zero 128)).step n eof (str ++ [0] ++ rest) =
      .ok (some ⟨.readBody (str.length + 1 : Nat) (str.length + 1 : Nat) buf, rest, []⟩) ∧ StringAt buf 0 str := by
  have hlen : (str ++ [0]).length = str.length + 1 := List.length_append
  have hpos : 0 < (str ++ [0]).length := by omega
  obtain ⟨buf, zeros, hread, hbytes, -⟩ := readStep_whole hn eof hpos (by omega) rest (.readBody (str.length + 1 : Nat))
  rw [hlen] at hread
  have hsz : str.length + 1 < 2 ^ 64 := by omega
  refine ⟨buf, (step_readBody (Nat.succ_pos _) hsz eof _).trans hread, h0, zeros, ?_⟩
  rw [List.drop_zero, hbytes, List.append_assoc]
  rfl

/-- The server reads a piece, or takes a step with what it has read; at the end nothing changes any more. Only where the
channel is empty and the client goes on does it wait. -/
theorem Inv.server_step (h : Inv stdin left s p) (hn : 128 ≤ n) :
    (s.channel = [] ∧ s.client.closed = false ∧ s.step (.server n) = .ok none) ∨
      ∃ t p', s.step (.server n) = .ok (some t) ∧ Inv stdin (left - 1) t p' := by
  have hnext : ∀ {piece ps'}, p.owed ++ p.ps = piece :: ps' → s.channel ≠ [] →
      ∃ sent', p.sent = piece :: sent' ∧ s.channel = piece ++ sent'.flatten ∧ sent' ++ p.due = ps' := h.next_piece
  have hnothing := h.nothing_left
  obtain ⟨hwire, hpieces, hchannel, hmessages, hclosed, a, b, hserver, hclient, hleft⟩ := h
  obtain ⟨rest, client, channel, server, printed⟩ := s
  obtain ⟨owed, msgs, due, pending, ps, sent⟩ := p
  dsimp only at *
  cases hserver with
  | start =>
    by_cases hnone : channel = []
    · subst hnone
      cases hopen : client.closed with
      | false =>
        refine .inl ⟨rfl, rfl, ?_⟩
        unfold Session.step
        dsimp only
        rw [hopen, step_start, readStep_waits (by decide), ok_bind]
        rfl
      | true =>
        -- nothing comes any more, and all is done
        obtain ⟨-, rfl, rfl⟩ := hnothing hopen rfl
        obtain rfl := hwire.msgs_nil
        obtain rfl := hclosed hopen
        obtain rfl := hclient.steps_zero hopen
        rw [client.last_eq_zero hopen, typed_nil] at hleft
        refine .inr ⟨⟨[], client, [], .start, printed⟩, ⟨[], [], [], [], [], []⟩, ?_, .nil, rfl, rfl, hmessages,
          fun _ => rfl, 0, 0, .start, hclient.due_nil hopen ▸ hclient, ?_⟩
        · unfold Session.step
          dsimp only
          rw [hopen, step_start, readStep_eof (by decide) toInt_zero, ok_bind]
          simp [Server.start]
        · rw [hleft, client.last_eq_zero hopen, typed_nil]
          rfl
    · cases hwire with
      | nil =>
        obtain ⟨rfl, -⟩ := List.append_eq_nil_iff.mp hpieces
        exact absurd hchannel hnone
      | @cons str hd msgs ps hh hlt h0 hwire =>
        obtain ⟨sent', rfl, rfl, hsent⟩ := hnext rfl hnone
        obtain ⟨size, hread, hsize⟩ := start_reads hn hh client.closed sent'.flatten
        refine .inr ⟨⟨rest, client, sent'.flatten, .readSize (8 : Nat) size, printed⟩,
          ⟨[str ++ [0]], [str], due, msgs, ps, sent'⟩, ?_, hwire, hsent, rfl, ?_, hclosed, 3, b,
          .gotSize hlt h0 hsize, hclient, ?_⟩
        · unfold Session.step
          dsimp only
          rw [hread, ok_bind]
          simp
        · rw [← hmessages]
          simp
        · rw [List.length_cons] at hleft
          dsimp only
          omega
  | @gotSize str size hlt h0 hsize =>
    refine .inr ⟨⟨rest, client, channel, .readBody (str.length + 1 : Nat) 0 (.zero 128), printed⟩,
      ⟨[str ++ [0]], [str], due, pending, ps, sent⟩, ?_, hwire, hpieces, hchannel, hmessages, hclosed, 2, b,
      .awaits hlt h0, hclient, ?_⟩
    · unfold Session.step
      dsimp only
      rw [step_gotSize hsize (by omega), ok_bind]
      simp
    · dsimp only
      omega
  | @awaits str hlt h0 =>
    have hsz : str.length + 1 < 2 ^ 64 := by omega
    by_cases hnone : channel = []
    · subst hnone
      cases hopen : client.closed with
      | false =>
        refine .inl ⟨rfl, rfl, ?_⟩
        unfold Session.step
        dsimp only
        rw [hopen, step_readBody (Nat.succ_pos _) hsz, readStep_waits (by omega), ok_bind]
        rfl
      | true => cases (hnothing hopen rfl).1
    · obtain ⟨sent', rfl, rfl, hsent⟩ := hnext rfl hnone
      obtain ⟨buf, hread, hbuf⟩ := awaits_reads hn hlt h0 client.closed sent'.flatten
      refine .inr ⟨⟨rest, client, sent'.flatten, .readBody (str.length + 1 : Nat) (str.length + 1 : Nat) buf, printed⟩,
        ⟨[], [str], due, pending, ps, sent'⟩, ?_, hwire, hsent, rfl, hmessages, hclosed, 1, b, .gotBody hbuf, hclient,
        ?_⟩
      · unfold Session.step
        dsimp only
        rw [hread, ok_bind]
        simp
      · dsimp only
        omega
  | @gotBody str buf hbuf =>
    refine .inr ⟨⟨rest, client, channel, .start, printed ++ [str]⟩, ⟨[], [], due, pending, ps, sent⟩, ?_, hwire,
      hpieces, hchannel, ?_, hclosed, 0, b, .start, hclient, ?_⟩
    · have hlt := hbuf.lt
      unfold Session.step
      dsimp only
      rw [step_gotBody hbuf (Nat.succ_pos _) (by omega), ok_bind]
      rfl
    · rw [← hmessages]
      simp
    · dsimp only
      omega

/-! ## Runs -/

/-- What a step of either of them does. -/
theorem Inv.step (h : Inv stdin left s p) (hl : l.Regular) : s.step l = .ok none ∨
    ∃ t p', s.step l = .ok (some t) ∧ Inv stdin (left - 1) t p' := by
  cases l with
  | client n size_str beyond =>
    cases hopen : s.client.closed with
    | false =>
      obtain ⟨bytes, rfl⟩ := Option.isSome_iff_exists.mp hl.2
      exact .inr (h.client_step hopen hl.1 bytes beyond)
    | true =>
      cases hc : s.client with
      | exited =>
        refine .inl ?_
        unfold Session.step
        rw [hc]
        rfl
      | prompt | sendSize _ | send _ _ =>
        rw [hc] at hopen
        cases hopen
  | server n =>
    rcases h.server_step hl with ⟨-, -, hwaits⟩ | hstep
    · exact .inl hwaits
    · exact .inr hstep

/-- One of the two can always go on. -/
theorem Inv.can_step (h : Inv stdin left s p) : ∃ l t, l.Regular ∧ s.step l = .ok (some t) := by
  cases hopen : s.client.closed with
  | false =>
    obtain ⟨t, -, hstep, -⟩ := h.client_step hopen (Nat.le_refl 128) (.zero 8) fun _ => 0
    exact ⟨.client 128 (some (.zero 8)) fun _ => 0, t, ⟨Nat.le_refl 128, rfl⟩, hstep⟩
  | true =>
    rcases h.server_step (Nat.le_refl 128) with ⟨-, hclosed, -⟩ | ⟨t, -, hstep, -⟩
    · rw [hopen] at hclosed
      cases hclosed
    · exact ⟨.server 128, t, Nat.le_refl 128, hstep⟩

theorem Inv.run (h : Run Steps (Session.init stdin) ls s) (hregular : ∀ l ∈ ls, l.Regular) :
    ∃ p, Inv stdin (7 * (typed stdin).length + 1 - ls.length) s p := by
  refine h.invariant_of_prefix (P := fun ls => ∀ l ∈ ls, l.Regular)
    (I := fun ls s => ∃ p, Inv stdin (7 * (typed stdin).length + 1 - ls.length) s p) ?_ ?_ ?_ hregular
  · intro ls ls' hle l hl
    exact hle l (List.mem_append_left _ hl)
  · intro _
    exact ⟨_, inv_init stdin⟩
  · rintro ls s _ t ⟨p, hinv⟩ ⟨l, rfl, hstep⟩ hle
    rcases hinv.step (hle l (by simp)) with hwaits | ⟨t', p', hstep', hinv'⟩
    · rw [hwaits] at hstep
      cases hstep
    · obtain rfl : t' = t := Option.some.inj (Except.ok.inj (hstep'.symm.trans hstep))
      refine ⟨p', ?_⟩
      rwa [List.length_append, List.length_singleton, ← Nat.sub_sub]

/-- With no step left, all is printed. -/
theorem Inv.done (h : Inv stdin 0 s p) :
    s.printed = typed stdin ∧ s.client = .exited ∧ s.server = .start ∧ s.channel = [] := by
  obtain ⟨a, b, hserver, hclient, hleft⟩ := h.parties
  have hlast : s.client.last = 0 := by omega
  have hc : s.client = .exited := by
    cases hc : s.client with
    | exited => rfl
    | prompt | sendSize _ | send _ _ =>
      rw [hc] at hlast
      cases hlast
  have hpending : p.pending = [] := List.length_eq_zero_iff.mp (by omega)
  have htyped : typed s.stdin = [] := List.length_eq_zero_iff.mp (by omega)
  have hmessages := h.messages
  have hwire := h.wire
  have hpieces := h.pieces
  have hchannel := h.channel
  rw [hpending] at hwire hmessages
  obtain ⟨owed, msgs, due, pending, ps, sent⟩ := p
  dsimp only at *
  obtain rfl : ps = [] := by
    cases hwire
    rfl
  obtain rfl : a = 0 := by omega
  generalize hsrv : s.server = srv at hserver
  cases hserver
  obtain ⟨rfl, -⟩ := List.append_eq_nil_iff.mp hpieces
  rw [htyped] at hmessages
  exact ⟨by simpa using hmessages, hc, rfl, hchannel⟩

end

/-- **What is typed in is printed**, in order and once: where the system moves the bytes of a call at once and
`size_str` happens to point to bytes of its own, then in any order of the steps the server has printed the front of it
and has not come back to `accept`, no step goes wrong, one of the two can go on, and after seven steps for each message
and one for the end of the input all of it is printed. The server then waits for a size. -/
theorem session_delivers (h : Run Steps (Session.init stdin) ls s) (hregular : ∀ l ∈ ls, l.Regular) :
    s.printed <+: typed stdin ∧ s.server ≠ .accept ∧ (∀ l : Label, l.Regular → ∃ r, s.step l = .ok r) ∧
      (∃ l t, l.Regular ∧ s.step l = .ok (some t)) ∧
      (7 * (typed stdin).length + 1 ≤ ls.length →
        s.printed = typed stdin ∧ s.client = .exited ∧ s.server = .start ∧ s.channel = []) := by
  obtain ⟨p, hinv⟩ := Inv.run h hregular
  refine ⟨⟨p.msgs ++ (p.pending ++ typed s.stdin), ?_⟩, fun haccept => ?_, fun l hl => ?_, hinv.can_step,
    fun hlen => ?_⟩
  · rw [← hinv.messages, List.append_assoc, List.append_assoc]
  · obtain ⟨a, b, hserver, -⟩ := hinv.parties
    rw [haccept] at hserver
    cases hserver
  · rcases hinv.step hl with hwaits | ⟨t, -, hstep, -⟩
    · exact ⟨_, hwaits⟩
    · exact ⟨_, hstep⟩
  · rw [Nat.sub_eq_zero_of_le hlen] at hinv
    exact hinv.done

/-- The state behind some steps, where all of them go through. -/
def execute (ls : List Label) (s : Session) : Option Session :=
  (Run.execute (Run.labelled fun l s => (s.step l).toOption.join) ls s).map Prod.snd

theorem run_of_execute (h : execute ls s = some t) : Run Steps s ls t := by
  obtain ⟨⟨tr, t'⟩, hrun, rfl⟩ := Option.map_eq_some_iff.mp h
  obtain rfl := Run.execute_labelled hrun
  refine Run.of_execute (fun l _ s t ev hs => ?_) hrun
  obtain ⟨hstep, rfl⟩ := Run.labelled_eq_some.mp hs
  refine ⟨l, rfl, ?_⟩
  cases hl : s.step l with
  | error e =>
    rw [hl] at hstep
    cases hstep
  | ok r =>
    rw [hl] at hstep
    exact congrArg Except.ok hstep

/-- A step of the client whose `size_str` points to eight bytes. -/
def clientStep : Label := .client 128 (some (.zero 8)) fun _ => 0

/-- `hi` and a newline. -/
theorem session_delivers_hi : ∃ s, Run Steps (Session.init [104, 105, 10])
    (List.replicate 3 clientStep ++ List.replicate 4 (.server 128) ++ [clientStep]) s ∧ s.printed = [[104, 105]] := by
  have hcheck : (execute (List.replicate 3 clientStep ++ List.replicate 4 (.server 128) ++ [clientStep])
      (Session.init [104, 105, 10])).isSome = true := by decide +kernel
  obtain ⟨s, hs⟩ := Option.isSome_iff_exists.mp hcheck
  have htyped : typed [104, 105, 10] = [[104, 105]] := by
    rw [typed_of_ne_nil (by simp), show ([104, 105, 10] : List UInt8).drop (lineOf 127 [104, 105, 10]).length = [] from
      rfl, typed_nil]
    rfl
  have hrun := run_of_execute hs
  obtain ⟨-, -, -, -, hdone⟩ := session_delivers hrun (by decide)
  refine ⟨s, hrun, ?_⟩
  rw [(hdone (by rw [htyped]; decide)).1, htyped]

end Cs326.Socket
