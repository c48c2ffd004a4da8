import Cs326.Lib.Descriptors
import Cs326.Lib.Run
import Cs326.Web.Connection

/-!
# The server

The loop of `main` in `www.c` behind `listen` and `chdir`, and the processes that it forks, as a step relation: the
parent accepts a connection, forks and closes its descriptor; a child closes the listening socket, handles requests on
the connection and exits. The steps are the system calls, but that the reading of a request, which no other process sees
anything of, is one step. The parent never waits for a child, so the children that have exited count as well when `fork`
is refused for their number.
-/

namespace Cs326.Web

/-- What a descriptor names. -/
inductive File
  /-- What the server was started with. -/
  | std
  | listening
  | connection (i : Nat)
  | regular (path : List UInt8)
  deriving DecidableEq

/-- One that connects: what it sends, and what the system answers to the child that serves it. -/
structure Peer where
  env : Env
  input : List UInt8

/-- Where the parent is in its loop. -/
inductive ParentPc
  | accept
  | fork (client_fd : Nat)
  | close (client_fd : Nat)
  | exited (status : Nat)
  deriving DecidableEq

/-- Where a child is. -/
inductive ChildPc
  | close (client_fd : Nat)
  | handle_request (client_fd : Nat)
  /-- In `handle_request`, with a request read: the value to return, `file_fd` unless `open` has failed or is still to
  come, and the calls to make. -/
  | respond (client_fd : Nat) (ret : Int) (file_fd : Option Nat) (events : List Event)
  | exited
  /-- C does not say what it does. -/
  | undefined
  deriving DecidableEq

structure Child where
  fds : FdTable File
  pc : ChildPc

structure System where
  parent_fds : FdTable File
  parent : ParentPc
  /-- The connections that have been accepted. -/
  accepted : Nat
  /-- The children that have been forked. -/
  num : Nat
  children : Nat → Child
  /-- What has not been read from a connection. -/
  input : Nat → List UInt8
  /-- What has been put on a connection. -/
  output : Nat → List UInt8

/-! ## A child -/

/-- `write(fd, ...)`, and `sendfile` to `fd`, of so many bytes that the system takes. -/
def put (fds : FdTable File) (fd : Nat) (bytes : List UInt8) (output : Nat → List UInt8) : Nat → List UInt8 :=
  match fds.file fd with
  | some (.connection j) => Function.update output j (output j ++ bytes)
  | _ => output

/-- The bytes that `sendfile` finds behind `file_fd`. -/
def sendfile (env : Env) (fds : FdTable File) (file_fd : Option Nat) (count : Nat) : List UInt8 :=
  match file_fd.bind fds.file with
  | some (.regular path) => (((env.file path).getD []).take count).take (env.sendfile path count)
  | _ => []

/-- The next step of the child that `peer` is served by. -/
def Child.step (socket_fd : Nat) (peer : Peer) (c : Child) (input output : Nat → List UInt8) :
    Option (Child × (Nat → List UInt8) × (Nat → List UInt8)) :=
  match c.pc with
  | .close client_fd => some (⟨c.fds.close socket_fd, .handle_request client_fd⟩, input, output)
  | .handle_request client_fd =>
    match c.fds.file client_fd with
    | some (.connection j) =>
      match handle_request peer.env (input j) with
      | .ok o => some (⟨c.fds, .respond client_fd o.ret none o.events⟩, Function.update input j o.input, output)
      | .error _ => some (⟨c.fds, .undefined⟩, input, output)
    -- `read` fails
    | _ => some (⟨.empty, .exited⟩, input, output)
  | .respond client_fd ret _ [] =>
    if ret = -1 ∨ ret = 0 then some (⟨.empty, .exited⟩, input, output)
    else some (⟨c.fds, .handle_request client_fd⟩, input, output)
  | .respond client_fd ret file_fd (e :: events) =>
    match e with
    | .stat _ => some (⟨c.fds, .respond client_fd ret file_fd events⟩, input, output)
    | .write m => some (⟨c.fds, .respond client_fd ret file_fd events⟩, input,
        put c.fds client_fd (sent peer.env (.write m)) output)
    | .open_rdonly path =>
      match peer.env.file path with
      | some _ => some (⟨c.fds.alloc (.regular path), .respond client_fd ret (some c.fds.lowest) events⟩, input, output)
      | none => some (⟨c.fds, .respond client_fd ret none events⟩, input, output)
    | .sendfile _ count => some (⟨c.fds, .respond client_fd ret file_fd events⟩, input,
        put c.fds client_fd (sendfile peer.env c.fds file_fd count) output)
  | .exited | .undefined => none

/-! ## The parent -/

/-- What takes a step. -/
inductive Turn
  /-- The parent; `accept` succeeds if it is called. -/
  | parent (ok : Bool)
  | child (i : Nat)
  deriving DecidableEq

namespace System

variable (arrivals limit socket_fd : Nat) (peer : Nat → Peer)

/-- Before the first connection. -/
def start (t : FdTable File) : System where
  parent_fds := t
  parent := .accept
  accepted := 0
  num := 0
  children _ := ⟨.empty, .close 0⟩
  input i := (peer i).input
  output _ := []

/-- The next step of the parent, where `arrivals` connect in all and no more than `limit` children can be forked. -/
def parentStep (ok : Bool) (s : System) : Option System :=
  match s.parent with
  | .accept =>
    if ok then
      if s.accepted < arrivals then some { s with
        parent_fds := s.parent_fds.alloc (.connection s.accepted)
        parent := .fork s.parent_fds.lowest
        accepted := s.accepted + 1 }
      else none
    else some { s with parent_fds := .empty, parent := .exited 1 }
  | .fork client_fd =>
    if s.num < limit then some { s with
      parent := .close client_fd
      num := s.num + 1
      children := Function.update s.children s.num ⟨s.parent_fds, .close client_fd⟩ }
    else some { s with parent_fds := .empty, parent := .exited 1 }
  | .close client_fd => some { s with parent_fds := s.parent_fds.close client_fd, parent := .accept }
  | .exited _ => none

def childStep (i : Nat) (s : System) : Option System :=
  if i < s.num then do
    let (c, input, output) ← (s.children i).step socket_fd (peer i) s.input s.output
    return { s with children := Function.update s.children i c, input := input, output := output }
  else none

def step : Turn → System → Option System
  | .parent ok => parentStep arrivals limit ok
  | .child i => childStep socket_fd peer i

/-- One step, which shows what has taken it. -/
def Steps (s : System) (turns : List Turn) (s' : System) : Prop :=
  ∃ turn, s.step arrivals limit socket_fd peer turn = some s' ∧ turns = [turn]

end System

/-! ## What a child keeps -/

/-- What the connection has at the end: nothing if C does not say what the child does. -/
def served (peer : Peer) : List UInt8 :=
  match child peer.env peer.input with
  | .ok events => output peer.env events
  | .error _ => []

/-- A file is sent after it has been opened; `last` is the one that was opened last. -/
def Ready : Option (List UInt8) → List Event → Prop
  | _, [] => True
  | _, .open_rdonly path :: events => Ready (some path) events
  | last, .sendfile path _ :: events => last = some path ∧ Ready last events
  | last, .stat _ :: events | last, .write _ :: events => Ready last events

theorem ready_serve (env : Env) (path : List UInt8) : Ready none (serve env path) := by
  have hanswer : Ready none (answer (found env path)) := by
    cases found env path with
    | none => trivial
    | some file => exact ⟨rfl, trivial⟩
  unfold serve lookups
  split
  · exact hanswer
  · exact hanswer

theorem ready_handle_request {env : Env} {input : List UInt8} {o : Outcome} (ho : handle_request env input = .ok o) :
    Ready none o.events := by
  rcases handle_request_cases ho with ⟨-, hevents, -⟩ | ⟨-, hevents, -⟩
  · rw [hevents]
    trivial
  · rw [hevents]
    exact ready_serve ..

/-- What is behind `file_fd`. -/
def Opened (env : Env) (fds : FdTable File) (file_fd : Option Nat) : Option (List UInt8) → Prop
  | none => True
  | some path => file_fd.bind fds.file = (env.file path).map fun _ => .regular path

theorem sendfile_eq {env : Env} {fds : FdTable File} {file_fd : Option Nat} {path : List UInt8} (count : Nat)
    (h : Opened env fds file_fd (some path)) : sendfile env fds file_fd count = sent env (.sendfile path count) := by
  have hfile : file_fd.bind fds.file = (env.file path).map fun _ => .regular path := h
  unfold sendfile sent
  rw [hfile]
  cases hnone : env.file path with
  | none => simp [hnone]
  | some file => simp [hnone]

/-- Of all the connections a process has the `i`-th one only. -/
structure Owns (i client_fd : Nat) (fds : FdTable File) : Prop where
  client : fds.file client_fd = some (.connection i)
  only : ∀ fd j, fds.file fd = some (.connection j) → j = i

theorem Owns.put {i client_fd : Nat} {fds : FdTable File} (h : Owns i client_fd fds) (bytes : List UInt8)
    (output : Nat → List UInt8) : put fds client_fd bytes output = Function.update output i (output i ++ bytes) := by
  unfold Web.put
  rw [h.client]

theorem Owns.alloc {i client_fd : Nat} {fds : FdTable File} (h : Owns i client_fd fds) (path : List UInt8) :
    Owns i client_fd (fds.alloc (.regular path)) where
  client := by
    have hne : fds.file client_fd ≠ none := by rw [h.client]; exact Option.some_ne_none _
    rw [FdTable.alloc_file, if_neg (FdTable.lowest_ne hne).symm, h.client]
  only fd j hfile := by
    rw [FdTable.alloc_file] at hfile
    split at hfile
    · cases hfile
    · exact h.only fd j hfile

/-- The child that serves the `i`-th connection, with what is left to read there and what has been put there. -/
inductive ChildInv (socket_fd : Nat) (peer : Peer) (i : Nat) : Child → List UInt8 → List UInt8 → Prop
  | close {fds : FdTable File} {client_fd : Nat} : client_fd ≠ socket_fd → Owns i client_fd fds →
      (∀ fd, fds.file fd = some .listening → fd = socket_fd) →
      ChildInv socket_fd peer i ⟨fds, .close client_fd⟩ peer.input []
  | handle_request {fds : FdTable File} {client_fd : Nat} : Owns i client_fd fds →
      (∀ fd, fds.file fd ≠ some .listening) →
      ChildInv socket_fd peer i ⟨fds, .handle_request client_fd⟩ peer.input []
  | respond {fds : FdTable File} {client_fd : Nat} {o : Outcome} {file_fd : Option Nat} {done events : List Event}
      {last : Option (List UInt8)} : handle_request peer.env peer.input = .ok o → o.events = done ++ events →
      Owns i client_fd fds → (∀ fd, fds.file fd ≠ some .listening) → Ready last events →
      Opened peer.env fds file_fd last →
      ChildInv socket_fd peer i ⟨fds, .respond client_fd o.ret file_fd events⟩ o.input (output peer.env done)
  | exited {o : Outcome} : handle_request peer.env peer.input = .ok o →
      ChildInv socket_fd peer i ⟨.empty, .exited⟩ o.input (output peer.env o.events)
  | undefined {fds : FdTable File} {client_fd : Nat} {e : Undefined} : handle_request peer.env peer.input = .error e →
      Owns i client_fd fds → (∀ fd, fds.file fd ≠ some .listening) →
      ChildInv socket_fd peer i ⟨fds, .undefined⟩ peer.input []

/-- How many calls it takes to answer. -/
def Peer.calls (peer : Peer) : Nat :=
  match handle_request peer.env peer.input with
  | .ok o => o.events.length
  | .error _ => 0

/-- The steps that the child still takes. -/
def Child.left (peer : Peer) (c : Child) : Nat :=
  match c.pc with
  | .close _ => peer.calls + 3
  | .handle_request _ => peer.calls + 2
  | .respond _ _ _ rest => rest.length + 1
  | .exited | .undefined => 0

/-- **One step of a child.** -/
theorem ChildInv.step {socket_fd : Nat} {peer : Peer} {i : Nat} {c c' : Child}
    {input output input' output' : Nat → List UInt8} (h : ChildInv socket_fd peer i c (input i) (output i))
    (hs : c.step socket_fd peer input output = some (c', input', output')) :
    ChildInv socket_fd peer i c' (input' i) (output' i) ∧ c'.left peer < c.left peer ∧
      ∀ j, j ≠ i → input' j = input j ∧ output' j = output j := by
  generalize hin : input i = inp, hout : output i = out at h
  unfold Child.step at hs
  cases h with
  | @close fds client_fd hne howns honly =>
    cases hs
    have hsocket : ∀ fd, (fds.close socket_fd).file fd ≠ some .listening := by
      intro fd hfile
      rw [FdTable.close_file] at hfile
      split at hfile
      · cases hfile
      · rename_i hfd
        exact hfd (honly fd hfile)
    have howns' : Owns i client_fd (fds.close socket_fd) := by
      refine ⟨?_, fun fd j hfile => ?_⟩
      · rw [FdTable.close_file, if_neg hne, howns.client]
      · rw [FdTable.close_file] at hfile
        split at hfile
        · cases hfile
        · exact howns.only fd j hfile
    rw [hin, hout]
    exact ⟨.handle_request howns' hsocket, Nat.lt_succ_self _, fun j _ => ⟨rfl, rfl⟩⟩
  | @handle_request fds client_fd howns hsocket =>
    dsimp only at hs
    rw [howns.client] at hs
    dsimp only at hs
    rw [hin] at hs
    split at hs
    · rename_i o ho
      cases hs
      have hread : ChildInv socket_fd peer i ⟨fds, .respond client_fd o.ret none o.events⟩ o.input
          (Web.output peer.env []) := .respond ho rfl howns hsocket (ready_handle_request ho) trivial
      have hcalls : peer.calls = o.events.length := by
        unfold Peer.calls
        rw [ho]
      rw [Function.update_self, hout]
      refine ⟨hread, ?_, fun j hj => ⟨Function.update_of_ne hj _ _, rfl⟩⟩
      unfold Child.left
      dsimp only
      rw [hcalls]
      exact Nat.lt_succ_self _
    · rename_i e he
      cases hs
      rw [hin, hout]
      refine ⟨.undefined he howns hsocket, ?_, fun j _ => ⟨rfl, rfl⟩⟩
      unfold Child.left
      exact Nat.succ_pos _
  | @respond fds client_fd o file_fd done events last ho hevents howns hsocket hready hopened =>
    cases events with
    | nil =>
      dsimp only at hs
      rw [if_pos (handle_request_ret ho)] at hs
      cases hs
      rw [List.append_nil] at hevents
      rw [hin, hout, ← hevents]
      exact ⟨.exited ho, Nat.succ_pos _, fun j _ => ⟨rfl, rfl⟩⟩
    | cons e events =>
      have hevents' : o.events = (done ++ [e]) ++ events := by
        rw [List.append_assoc]
        exact hevents
      have houtput : ∀ bytes, sent peer.env e = bytes → output i ++ bytes = Web.output peer.env (done ++ [e]) := by
        rintro bytes rfl
        rw [hout]
        unfold Web.output
        rw [List.flatMap_append, List.flatMap_singleton]
      have hquiet : sent peer.env e = [] → output i = Web.output peer.env (done ++ [e]) := fun hnil =>
        (List.append_nil _).symm.trans (houtput [] hnil)
      cases e with
      | stat path =>
        cases hs
        rw [hin, hquiet rfl]
        exact ⟨.respond ho hevents' howns hsocket hready hopened, Nat.lt_succ_self _, fun j _ => ⟨rfl, rfl⟩⟩
      | write m =>
        dsimp only at hs
        rw [howns.put] at hs
        cases hs
        rw [hin, Function.update_self, houtput _ rfl]
        exact ⟨.respond ho hevents' howns hsocket hready hopened, Nat.lt_succ_self _,
          fun j hj => ⟨rfl, Function.update_of_ne hj _ _⟩⟩
      | open_rdonly path =>
        have hready' : Ready (some path) events := hready
        dsimp only at hs
        split at hs
        · rename_i file hfile
          cases hs
          rw [hin, hquiet rfl]
          refine ⟨.respond ho hevents' (howns.alloc path) (fun fd hlisten => ?_) hready' ?_,
            Nat.lt_succ_self _, fun j _ => ⟨rfl, rfl⟩⟩
          · rw [FdTable.alloc_file] at hlisten
            split at hlisten
            · cases hlisten
            · exact hsocket fd hlisten
          · show (fds.alloc (.regular path)).file fds.lowest = _
            rw [FdTable.alloc_file, if_pos rfl, hfile]
            rfl
        · rename_i hfile
          cases hs
          rw [hin, hquiet rfl]
          refine ⟨.respond ho hevents' howns hsocket hready' ?_, Nat.lt_succ_self _,
            fun j _ => ⟨rfl, rfl⟩⟩
          show none = _
          rw [hfile]
          rfl
      | sendfile path count =>
        obtain ⟨rfl, hready⟩ := hready
        dsimp only at hs
        rw [sendfile_eq count hopened, howns.put] at hs
        cases hs
        rw [hin, Function.update_self, houtput _ rfl]
        exact ⟨.respond ho hevents' howns hsocket hready hopened, Nat.lt_succ_self _,
          fun j hj => ⟨rfl, Function.update_of_ne hj _ _⟩⟩
  | exited | undefined => cases hs

/-- A child that has not come to its end goes on. -/
theorem ChildInv.step_isSome {socket_fd : Nat} {peer : Peer} {i : Nat} {c : Child} {input output : Nat → List UInt8}
    (h : ChildInv socket_fd peer i c (input i) (output i)) (hexited : c.pc ≠ .exited) (hundefined : c.pc ≠ .undefined) :
    (c.step socket_fd peer input output).isSome = true := by
  generalize input i = inp, output i = out at h
  unfold Child.step
  cases h with
  | close => rfl
  | handle_request howns hsocket =>
    dsimp only
    rw [howns.client]
    dsimp only
    split <;> rfl
  | @respond _ _ _ _ _ events =>
    cases events with
    | nil =>
      dsimp only
      split <;> rfl
    | cons e events =>
      cases e with
      | open_rdonly path =>
        dsimp only
        split <;> rfl
      | stat | write | sendfile => rfl
  | exited => exact absurd rfl hexited
  | undefined => exact absurd rfl hundefined

theorem served_of_ok {peer : Peer} {o : Outcome} (ho : handle_request peer.env peer.input = .ok o) :
    served peer = output peer.env o.events := by
  unfold served
  rw [child_eq, ho]
  rfl

theorem served_of_error {peer : Peer} {e : Undefined} (he : handle_request peer.env peer.input = .error e) :
    served peer = [] := by
  unfold served
  rw [child_eq, he]
  rfl

/-- What is on the connection is what is to be there, as far as the child has come. -/
theorem ChildInv.output {socket_fd : Nat} {peer : Peer} {i : Nat} {c : Child} {input output : List UInt8}
    (h : ChildInv socket_fd peer i c input output) :
    output <+: served peer ∧ (c.pc = .exited ∨ c.pc = .undefined → output = served peer) := by
  cases h with
  | close | handle_request => exact ⟨List.nil_prefix, fun hpc => by cases hpc <;> rename_i hpc <;> cases hpc⟩
  | @respond _ _ o _ done events _ ho hevents =>
    refine ⟨?_, fun hpc => by cases hpc <;> rename_i hpc <;> cases hpc⟩
    rw [served_of_ok ho, hevents]
    unfold Web.output
    rw [List.flatMap_append]
    exact List.prefix_append _ _
  | exited ho =>
    rw [served_of_ok ho]
    exact ⟨List.prefix_refl _, fun _ => rfl⟩
  | undefined he =>
    rw [served_of_error he]
    exact ⟨List.prefix_refl _, fun _ => rfl⟩

end Cs326.Web
