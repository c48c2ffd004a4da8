import Cs326.Lib.Chunks
import Cs326.Lib.Numerals
import Cs326.Socket.SendLoop

/-!
# The client

The loop of `main` in `client.c`: a line is read, cut at its end, and sent behind its size. What is typed in becomes a
list of messages (`typed`): a line, or a piece of 127 bytes of a long one, each up to its end or its first zero. Each of
them is put into the arrays as it is to be sent (`prompt_eq`).
-/

namespace Cs326.Socket

open CharArray

variable {cap : Nat} {a : CharArray cap} {str s : List UInt8}

/-! ## `strtok` -/

/-- `"\r\n"`. -/
def crlf : List UInt8 := chars ['\r', '\n']

/-- `strtok(a, set)`, the first call: the array behind it. -/
def strtok (a : CharArray cap) (set : List UInt8) : Except Undefined (CharArray cap) := do
  let start ← a.strspn 0 set
  if (← a.get start) = 0 then return a
  else
    let len ← a.strcspn start set
    if (← a.get (start + len)) = 0 then return a else a.write (start + len) [0]

/-- The delimiters in front, and the first token. -/
def firstToken (s : List UInt8) : List UInt8 :=
  s.takeWhile crlf.contains ++ (s.dropWhile crlf.contains).takeWhile fun b => !crlf.contains b

/-- The string behind `strtok`. -/
theorem strtok_eq (h : StringAt a 0 s) : ∃ a', strtok a crlf = .ok a' ∧ StringAt a' 0 (firstToken s) := by
  have hsplit := List.takeWhile_append_dropWhile (p := crlf.contains) (l := s)
  have hspan : a.strspn 0 crlf = .ok (s.takeWhile crlf.contains).length := h.strspn (by decide)
  generalize hlead : s.takeWhile crlf.contains = lead at hsplit hspan
  generalize hrest : s.dropWhile crlf.contains = rest at hsplit
  have hat : StringAt a lead.length rest := by
    have hdrop := (hsplit ▸ h : StringAt a 0 (lead ++ rest)).drop
    rwa [Nat.zero_add] at hdrop
  have hfirst : firstToken s = lead ++ rest.takeWhile fun b => !crlf.contains b := by
    unfold firstToken
    rw [hlead, hrest]
  unfold strtok
  rw [hspan, ok_bind, hat.get, ok_bind]
  cases rest with
  | nil =>
    -- only delimiters
    refine ⟨a, if_pos rfl, ?_⟩
    rw [hfirst, List.takeWhile_nil, hsplit]
    exact h
  | cons b rest =>
    have hb : b ≠ 0 := fun e => hat.1 (e ▸ List.mem_cons_self)
    rw [List.headD_cons, if_neg hb, hat.strcspn, ok_bind]
    have htoken := List.takeWhile_append_dropWhile (p := fun b => !crlf.contains b) (l := b :: rest)
    generalize (b :: rest).takeWhile (fun b => !crlf.contains b) = token at htoken hfirst
    generalize (b :: rest).dropWhile (fun b => !crlf.contains b) = back at htoken
    rw [← htoken] at hat hsplit
    have hend := hat.drop
    rw [hend.get, ok_bind]
    cases back with
    | nil =>
      refine ⟨a, if_pos rfl, ?_⟩
      rw [hfirst, ← List.append_nil token, hsplit]
      exact h
    | cons c back =>
      have hc : c ≠ 0 := fun e => hend.1 (e ▸ List.mem_cons_self)
      rw [List.headD_cons, if_neg hc]
      rw [← hsplit, ← List.append_assoc] at h
      obtain ⟨a', hwrite, hcut, -⟩ := h.cut
      rw [List.length_append, Nat.zero_add] at hwrite
      refine ⟨a', hwrite, ?_⟩
      rw [hfirst]
      exact hcut

/-! ## The messages -/

/-- The string that is left of a text. -/
def cutText (text : List UInt8) : List UInt8 := firstToken (text.takeWhile (· != 0))

/-- The messages that are typed in. -/
def typed (stdin : List UInt8) : List (List UInt8) := (chunks 126 stdin).map cutText

theorem typed_nil : typed [] = [] := by
  unfold typed
  rw [chunks_nil]
  rfl

theorem typed_of_ne_nil {stdin : List UInt8} (hne : stdin ≠ []) :
    typed stdin = cutText (lineOf 127 stdin) :: typed (stdin.drop (lineOf 127 stdin).length) := by
  unfold typed
  rw [chunks_of_ne_nil hne]
  rfl

/-- What is ready to be sent. -/
structure Outgoing where
  buf : CharArray 128
  sz : Nat
  size_str : CharArray 8
  pos : 0 < sz

/-- What `size_str` points to, which nothing initialises; `none`: not to eight bytes that the program may write and uses
for nothing else. -/
def pointed (size_str : Option (CharArray 8)) : Except Undefined (CharArray 8) :=
  match size_str with
  | none => .error .uninitialised
  | some bytes => .ok bytes

/-- From the prompt to the `write` of the size; `none`: the end of the input. -/
def prompt (size_str : Option (CharArray 8)) (stdin : List UInt8) :
    Except Undefined (Option (Outgoing × List UInt8)) := do
  match ← (CharArray.zero 128).fgets stdin with
  | none => return none
  | some (buf, stdin) =>
    let buf ← strtok buf crlf
    let len ← buf.strlen 0
    let size_str ← (← pointed size_str).strcpy 0 (decimal (len + 1))
    return some (⟨buf, len + 1, size_str, Nat.succ_pos len⟩, stdin)

/-- The eight bytes in front of a message. -/
def Header (str h : List UInt8) : Prop := h.length = 8 ∧ ∃ back, h = decimal (str.length + 1) ++ 0 :: back

/-- `out` is the message `str`. -/
structure Carries (out : Outgoing) (str : List UInt8) : Prop where
  sz : out.sz = str.length + 1
  buf : StringAt out.buf 0 str
  header : Header str out.size_str.bytes

theorem Carries.length_lt {out : Outgoing} (h : Carries out str) : str.length < 128 := by
  have hlt := h.buf.lt
  rwa [Nat.zero_add] at hlt

theorem prompt_nil (size_str : Option (CharArray 8)) : prompt size_str [] = .ok none := rfl

/-- **A message is read** as it is to be sent, where `size_str` points to bytes of its own. -/
theorem prompt_eq (size_str : CharArray 8) {stdin : List UInt8} (hne : stdin ≠ []) :
    ∃ out, prompt (some size_str) stdin = .ok (some (out, stdin.drop (lineOf 127 stdin).length)) ∧
      Carries out (cutText (lineOf 127 stdin)) := by
  obtain ⟨buf, back, hfgets, hbytes⟩ := fgets_lineOf (CharArray.zero 128) (by decide) hne
  generalize htext : lineOf (128 - 1) stdin = text at hfgets hbytes
  have hstring : StringAt buf 0 (text.takeWhile (· != 0)) := by
    refine ⟨fun h => by simpa using List.mem_takeWhile_imp h, ?_⟩
    rw [List.drop_zero, hbytes]
    cases hdrop : text.dropWhile (· != 0) with
    | nil =>
      have hall := List.takeWhile_append_dropWhile (p := (· != 0)) (l := text)
      rw [hdrop, List.append_nil] at hall
      exact ⟨back, by rw [hall]⟩
    | cons b rest =>
      have hb := List.head_dropWhile_not (· != 0) (l := text) (by simp [hdrop])
      have hall := List.takeWhile_append_dropWhile (p := (· != 0)) (l := text)
      simp only [hdrop, List.head_cons, bne_eq_false_iff_eq] at hb
      refine ⟨rest ++ 0 :: back, ?_⟩
      conv_lhs => rw [← hall, hdrop, hb]
      simp
  obtain ⟨buf', hstrtok, hcut⟩ := strtok_eq hstring
  have hlt := hcut.lt
  have hdigits : (decimal ((cutText text).length + 1)).length ≤ 3 :=
    decimal_length_le (by decide) (by unfold cutText; omega)
  obtain ⟨size_str', hcopy, ⟨-, rest, hrest⟩, -⟩ := size_str.strcpy_eq (p := 0)
    (s := decimal ((cutText text).length + 1)) (by omega) (not_mem_decimal rfl _)
  refine ⟨⟨buf', (cutText text).length + 1, size_str', Nat.succ_pos _⟩, ?_, ⟨rfl, hcut, size_str'.length_eq, rest, ?_⟩⟩
  · unfold prompt
    rw [hfgets, ok_bind]
    dsimp only
    rw [hstrtok, ok_bind, hcut.strlen, ok_bind]
    show ((pointed (some size_str) >>= fun bytes => bytes.strcpy 0 (decimal ((cutText text).length + 1))) >>= _) = _
    rw [pointed, ok_bind]
    rw [hcopy, ok_bind]
    rfl
  · rwa [List.drop_zero] at hrest

/-! ## The loop -/

inductive Client
  | prompt
  | sendSize (out : Outgoing)
  | send (out : Outgoing) (loop : SendLoop)
  | exited

/-- What a step of the client does. -/
structure ClientStep where
  client : Client
  stdin : List UInt8
  written : List UInt8

/-- How many of `asked` bytes are moved where the system moves up to `n`, one at least. -/
def moved (n asked : Nat) : Nat := min (max 1 n) asked

/-- A `write` of the message, and what follows it. -/
def sendStep (n : Nat) (beyond : Nat → UInt8) (out : Outgoing) (loop : SendLoop) (stdin : List UInt8) : ClientStep :=
  let w : Writes out.sz := ⟨fun _ => moved n out.sz, fun _ => by have := out.pos; unfold moved; omega,
    fun _ => Nat.min_le_right _ _⟩
  let loop' := send_body w loop
  ⟨if 0 < loop'.bytes_left then .send out loop' else .prompt, stdin,
    bytesSent out.buf.bytes beyond [⟨loop.write_ptr, moved n out.sz⟩]⟩

/-- A step of the client: a line is read, its size is written, or some of the line. A `write` moves up to `n` bytes, and
`beyond` is in memory behind `buf`. -/
def Client.step (n : Nat) (size_str : Option (CharArray 8)) (beyond : Nat → UInt8) (stdin : List UInt8) :
    Client → Except Undefined (Option ClientStep)
  | .prompt => do
    match ← Socket.prompt size_str stdin with
    | none => return some ⟨.exited, stdin, []⟩
    | some (out, stdin) => return some ⟨.sendSize out, stdin, []⟩
  | .sendSize out => return some ⟨.send out ⟨[], 0, out.sz⟩, stdin, out.size_str.bytes.take (moved n 8)⟩
  | .send out loop => return some (sendStep n beyond out loop stdin)
  | .exited => return none

theorem moved_eq {n asked : Nat} (hpos : 0 < asked) (h : asked ≤ n) : moved n asked = asked := by
  unfold moved
  omega

/-- Where the system moves them at once, the string and its zero are written by one call. -/
theorem sendStep_whole {n : Nat} {out : Outgoing} (h : Carries out str) (hn : 128 ≤ n) (beyond : Nat → UInt8)
    (stdin : List UInt8) : sendStep n beyond out ⟨[], 0, out.sz⟩ stdin = ⟨.prompt, stdin, str ++ [0]⟩ := by
  have hlt := h.length_lt
  have hsz := h.sz
  have hmoved : moved n out.sz = out.sz := moved_eq out.pos (by omega)
  have hleft : usub out.sz out.sz = 0 := by rw [usub_eq (Nat.le_refl _) (by omega), Nat.sub_self]
  obtain ⟨-, rest, hbytes⟩ := h.buf
  rw [List.drop_zero] at hbytes
  have htake : out.buf.bytes.take out.sz = str ++ [0] := by
    rw [hbytes, hsz, List.append_cons]
    exact List.take_left' (by simp)
  have hsent : bytesSent out.buf.bytes beyond [⟨0, out.sz⟩] = str ++ [0] := by
    unfold bytesSent
    rw [List.flatMap_singleton]
    dsimp only
    have hlen : (str ++ [0]).length = out.sz := by simp [hsz]
    rw [← hlen]
    refine Eq.trans (List.map_congr_left fun i hi => ?_) (read_message (str ++ [0]) beyond)
    have hi : i < (str ++ [0]).length := by simpa [List.mem_range'] using hi
    rw [hbytes, List.append_cons, List.getD_eq_getElem?_getD, List.getD_eq_getElem?_getD, List.getElem?_append_left hi]
  unfold sendStep send_body
  simp only [hmoved, hleft, Nat.lt_irrefl, if_false, hsent]

end Cs326.Socket
