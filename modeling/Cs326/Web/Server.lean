import Cs326.Lib.CString
import Cs326.Text.NextToken

/-!
# The web server

`www.c` behind `accept`: `read_line`, `handle_request` and the loop of the child that serves a connection, as functions
of the bytes that arrive on the connection and of an `Env`, which answers the system calls. What a request leads to is a
list of `Event`s, the calls on the file system and the connection in their order. A run that C leaves undefined, over
the end of a buffer or through `NULL`, is an error.
-/

namespace Cs326.Web

open CharArray Text

/-! ## The system -/

/-- What `handle_request` looks at in a `struct stat`. -/
structure Stat where
  isdir : Bool
  st_size : Nat
  deriving DecidableEq

/-- The macro `DEBUG`, and what the system answers. -/
structure Env where
  debug : Bool
  /-- A `read` behind the last byte: an error, or the end of the file. -/
  read_fails : Bool
  timestamp : List UInt8
  stat : List UInt8 → Option Stat
  /-- `ENAMETOOLONG` -/
  stat_long : ∀ path, 4096 ≤ path.length → stat path = none
  /-- How many bytes `write` takes; `none`: it fails. -/
  write : List UInt8 → Option Nat
  /-- The file that `open` opens; `none`: it fails. -/
  file : List UInt8 → Option (List UInt8)
  /-- At most how many bytes of the file one `sendfile` of so many transfers. -/
  sendfile : List UInt8 → Nat → Nat

/-- A directory without a file in it. -/
def Env.empty_directory : Env where
  debug := false
  read_fails := false
  timestamp := []
  stat _ := none
  stat_long _ _ := rfl
  write message := some message.length
  file _ := none
  sendfile _ count := count

/-- The two responses. -/
inductive Message
  | ok (st_size : Nat)
  | not_found
  deriving DecidableEq

namespace Message

/-- `error` in `not_found`. -/
def error : List UInt8 := chars "404 Not Found".toList

def status : Message → List UInt8
  | ok _ => chars "HTTP/1.1 200 OK\r\n".toList
  | not_found => chars "HTTP/1.1 404 Not Found\r\n".toList

/-- The value of the `Content-Length`. -/
def content_length : Message → Nat
  | ok st_size => st_size
  | not_found => error.length

def header (timestamp : List UInt8) (m : Message) : List UInt8 :=
  m.status ++ chars "Date: ".toList ++ timestamp ++ chars "\r\n".toList ++ chars "Content-Length: ".toList ++
    chars (Nat.toDigits 10 m.content_length) ++ chars "\r\n\r\n".toList

/-- What `sprintf` puts behind the header. -/
def body : Message → List UInt8
  | ok _ => []
  | not_found => error

def text (timestamp : List UInt8) (m : Message) : List UInt8 := m.header timestamp ++ m.body

end Message

inductive Event
  | stat (path : List UInt8)
  | write (m : Message)
  | open_rdonly (path : List UInt8)
  | sendfile (path : List UInt8) (count : Nat)
  deriving DecidableEq

/-! ## Reading a line -/

variable {cap : Nat} (env : Env)

/-- `read(fd, buf + total, 1)`: the array, what is returned, and the input that is left. -/
def read (buf : CharArray cap) (total : Nat) : List UInt8 → Except Undefined (CharArray cap × Int × List UInt8)
  | [] => return (buf, if env.read_fails then -1 else 0, [])
  | b :: input => do return (← buf.write total [b], 1, input)

/-- The loop of `read_line`, with `length - total` given. -/
def read_loop : Nat → Nat → CharArray cap → List UInt8 → Except Undefined (CharArray cap × Int × List UInt8)
  | 0, total, buf, input => return (buf, total, input)
  | n + 1, total, buf, input => do
    let (buf, read_sz, input) ← read env buf total input
    if (← buf.get total) = 10 then return (buf, total, input)
    else if read_sz = -1 then return (buf, -1, input)
    else if read_sz = 0 then return (buf, 0, input)
    else read_loop n (total + 1) buf input

def read_line (buf : CharArray cap) (length : Nat) (input : List UInt8) :
    Except Undefined (CharArray cap × Int × List UInt8) :=
  read_loop env length 0 buf input

/-! ## `handle_request` -/

/-- `" \t\r\n"`. -/
def delimiters : List UInt8 := [32, 9, 13, 10]

def GET : List UInt8 := chars "GET".toList

/-- What a line is to `handle_request`. -/
inductive HeaderLine
  | get (target : List UInt8)
  | other
  | blank
  deriving DecidableEq

/-- The tokens of a line. -/
def header_tokens (header : CharArray 8192) : Except Undefined HeaderLine := do
  let (header, next_tok, curr_tok) ← next_token header (some 0) delimiters
  match curr_tok with
  | none => return .blank
  | some tok =>
    if (← header.string tok) = GET then
      let (header, _, curr_tok) ← next_token header next_tok delimiters
      match curr_tok with
      | none => .error .null
      | some tok => return .get (← header.string tok)
    else return .other

/-- From the `LOG`, which prints the line, to the end of the round. -/
def header_line (header : CharArray 8192) : Except Undefined HeaderLine := do
  if env.debug then
    let _ ← header.string 0
    header_tokens header
  else header_tokens header

/-- Where a round of the loop over the lines leads. -/
inductive Round
  | again (path : CharArray 8192) (input : List UInt8)
  | done (path : CharArray 8192) (input : List UInt8)
  | closed (ret : Int) (input : List UInt8)

def header_round (path : CharArray 8192) (input : List UInt8) : Except Undefined Round := do
  let (header, read_sz, input) ← read_line env (.zero 8192) 8192 input
  if read_sz = -1 ∨ read_sz = 0 then return .closed read_sz input
  else
    match ← header_line env header with
    | .get target =>
      let path ← path.write 0 [46]
      return .again (← path.strcpy 1 target) input
    | .other => return .again path input
    | .blank => return .done path input

section Progress

variable {env} {buf buf' : CharArray cap} {path path' : CharArray 8192} {input rest : List UInt8} {total n : Nat}
  {ret : Int}

theorem read_loop_le (h : read_loop env n total buf input = .ok (buf', ret, rest)) : rest.length ≤ input.length := by
  induction n generalizing total buf input with
  | zero =>
    cases h
    exact Nat.le_refl _
  | succ n ih =>
    obtain ⟨⟨buf₁, read_sz, input₁⟩, hread, h⟩ := bind_ok h
    have hle : input₁.length ≤ input.length := by
      cases input with
      | nil =>
        cases hread
        exact Nat.le_refl _
      | cons b input =>
        obtain ⟨buf₂, -, hread⟩ := bind_ok hread
        cases hread
        exact Nat.le_succ _
    obtain ⟨b, -, h⟩ := bind_ok h
    split_ifs at h
    · cases h
      exact hle
    · cases h
      exact hle
    · cases h
      exact hle
    · exact (ih h).trans hle

/-- A line is read from the input. -/
theorem read_line_lt (h : read_line env buf (n + 1) input = .ok (buf', ret, rest)) (hret : ¬(ret = -1 ∨ ret = 0)) :
    rest.length < input.length := by
  obtain ⟨⟨buf₁, read_sz, input₁⟩, hread, hnext⟩ := bind_ok h
  obtain ⟨b, -, hnext⟩ := bind_ok hnext
  clear h
  cases input with
  | nil =>
    have hsz : read_sz = -1 ∨ read_sz = 0 := by
      cases hread
      cases env.read_fails <;> simp
    split_ifs at hnext with h10 h1 h0
    · cases hnext
      simp at hret
    · cases hnext
      simp at hret
    · cases hnext
      simp at hret
    · exact absurd hsz (not_or.mpr ⟨h1, h0⟩)
  | cons c input =>
    obtain ⟨buf₂, -, hread⟩ := bind_ok hread
    cases hread
    have hle : rest.length ≤ input₁.length := by
      split_ifs at hnext with h10 h1 h0
      · cases hnext
        exact Nat.le_refl _
      · exact absurd h1 (by decide)
      · exact absurd h0 (by decide)
      · exact read_loop_le hnext
    exact Nat.lt_succ_of_le hle

theorem header_round_lt (h : header_round env path input = .ok (.again path' rest)) : rest.length < input.length := by
  obtain ⟨⟨header, read_sz, input₁⟩, hread, h⟩ := bind_ok h
  dsimp only at h
  split_ifs at h with hret
  · cases h
  · have hlt := read_line_lt hread hret
    obtain ⟨line, -, h⟩ := bind_ok h
    cases line with
    | get target =>
      obtain ⟨path₁, -, h⟩ := bind_ok h
      obtain ⟨path₂, -, h⟩ := bind_ok h
      cases h
      exact hlt
    | other =>
      cases h
      exact hlt
    | blank => cases h

end Progress

/-- The loop over the lines: what `handle_request` returns at the end of the input, or the path. -/
def read_request (path : CharArray 8192) (input : List UInt8) :
    Except Undefined ((Int ⊕ CharArray 8192) × List UInt8) :=
  match _h : header_round env path input with
  | .error e => .error e
  | .ok (.again path rest) => read_request path rest
  | .ok (.done path rest) => .ok (.inr path, rest)
  | .ok (.closed ret rest) => .ok (.inl ret, rest)
termination_by input.length
decreasing_by exact header_round_lt _h

/-- From the header of the response on. -/
def send_file (path : List UInt8) (sb : Stat) : List Event :=
  [.write (.ok sb.st_size), .open_rdonly path, .sendfile path sb.st_size]

/-- `handle_request` behind the loop. -/
def respond (path : CharArray 8192) : Except Undefined (List Event) := do
  let file ← path.string 0
  match env.stat file with
  | none => return [.stat file, .write .not_found]
  | some sb =>
    if sb.isdir then
      let path ← path.strcpy (← path.strlen 0) (chars "/index.html".toList)
      let index ← path.string 0
      match env.stat index with
      | none => return [.stat file, .stat index, .write .not_found]
      | some sb => return .stat file :: .stat index :: send_file index sb
    else return .stat file :: send_file file sb

structure Outcome where
  ret : Int
  events : List Event
  /-- What is left to read. -/
  input : List UInt8
  deriving DecidableEq

def handle_request (input : List UInt8) : Except Undefined Outcome := do
  match ← read_request env (.zero 8192) input with
  | (.inl ret, rest) => return { ret := ret, events := [], input := rest }
  | (.inr path, rest) => return { ret := 0, events := ← respond env path, input := rest }

/-- The loop of the child, for at most `n` requests. -/
def child_loop : Nat → List UInt8 → Except Undefined (List Event)
  | 0, _ => return []
  | n + 1, input => do
    let o ← handle_request env input
    if o.ret = -1 ∨ o.ret = 0 then return o.events
    else return o.events ++ (← child_loop n o.input)

/-- The child that serves a connection. -/
def child (input : List UInt8) : Except Undefined (List Event) := child_loop env (input.length + 1) input

/-- What an event puts on the connection. -/
def sent : Event → List UInt8
  | .write m => (m.text env.timestamp).take ((env.write (m.text env.timestamp)).getD 0)
  | .sendfile path count => (((env.file path).getD []).take count).take (env.sendfile path count)
  | _ => []

end Cs326.Web
