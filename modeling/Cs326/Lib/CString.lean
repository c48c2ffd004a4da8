import Mathlib.Data.List.Basic

/-!
# C strings and the buffers that hold them

A `CString` is what a `char *` reads as: the bytes before the terminating zero. A `Buffer cap` is a `char[cap]` with a
string in it, so the string and its zero fit. `strcpy` into such a buffer is undefined when the string does not fit.
-/

namespace Cs326

/-- The bytes of a string before its terminating zero. -/
structure CString where
  bytes : List UInt8
  nonzero : 0 ∉ bytes
  deriving DecidableEq

namespace CString

def empty : CString := ⟨[], by simp⟩

/-- `strlen`. -/
def length (s : CString) : Nat := s.bytes.length

def append (s t : CString) : CString := ⟨s.bytes ++ t.bytes, fun h => (List.mem_append.mp h).elim s.nonzero t.nonzero⟩

def take (s : CString) (n : Nat) : CString := ⟨s.bytes.take n, fun h => s.nonzero (List.mem_of_mem_take h)⟩

/-- `s + n`. -/
def drop (s : CString) (n : Nat) : CString := ⟨s.bytes.drop n, fun h => s.nonzero (List.mem_of_mem_drop h)⟩

/-- `*s`, zero at the end of the string. -/
def head (s : CString) : UInt8 := s.bytes.headD 0

/-- `strspn`. -/
def strspn (s : CString) (set : List UInt8) : Nat := (s.bytes.takeWhile fun b => set.contains b).length

/-- `strcspn`. -/
def strcspn (s : CString) (set : List UInt8) : Nat := (s.bytes.takeWhile fun b => !set.contains b).length

/-- `strncmp(s, p, strlen(p)) == 0`. -/
def startsWith (s p : CString) : Bool := p.bytes.isPrefixOf s.bytes

theorem ext_bytes {s t : CString} (h : s.bytes = t.bytes) : s = t := by
  cases s
  cases t
  congr

@[simp] theorem length_take (s : CString) (n : Nat) : (s.take n).length = min n s.length := List.length_take

@[simp] theorem length_drop (s : CString) (n : Nat) : (s.drop n).length = s.length - n := List.length_drop

@[simp] theorem take_append_drop (s : CString) (n : Nat) : (s.take n).append (s.drop n) = s :=
  ext_bytes (List.take_append_drop n s.bytes)

end CString

/-- `isdigit`. -/
def isdigit (b : UInt8) : Bool := 48 ≤ b && b ≤ 57

/-- The number that the digits at the front of a string spell. -/
def CString.decimal (s : CString) : Nat :=
  (s.bytes.takeWhile isdigit).foldl (fun n b => 10 * n + (b.toNat - 48)) 0

/-- The bytes of the characters of a string literal. -/
def chars (cs : List Char) : List UInt8 := cs.map fun c => c.toNat.toUInt8

/-- A string literal. -/
def literal (cs : List Char) (h : 0 ∉ chars cs := by decide) : CString := ⟨chars cs, h⟩

/-- A `char[cap]` that holds a string. -/
structure Buffer (cap : Nat) where
  str : CString
  fits : str.length < cap
  deriving DecidableEq

/-- `strcpy`; `none`: it writes past the end of the buffer. -/
def strcpy {cap : Nat} (src : CString) : Option (Buffer cap) :=
  if h : src.length < cap then some ⟨src, h⟩ else none

variable {cap : Nat} {s : CString}

theorem strcpy_of_lt (h : s.length < cap) : strcpy s = some (⟨s, h⟩ : Buffer cap) := dif_pos h

end Cs326
