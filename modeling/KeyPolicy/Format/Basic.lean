import KeyPolicy.Json.Reader
import KeyPolicy.Json.Writer

/-!
# Document formats

A format says how the values of a type are read and written as JSON. What is written is compact and
has one form for each value; what is read may be spelled in many ways.
-/

namespace KeyPolicy

open Json

/-- How values of a type are read and written. -/
structure Format (α : Type) where
  read : Reader α
  write : α → Writer

namespace Format

variable {α : Type}

/-- The compact text of a value. -/
def encode (f : Format α) (a : α) : String := (f.write a).toText

/-- The value that a text spells. -/
def decode (f : Format α) (text : String) : Except ReadError α := f.read.parse text.toList

def byte : Format UInt8 :=
  ⟨(Reader.natural UInt8.size).map UInt8.ofNat, fun b => .natural b.toNat⟩

def uint32 : Format UInt32 :=
  ⟨(Reader.natural UInt32.size).map UInt32.ofNat, fun n => .natural n.toNat⟩

def uint64 : Format UInt64 :=
  ⟨(Reader.natural UInt64.size).map UInt64.ofNat, fun n => .natural n.toNat⟩

def list (f : Format α) : Format (List α) :=
  ⟨.list f.read, fun as => .list (as.map f.write)⟩

def bytes : Format Bytes := byte.list

end Format

end KeyPolicy
