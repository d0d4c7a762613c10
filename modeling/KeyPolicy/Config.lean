import KeyPolicy.Format.Basic

/-!
# Configuration

Two numbers: how deeply composite nodes may be nested, and from how many signatures on a map is
searched through an index. The first decides which transactions are refused, so everyone who has to
agree on that has to use the same value; the second is a matter of speed only.

In a document every setting may be left out and then has its default value, also at the end of the
array form.
-/

namespace KeyPolicy

open Json

/-- The settings of the service. -/
structure Config where
  /-- How deeply composite nodes may be nested. -/
  maxKeyDepth : UInt64
  /-- The least number of signatures for which a map is searched through an index. -/
  prefixIndexMinPairs : UInt64
  deriving DecidableEq, Repr

namespace Config

/-- The settings that hold where nothing else is said. -/
def default : Config := ⟨5, 32⟩

instance : Inhabited Config := ⟨default⟩

/-- The settings that a document gives. -/
structure Fields where
  maxKeyDepth : Option UInt64
  prefixIndexMinPairs : Option UInt64

/-- The settings, in declared order. -/
def fields : List (Reader.Field Fields) := [
  .of "max_key_depth" (·.maxKeyDepth) (fun s n => { s with maxKeyDepth := some n })
    Format.uint64.read,
  .of "prefix_index_min_pairs" (·.prefixIndexMinPairs)
    (fun s n => { s with prefixIndexMinPairs := some n }) Format.uint64.read]

/-- The given settings, and the default for the others. -/
def ofFields (s : Fields) : Config :=
  ⟨s.maxKeyDepth.getD default.maxKeyDepth, s.prefixIndexMinPairs.getD default.prefixIndexMinPairs⟩

def format : Format Config where
  read := (Reader.record fields ⟨none, none⟩).map ofFields
  write c := .record [
    ("max_key_depth", Format.uint64.write c.maxKeyDepth),
    ("prefix_index_min_pairs", Format.uint64.write c.prefixIndexMinPairs)]

end Config

end KeyPolicy
