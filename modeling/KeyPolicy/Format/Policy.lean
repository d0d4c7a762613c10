import KeyPolicy.Format.PublicKey
import KeyPolicy.Policy.Basic

/-!
# Policies in documents

A policy is an object with one field, named for the variant. The children of a composite node stand
in a record of their own, so a level of an `allOf` node takes three brackets and a level of a
threshold node takes four. Since every policy opens at least one bracket, policies in a text cannot
be nested more deeply than brackets can, and that bounds the recursion of the reader.
-/

namespace KeyPolicy.Format

open Json

/-! ## Reading -/

def childrenFields (child : Reader Policy) : List (Reader.Field (Option (List Policy))) :=
  [.of "keys" id (fun _ cs => some cs) (Reader.list child)]

def readChildren (child : Reader Policy) : Reader (List Policy) :=
  (Reader.record (childrenFields child) none).check Reader.need

/-- The fields of a threshold that were read so far. -/
structure ThresholdFields where
  threshold : Option UInt32
  children : Option (List Policy)

def thresholdFields (child : Reader Policy) : List (Reader.Field ThresholdFields) := [
  .of "threshold" (·.threshold) (fun s m => { s with threshold := some m }) uint32.read,
  .of "keys" (·.children) (fun s cs => { s with children := some cs }) (readChildren child)]

/-- The threshold with the given fields, if both were given. -/
def thresholdOfFields (s : ThresholdFields) : Except ReadError (UInt32 × List Policy) := do
  let m ← Reader.need s.threshold
  let cs ← Reader.need s.children
  return (m, cs)

def readThreshold (child : Reader Policy) : Reader (UInt32 × List Policy) :=
  (Reader.record (thresholdFields child) ⟨none, none⟩).check thresholdOfFields

/-- How the contents of a variant are read, given how children are. -/
def readVariant (child : Reader Policy) (name : String) : Option (Reader Policy) :=
  if name = "Simple" then some (publicKey.read.map .key)
  else if name = "KeyList" then some ((readChildren child).map .allOf)
  else if name = "Threshold" then
    some ((readThreshold child).map fun (m, cs) => .threshold m cs)
  else if name = "ContractId" then some (uint64.read.map .contract)
  else if name = "DelegatableContractId" then some (uint64.read.map .delegatableContract)
  else if name = "Rsa3072" then some (bytes.read.map .rsa3072)
  else if name = "EcdsaP384" then some (bytes.read.map .ecdsaP384)
  else none

/-- Read a policy whose nodes are nested at most `levels` deep. -/
def readPolicyWithin : (levels : Nat) → Reader Policy
  | 0, _, _ => .error .malformed
  | levels + 1, room, ts => Reader.variant (readVariant (readPolicyWithin levels)) room ts

def readPolicy : Reader Policy := readPolicyWithin maxNesting

/-! ## Writing -/

/-- Write a list of policies, given how each is written. -/
def writeChildren (children : List Writer) : Writer := .record [("keys", .list children)]

/-- Write a threshold, given how each of its children is written. -/
def writeThreshold (m : UInt32) (children : List Writer) : Writer :=
  .record [("threshold", uint32.write m), ("keys", writeChildren children)]

mutual

def writePolicy : Policy → Writer
  | .key k => .variant "Simple" (publicKey.write k)
  | .allOf cs => .variant "KeyList" (writeChildren (writePolicies cs))
  | .threshold m cs => .variant "Threshold" (writeThreshold m (writePolicies cs))
  | .contract n => .variant "ContractId" (uint64.write n)
  | .delegatableContract n => .variant "DelegatableContractId" (uint64.write n)
  | .rsa3072 bs => .variant "Rsa3072" (bytes.write bs)
  | .ecdsaP384 bs => .variant "EcdsaP384" (bytes.write bs)

def writePolicies : List Policy → List Writer
  | [] => []
  | c :: cs => writePolicy c :: writePolicies cs

end

/-! ## Formats -/

def policy : Format Policy := ⟨readPolicy, writePolicy⟩

/-- The children of an `allOf` node, as a record. -/
def children : Format (List Policy) where
  read := readChildren readPolicy
  write cs := writeChildren (writePolicies cs)

/-- The number and the children of a threshold node, as a record. -/
def threshold : Format (UInt32 × List Policy) where
  read := readThreshold readPolicy
  write t := writeThreshold t.1 (writePolicies t.2)

end KeyPolicy.Format
