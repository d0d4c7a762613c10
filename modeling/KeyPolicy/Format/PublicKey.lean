import KeyPolicy.Format.Basic

/-!
# Algorithms and public keys in documents

An algorithm is written as its name. It may also be spelled as an object that has the name as its
only field, with `null` for the value.

A public key is a record of its algorithm and its bytes. It is checked as soon as its closing
bracket has been read, so an inadmissible key is reported before anything that is wrong behind it.
-/

namespace KeyPolicy.Format

open Json

def readAlgorithm : Reader Algorithm
  | _, .text name :: ts =>
    match Algorithm.ofName? name with
    | some a => .ok (a, ts)
    | none => .error .malformed
  | room, ts =>
    Reader.variant (fun name => (Algorithm.ofName? name).map fun a => Reader.null.map fun _ => a)
      room ts

def algorithm : Format Algorithm := ⟨readAlgorithm, fun a => .text a.name⟩

/-- The fields of a public key that were read so far. -/
structure PublicKeyFields where
  algorithm : Option Algorithm
  bytes : Option Bytes

def publicKeyFields : List (Reader.Field PublicKeyFields) := [
  .of "algorithm" (·.algorithm) (fun s a => { s with algorithm := some a }) algorithm.read,
  .of "public_key" (·.bytes) (fun s b => { s with bytes := some b }) bytes.read]

/-- The public key with the given fields, if both were given and fit each other. -/
def publicKeyOfFields (s : PublicKeyFields) : Except ReadError PublicKey := do
  let a ← Reader.need s.algorithm
  let b ← Reader.need s.bytes
  (PublicKey.ofBytes a b).mapError .key

def publicKey : Format PublicKey where
  read := (Reader.record publicKeyFields ⟨none, none⟩).check publicKeyOfFields
  write k := .record [
    ("algorithm", algorithm.write k.algorithm), ("public_key", bytes.write k.bytes)]

end KeyPolicy.Format
