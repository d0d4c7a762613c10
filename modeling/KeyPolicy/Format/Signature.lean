import KeyPolicy.Format.PublicKey
import KeyPolicy.Signature

/-!
# Signature pairs and maps in documents

Both are records. All fields are needed, and the leading bytes of a pair may have any length.
-/

namespace KeyPolicy.Format

open Json

/-- The fields of a signature pair that were read so far. -/
structure SignaturePairFields where
  algorithm : Option Algorithm
  keyPrefix : Option Bytes
  signature : Option Bytes

def signaturePairFields : List (Reader.Field SignaturePairFields) := [
  .of "algorithm" (·.algorithm) (fun s a => { s with algorithm := some a }) algorithm.read,
  .of "prefix" (·.keyPrefix) (fun s b => { s with keyPrefix := some b }) bytes.read,
  .of "signature" (·.signature) (fun s b => { s with signature := some b }) bytes.read]

/-- The signature pair with the given fields, if all were given. -/
def signaturePairOfFields (s : SignaturePairFields) : Except ReadError SignaturePair := do
  let a ← Reader.need s.algorithm
  let start ← Reader.need s.keyPrefix
  let sig ← Reader.need s.signature
  return ⟨a, start, sig⟩

def signaturePair : Format SignaturePair where
  read := (Reader.record signaturePairFields ⟨none, none, none⟩).check signaturePairOfFields
  write p := .record [
    ("algorithm", algorithm.write p.algorithm),
    ("prefix", bytes.write p.keyPrefix),
    ("signature", bytes.write p.signature)]

def signatureMapFields : List (Reader.Field (Option (List SignaturePair))) :=
  [.of "pairs" id (fun _ ps => some ps) signaturePair.list.read]

def signatureMap : Format SignatureMap where
  read := ((Reader.record signatureMapFields none).check Reader.need).map .mk
  write m := .record [("pairs", signaturePair.list.write m.pairs)]

end KeyPolicy.Format
