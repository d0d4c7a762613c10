import KeyPolicy.Algorithm
import KeyPolicy.Bytes

/-!
# Public keys

A public key is an algorithm and a byte string that fits it: the algorithm's key length and, for a
compressed secp256k1 key, the leading byte `02` or `03`. `PublicKey` carries the proof, so a key
that does not fit cannot be built; `PublicKey.ofBytes` is the one way in from unchecked bytes and
says why it refuses. The length is checked before the leading byte.

Whether a secp256k1 key names a point of the curve is not part of the check.
-/

namespace KeyPolicy

/-! ## Why a key is refused -/

/-- Why bytes are not a public key. -/
inductive KeyError where
  /-- The byte string is not as long as the algorithm's keys are. -/
  | wrongLength (algorithm : Algorithm) (expected actual : Nat)
  /-- A secp256k1 key of the right length starts with the given byte. -/
  | wrongTag (tag : UInt8)
  deriving DecidableEq, Repr

namespace KeyError

/-- The text shown to a user. -/
def message : KeyError → String
  | wrongLength a expected actual =>
    "Invalid " ++ a.label ++ " key length: expected " ++ expected.repr ++ ", got " ++ actual.repr
  | wrongTag tag => "Invalid compressed ECDSA key tag: 0x" ++ String.ofList (hexDigits tag)

/-- The text written to a log, with every part of the error spelled out. -/
def diagnostic : KeyError → String
  | wrongLength a expected actual =>
    "InvalidKeyLength \x7b algorithm: " ++ a.name ++ ", expected: " ++ expected.repr ++
      ", actual: " ++ actual.repr ++ " \x7d"
  | wrongTag tag => "InvalidEcdsaPrefix(" ++ tag.toNat.repr ++ ")"

end KeyError

/-! ## Keys that fit their algorithm -/

/-- The bytes fit the algorithm: they have its key length and, for secp256k1, a compressed tag. -/
def Admissible (a : Algorithm) (bytes : Bytes) : Prop :=
  bytes.length = a.keyLength ∧
    (a = .ecdsaSecp256k1 → bytes.head? = some 2 ∨ bytes.head? = some 3)

instance (a : Algorithm) (bytes : Bytes) : Decidable (Admissible a bytes) := by
  unfold Admissible; infer_instance

/-- A public key: bytes that fit their algorithm. -/
structure PublicKey where
  algorithm : Algorithm
  bytes : Bytes
  admissible : Admissible algorithm bytes
  deriving DecidableEq

namespace PublicKey

/-- What is wrong with inadmissible bytes. A wrong length is reported whatever the tag is. -/
def rejection (a : Algorithm) (bytes : Bytes) : KeyError :=
  if bytes.length = a.keyLength then .wrongTag (bytes.headD 0)
  else .wrongLength a a.keyLength bytes.length

/-- The public key with the given bytes, if they fit the algorithm. -/
def ofBytes (a : Algorithm) (bytes : Bytes) : Except KeyError PublicKey :=
  if h : Admissible a bytes then .ok ⟨a, bytes, h⟩ else .error (rejection a bytes)

/-- The Ed25519 key with the given 32 bytes; any 32 bytes will do. -/
def ed25519 (bytes : Vector UInt8 32) : PublicKey :=
  ⟨.ed25519, bytes.toList, by simp [Admissible, Algorithm.keyLength]⟩

/-- The secp256k1 key with the given 33 bytes, if the tag is right. -/
def ecdsaSecp256k1 (bytes : Vector UInt8 33) : Except KeyError PublicKey :=
  ofBytes .ecdsaSecp256k1 bytes.toList

@[ext] theorem ext {k l : PublicKey} (ha : k.algorithm = l.algorithm) (hb : k.bytes = l.bytes) :
    k = l := by
  cases k; cases l; cases ha; cases hb; rfl

@[simp] theorem ofBytes_self (k : PublicKey) : ofBytes k.algorithm k.bytes = .ok k :=
  dif_pos k.admissible

theorem ofBytes_eq_ok_iff {a : Algorithm} {bytes : Bytes} {k : PublicKey} :
    ofBytes a bytes = .ok k ↔ k.algorithm = a ∧ k.bytes = bytes := by
  constructor
  · intro h
    unfold ofBytes at h
    split at h
    · cases h; exact ⟨rfl, rfl⟩
    · cases h
  · rintro ⟨rfl, rfl⟩
    exact ofBytes_self k

theorem ofBytes_eq_error_iff {a : Algorithm} {bytes : Bytes} {e : KeyError} :
    ofBytes a bytes = .error e ↔ ¬ Admissible a bytes ∧ e = rejection a bytes := by
  unfold ofBytes
  split <;> simp_all [eq_comm]

/-! ## Order -/

/-- Keys are listed by algorithm, and within an algorithm by their bytes. -/
instance : Ord PublicKey := ⟨compareLex (compareOn algorithm) (compareOn bytes)⟩

instance : Std.TransOrd PublicKey :=
  inferInstanceAs (Std.TransCmp (compareLex (compareOn algorithm) (compareOn bytes)))

instance : Std.LawfulEqOrd PublicKey where
  eq_of_compare {k l} h := by
    have h' : (compare k.algorithm l.algorithm).then (compare k.bytes l.bytes) = .eq := h
    rw [Ordering.then_eq_eq] at h'
    exact ext (Std.LawfulEqCmp.eq_of_compare h'.1) (Std.LawfulEqCmp.eq_of_compare h'.2)

end PublicKey

end KeyPolicy
