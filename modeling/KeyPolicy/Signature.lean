import KeyPolicy.PublicKey

/-!
# Signatures and whom they may belong to

A signature comes with the algorithm that made it and with leading bytes of the key that is said
to have made it. These bytes may be missing, partial, or the whole key. A signature map lists the
signatures of one transaction in the order in which they were supplied.

A pair matches a key when the algorithms agree and the pair's leading bytes are leading bytes of
the key. Empty leading bytes match every key of the algorithm, and leading bytes longer than the
key match none. That several keys may match is settled later, by verifying the signature.
-/

namespace KeyPolicy

/-- A signature with the algorithm and the leading bytes of the key said to have made it. -/
structure SignaturePair where
  algorithm : Algorithm
  /-- Leading bytes of the signing key. -/
  keyPrefix : Bytes
  signature : Bytes
  deriving DecidableEq

namespace SignaturePair

/-- Whether the leading bytes are as long as a whole key. -/
def isFullPrefix (p : SignaturePair) : Bool := p.keyPrefix.length == p.algorithm.keyLength

/-- Whether the pair may belong to the key. -/
def matchesKey (p : SignaturePair) (k : PublicKey) : Bool :=
  p.algorithm == k.algorithm && p.keyPrefix.isPrefixOf k.bytes

theorem matchesKey_iff {p : SignaturePair} {k : PublicKey} :
    p.matchesKey k = true ↔ p.algorithm = k.algorithm ∧ p.keyPrefix <+: k.bytes := by
  simp [matchesKey]

end SignaturePair

/-- The signatures of one transaction, in the order in which they were supplied. -/
structure SignatureMap where
  pairs : List SignaturePair
  deriving DecidableEq

namespace SignatureMap

def empty : SignatureMap := ⟨[]⟩

instance : EmptyCollection SignatureMap := ⟨empty⟩

def size (m : SignatureMap) : Nat := m.pairs.length

def isEmpty (m : SignatureMap) : Bool := m.pairs.isEmpty

/-- The pairs that may belong to a key, found by trying each. -/
def candidates (m : SignatureMap) (k : PublicKey) : List SignaturePair :=
  m.pairs.filter (·.matchesKey k)

theorem mem_candidates {m : SignatureMap} {k : PublicKey} {p : SignaturePair} :
    p ∈ m.candidates k ↔ p ∈ m.pairs ∧ p.algorithm = k.algorithm ∧ p.keyPrefix <+: k.bytes := by
  simp [candidates, SignaturePair.matchesKey_iff]

end SignatureMap

end KeyPolicy
