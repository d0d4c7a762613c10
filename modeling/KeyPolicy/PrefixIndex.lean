import KeyPolicy.Signature
import KeyPolicy.OrderedSet
import Std.Data.HashMap

/-!
# An index by leading bytes

A map with many signatures is searched through an index. For each algorithm, the positions of the
pairs are kept in buckets, one for each distinct string of leading bytes, and the distinct lengths
of these strings are kept in ascending order. To find the pairs that match a key, one looks up the
key's own first `n` bytes for each stored length `n` that is not longer than the key. So the cost
depends on the number of distinct lengths, not on the number of pairs.

Each position is put into the bucket of its pair's leading bytes and into no other, and positions
are added from first to last, so the positions in a bucket ascend.
-/

namespace KeyPolicy

/-- The positions of one algorithm's pairs, by leading bytes. -/
structure PrefixBuckets where
  /-- The lengths of the leading bytes that have a bucket. -/
  lengths : OrderedSet Nat
  /-- The positions of the pairs with the given leading bytes. -/
  positions : Std.HashMap Bytes (Array Nat)

namespace PrefixBuckets

def empty : PrefixBuckets := ⟨∅, ∅⟩

/-- The positions in the bucket of the given leading bytes, none if there is no such bucket. -/
def bucket (b : PrefixBuckets) (start : Bytes) : Array Nat := b.positions.getD start #[]

/-- Put a position into the bucket of its leading bytes. -/
def add (b : PrefixBuckets) (start : Bytes) (position : Nat) : PrefixBuckets :=
  ⟨b.lengths.insert start.length, b.positions.insert start ((b.bucket start).push position)⟩

theorem bucket_empty (start : Bytes) : empty.bucket start = #[] := by
  simp [bucket, empty]

theorem bucket_add (b : PrefixBuckets) (start other : Bytes) (position : Nat) :
    (b.add start position).bucket other =
      if start = other then (b.bucket other).push position else b.bucket other := by
  simp only [bucket, add, Std.HashMap.getD_insert, beq_iff_eq]
  split
  · next h => rw [h]
  · rfl

/-- The positions of the pairs whose leading bytes are leading bytes of `bytes`. -/
def probe (b : PrefixBuckets) (bytes : Bytes) : List Nat :=
  (b.lengths.toList.takeWhile (· ≤ bytes.length)).flatMap fun n =>
    (b.bucket (bytes.take n)).toList

end PrefixBuckets

/-- A signature map prepared for searching. -/
structure PrefixIndex where
  pairs : Array SignaturePair
  ed25519 : PrefixBuckets
  ecdsaSecp256k1 : PrefixBuckets

namespace PrefixIndex

def buckets (ix : PrefixIndex) : Algorithm → PrefixBuckets
  | .ed25519 => ix.ed25519
  | .ecdsaSecp256k1 => ix.ecdsaSecp256k1

def empty : PrefixIndex := ⟨#[], .empty, .empty⟩

/-- The index with one more pair, at the next free position. -/
def push (ix : PrefixIndex) (p : SignaturePair) : PrefixIndex :=
  let position := ix.pairs.size
  match p.algorithm with
  | .ed25519 =>
    { ix with pairs := ix.pairs.push p, ed25519 := ix.ed25519.add p.keyPrefix position }
  | .ecdsaSecp256k1 =>
    { ix with
      pairs := ix.pairs.push p, ecdsaSecp256k1 := ix.ecdsaSecp256k1.add p.keyPrefix position }

/-- The index of a signature map: its pairs are added from first to last. -/
def build (m : SignatureMap) : PrefixIndex := m.pairs.foldl push empty

theorem pairs_push (ix : PrefixIndex) (p : SignaturePair) :
    (ix.push p).pairs = ix.pairs.push p := by
  unfold push; split <;> rfl

theorem buckets_push (ix : PrefixIndex) (p : SignaturePair) (a : Algorithm) :
    (ix.push p).buckets a =
      if p.algorithm = a then (ix.buckets a).add p.keyPrefix ix.pairs.size else ix.buckets a := by
  unfold push
  split <;> next h => cases a <;> simp [h, buckets]

def size (ix : PrefixIndex) : Nat := ix.pairs.size

def isEmpty (ix : PrefixIndex) : Bool := ix.pairs.isEmpty

/-- The positions of the pairs that may belong to a key, in no particular order. -/
def candidatePositions (ix : PrefixIndex) (k : PublicKey) : List Nat :=
  (ix.buckets k.algorithm).probe k.bytes

/-- The pairs that may belong to a key, in no particular order. -/
def candidates (ix : PrefixIndex) (k : PublicKey) : List SignaturePair :=
  (ix.candidatePositions k).filterMap (ix.pairs[·]?)

end PrefixIndex

end KeyPolicy
