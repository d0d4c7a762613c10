import KeyPolicy.Policy.Leaves
import KeyPolicy.Signature

/-!
# Fixtures

Policies and signature maps to measure with. Whatever is random is an argument: fresh keys come
from a `KeySource`, the bytes of signatures and the draws of a shuffle from a `Randomness`.

A signature map for a policy goes round its leaves: pair `i` is for leaf `i` modulo the number of
leaves. Then the pairs are shuffled. A policy without leaves has no pair to offer, so only the empty
map can be made for it.
-/

namespace KeyPolicy.Fixture

/-- A supply of fresh keys of each algorithm. -/
abbrev KeySource := (a : Algorithm) → Nat → { k : PublicKey // k.algorithm = a }

/-- Everything that is random about a signature map. -/
structure Randomness where
  signature : Nat → Vector UInt8 64
  /-- A number between zero and `i`. -/
  draw : (i : Nat) → Fin (i + 1)

/-! ## Policies -/

/-- The shape of a policy to measure with. -/
inductive Shape where
  | single
  | threeOfThree
  | twoOfThree
  deriving DecidableEq, Repr

namespace Shape

def name : Shape → String
  | single => "key"
  | threeOfThree => "keyList"
  | twoOfThree => "thresholdKey"

def ofName? (s : String) : Option Shape :=
  if s = "key" then some single
  else if s = "keyList" then some threeOfThree
  else if s = "thresholdKey" then some twoOfThree
  else none

/-- The policy of a shape over fresh keys of one algorithm. -/
def policy (source : KeySource) (a : Algorithm) : Shape → Policy
  | single => .key (source a 0)
  | threeOfThree => .allOf [.key (source a 0), .key (source a 1), .key (source a 2)]
  | twoOfThree => .threshold 2 [.key (source a 0), .key (source a 1), .key (source a 2)]

end Shape

/-! ## Signature maps -/

/-- Shuffle the first `i + 1` elements: from the last to the second, exchange each with an element
drawn from those up to it. -/
def shuffleFrom {α : Type} (draw : (i : Nat) → Fin (i + 1)) : Nat → Array α → Array α
  | 0, xs => xs
  | i + 1, xs => shuffleFrom draw i (xs.swapIfInBounds (i + 1) (draw (i + 1)))

def shuffle {α : Type} (draw : (i : Nat) → Fin (i + 1)) (xs : List α) : List α :=
  (shuffleFrom draw (xs.length - 1) xs.toArray).toList

/-- Pair `i` of a signature map for the given leaves, before shuffling. -/
def pairFor (leaves : Array PublicKey) (prefixLength : Nat) (r : Randomness) (i : Nat) :
    Option SignaturePair :=
  leaves[i % leaves.size]?.map fun k =>
    ⟨k.algorithm, k.bytes.take prefixLength, (r.signature i).toList⟩

/-- A signature map with so many pairs for the leaves of a policy, with leading bytes of at most the
given length. There is none if pairs are wanted and the policy has no leaves. -/
def signatureMap? (p : Policy) (count prefixLength : Nat) (r : Randomness) :
    Option SignatureMap :=
  let leaves := (LeafCursor.start p).toList.toArray
  ((List.range count).mapM (pairFor leaves prefixLength r)).map fun pairs =>
    ⟨shuffle r.draw pairs⟩

/-- A signature map for keys that nobody holds, all with the same signature. -/
def noiseMap (source : KeySource) (a : Algorithm) (count prefixLength : Nat) : SignatureMap :=
  ⟨(List.range count).map fun i =>
    ⟨a, (source a i).val.bytes.take prefixLength, List.replicate 64 0xAB⟩⟩

end KeyPolicy.Fixture
