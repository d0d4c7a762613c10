import KeyPolicy.Address
import KeyPolicy.OrderedSet
import KeyPolicy.Signature

/-!
# Signatures resolved to whole keys

A resolved pair is a signature together with the whole public key that may have made it, and with
that key's account address, worked out once when the pair is made. The address follows from the
key, so two pairs with the same key and the same signature are the same pair, and comparing pairs
never looks at the address.

Resolved pairs are collected into sets, listed by algorithm, then by key, then by signature.
-/

namespace KeyPolicy

/-- A signature and the whole key that may have made it. -/
structure ResolvedPair where
  key : PublicKey
  signature : Bytes
  /-- The account address of the key, if it has one. -/
  address : Option Address
  address_eq : address = key.address?

def PublicKey.resolve (k : PublicKey) (signature : Bytes) : ResolvedPair :=
  ⟨k, signature, k.address?, rfl⟩

namespace ResolvedPair

@[ext] theorem ext {r s : ResolvedPair} (hk : r.key = s.key) (hs : r.signature = s.signature) :
    r = s := by
  cases r with
  | mk k sig a ha =>
    cases s with
    | mk l tig b hb =>
      cases hk; cases hs; cases ha; cases hb; rfl

@[simp] theorem resolve_inj {k l : PublicKey} {s t : Bytes} :
    k.resolve s = l.resolve t ↔ k = l ∧ s = t := by
  simp +contextual [PublicKey.resolve]

/-- Pairs are compared by key and signature. -/
instance : DecidableEq ResolvedPair := fun r s =>
  decidable_of_iff (r.key = s.key ∧ r.signature = s.signature)
    ⟨fun h => ext h.1 h.2, fun h => h ▸ ⟨rfl, rfl⟩⟩

instance : Ord ResolvedPair := ⟨compareLex (compareOn key) (compareOn signature)⟩

instance : Std.TransOrd ResolvedPair :=
  inferInstanceAs (Std.TransCmp (compareLex (compareOn key) (compareOn signature)))

instance : Std.LawfulEqOrd ResolvedPair where
  eq_of_compare {r s} h := by
    have h' : (compare r.key s.key).then (compare r.signature s.signature) = .eq := h
    rw [Ordering.then_eq_eq] at h'
    exact ext (Std.LawfulEqOrd.eq_of_compare h'.1) (Std.LawfulEqOrd.eq_of_compare h'.2)

end ResolvedPair

abbrev ResolvedSet := OrderedSet ResolvedPair

namespace ResolvedSet

/-- The distinct keys that some signature was resolved to. -/
def publicKeys (s : ResolvedSet) : OrderedSet PublicKey :=
  .ofList (s.toList.map (·.key))

/-- Whether some signature was resolved to exactly this key. -/
def hasKey (s : ResolvedSet) (k : PublicKey) : Bool := s.toList.any (·.key = k)

/-- The number of pairs whose key has an account address. -/
def addressCount (s : ResolvedSet) : Nat := s.toList.countP (·.address.isSome)

def ofAlgorithm (s : ResolvedSet) (a : Algorithm) : ResolvedSet :=
  OrderedSet.filter (·.key.algorithm = a) s

theorem hasKey_iff {s : ResolvedSet} {k : PublicKey} :
    s.hasKey k = true ↔ ∃ r ∈ s, r.key = k := by
  simp [hasKey]

theorem mem_publicKeys {s : ResolvedSet} {k : PublicKey} :
    k ∈ s.publicKeys ↔ ∃ r ∈ s, r.key = k := by
  simp [publicKeys]

end ResolvedSet

end KeyPolicy
