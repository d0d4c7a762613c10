import KeyPolicy.Expander
import KeyPolicy.Policy.Leaves

/-!
# Probes

A probe is an arbitrary policy with arbitrary signatures and a small depth limit. Running it checks
three properties on which everyone who expands signatures has to be able to rely: expanding twice
gives the same, expanding through an index gives the same, and the result has at most one pair for
each leaf and each signature.

The keys of a probe are given so that they are always admissible: 32 bytes for Ed25519, a parity and
32 bytes for secp256k1.
-/

namespace KeyPolicy

/-- A policy over keys that are admissible by construction. -/
inductive ProbeKey where
  | ed25519 (bytes : Vector UInt8 32)
  | ecdsa (odd : Bool) (x : Vector UInt8 32)
  | allOf (children : List ProbeKey)
  | threshold (threshold : UInt32) (children : List ProbeKey)
  | contract (id : UInt64)

namespace ProbeKey

/-- The bytes of a secp256k1 key with the given parity and first coordinate. -/
def compressed (odd : Bool) (x : Vector UInt8 32) : Vector UInt8 33 :=
  (#v[if odd then (0x03 : UInt8) else 0x02] ++ x).cast (by decide)

mutual

def toPolicy : ProbeKey → Except KeyError Policy
  | ed25519 bytes => .ok (.key (.ed25519 bytes))
  | ecdsa odd x => (PublicKey.ecdsaSecp256k1 (compressed odd x)).map .key
  | allOf cs => (toPolicies cs).map .allOf
  | threshold m cs => (toPolicies cs).map (.threshold m)
  | contract n => .ok (.contract n)

def toPolicies : List ProbeKey → Except KeyError (List Policy)
  | [] => .ok []
  | c :: cs =>
    match c.toPolicy with
    | .error e => .error e
    | .ok p => (toPolicies cs).map (p :: ·)

end

end ProbeKey

structure ProbePair where
  isEcdsa : Bool
  keyPrefix : Bytes
  signature : Bytes

def ProbePair.toPair (p : ProbePair) : SignaturePair :=
  ⟨if p.isEcdsa then .ecdsaSecp256k1 else .ed25519, p.keyPrefix, p.signature⟩

/-- A policy, signatures and a depth limit to try. -/
structure Probe where
  maxDepth : UInt8
  key : ProbeKey
  pairs : List ProbePair

namespace Probe

/-- What a probe may find. -/
inductive Finding where
  /-- A key of the probe is not admissible. -/
  | badKey (error : KeyError)
  /-- Expanding twice gives different results. -/
  | notRepeatable
  /-- Expanding through an index gives a different result. -/
  | indexDisagrees
  /-- There are more pairs than leaves times signatures. -/
  | tooManyPairs

def signatures (p : Probe) : SignatureMap := ⟨p.pairs.map (·.toPair)⟩

/-- The expander of a probe, which allows at most seven levels. -/
def expander (p : Probe) : Expander := ⟨(p.maxDepth % 8).toNat⟩

/-- Whether two expansions have the same outcome. -/
def sameOutcome : (a b : Except ExpansionError ResolvedSet) → Bool
  | .ok s, .ok t => s = t
  | .error d, .error e => d = e
  | _, _ => false

/-- Whether a set has at most one pair for each leaf and each signature; a failed expansion has no
pairs to count. -/
def withinBound (policy : Policy) (m : SignatureMap) : Except ExpansionError ResolvedSet → Bool
  | .ok found => decide (found.size ≤ policy.leafCount * m.size)
  | .error _ => true

/-- Run a probe: its policy and the outcome of expanding it, or what was found to be wrong. -/
def run (p : Probe) : Except Finding (Policy × Except ExpansionError ResolvedSet) := do
  let policy ← p.key.toPolicy.mapError .badKey
  let outcome := p.expander.expand policy p.signatures
  let again := p.expander.expand policy p.signatures
  let indexed := p.expander.expandIndexed [policy] (.build p.signatures)
  if !sameOutcome outcome again then .error .notRepeatable
  else if !sameOutcome outcome indexed then .error .indexDisagrees
  else if !withinBound policy p.signatures outcome then .error .tooManyPairs
  else .ok (policy, outcome)

end Probe

end KeyPolicy
