import KeyPolicy.Policy.Basic
import KeyPolicy.PrefixIndex
import KeyPolicy.ResolvedSet

/-!
# Expanding signatures against policies

Expansion walks a policy from left to right and pairs every leaf with every signature that may
belong to it. Thresholds are not looked at: a threshold node contributes all of its children, since
the evaluator has to see every candidate.

The walk keeps count of the composite nodes around the current one and refuses a policy that nests
them more deeply than the limit. It also refuses the variants that no signature can provide. The
first offence on the way decides, and a refused call gives no pairs at all. Several policies are
walked one after the other, each from level zero, into one set.
-/

namespace KeyPolicy

/-! ## Why an expansion is refused -/

/-- Why policies cannot be expanded. -/
inductive ExpansionError where
  /-- A node is of a kind that no signature can provide. -/
  | unsupportedKind (kind : Kind)
  /-- Composite nodes are nested more deeply than the limit. -/
  | depthExceeded (limit : Nat)
  deriving DecidableEq, Repr

namespace ExpansionError

/-- The text shown to a user. -/
def message : ExpansionError → String
  | unsupportedKind kind => "Unsupported key type: " ++ kind.name
  | depthExceeded limit =>
    "Key depth exceeded: nesting is limited to " ++ limit.repr ++ " levels"

/-- The text written to a log, with every part of the error spelled out. -/
def diagnostic : ExpansionError → String
  | unsupportedKind kind => "UnsupportedKeyType \x7b kind: \"" ++ kind.name ++ "\" \x7d"
  | depthExceeded limit => "KeyDepthExceeded \x7b max_depth: " ++ limit.repr ++ " \x7d"

end ExpansionError

/-! ## The walk -/

/-- Where the signatures that may belong to a key are looked up. -/
abbrev Lookup := PublicKey → List SignaturePair

/-- Pair a key with each signature that the lookup gives for it. -/
def Lookup.resolve (lookup : Lookup) (k : PublicKey) : List ResolvedPair :=
  (lookup k).map fun p => k.resolve p.signature

mutual

/-- Add to `found` what a policy expands to, where `level` composite nodes are around it. -/
def Policy.expandInto (limit : Nat) (lookup : Lookup) (level : Nat) (found : ResolvedSet) :
    Policy → Except ExpansionError ResolvedSet
  | .key k => .ok (found.insertMany (lookup.resolve k))
  | .allOf cs =>
    if limit < level + 1 then .error (.depthExceeded limit)
    else Policy.expandAllInto limit lookup (level + 1) found cs
  | .threshold _ cs =>
    if limit < level + 1 then .error (.depthExceeded limit)
    else Policy.expandAllInto limit lookup (level + 1) found cs
  | .contract _ => .error (.unsupportedKind .contractId)
  | .delegatableContract _ => .error (.unsupportedKind .delegatableContractId)
  | .rsa3072 _ => .error (.unsupportedKind .rsa3072)
  | .ecdsaP384 _ => .error (.unsupportedKind .ecdsaP384)

/-- Add to `found` what several policies expand to, one after the other. -/
def Policy.expandAllInto (limit : Nat) (lookup : Lookup) (level : Nat) (found : ResolvedSet) :
    List Policy → Except ExpansionError ResolvedSet
  | [] => .ok found
  | c :: cs =>
    match c.expandInto limit lookup level found with
    | .error e => .error e
    | .ok found => Policy.expandAllInto limit lookup level found cs

end

/-! ## Expanders -/

/-- An expander, which is a limit on the nesting of composite nodes. -/
structure Expander where
  maxDepth : Nat
  deriving DecidableEq, Repr

namespace Expander

/-- Expand policies with the signatures that a lookup gives. -/
def run (e : Expander) (lookup : Lookup) (policies : List Policy) :
    Except ExpansionError ResolvedSet :=
  Policy.expandAllInto e.maxDepth lookup 0 ∅ policies

/-- Expand a signature map against several policies, trying every pair at every leaf. -/
def expandAll (e : Expander) (policies : List Policy) (m : SignatureMap) :
    Except ExpansionError ResolvedSet :=
  e.run m.candidates policies

def expand (e : Expander) (p : Policy) (m : SignatureMap) : Except ExpansionError ResolvedSet :=
  e.expandAll [p] m

def expandIndexed (e : Expander) (policies : List Policy) (ix : PrefixIndex) :
    Except ExpansionError ResolvedSet :=
  e.run ix.candidates policies

end Expander

/-! ## Signatures that name their key in full -/

/-- The pair that a signature resolves to by itself: its leading bytes are a whole key. -/
def SignaturePair.resolveFull? (p : SignaturePair) : Option ResolvedPair :=
  if p.isFullPrefix then
    match PublicKey.ofBytes p.algorithm p.keyPrefix with
    | .ok k => some (k.resolve p.signature)
    | .error _ => none
  else
    none

/-- The signatures of a map that name their key in full, resolved without any policy. Leading bytes
that are no admissible key are passed over. -/
def SignatureMap.expandFullPrefixes (m : SignatureMap) : ResolvedSet :=
  .ofList (m.pairs.filterMap (·.resolveFull?))

end KeyPolicy
