import KeyPolicy.Policy.Basic
import KeyPolicy.ResolvedSet

/-!
# Drafts

A draft is a key, a resolved pair or a policy as somebody submits it, with bytes that nobody has
checked. Checking a draft makes the real thing of it or gives the first error, from left to right.
-/

namespace KeyPolicy

/-- A key that is not checked yet. -/
structure KeyDraft where
  algorithm : Algorithm
  bytes : Bytes
  deriving DecidableEq

def KeyDraft.check (d : KeyDraft) : Except KeyError PublicKey :=
  PublicKey.ofBytes d.algorithm d.bytes

/-- A resolved pair whose key is not checked yet. -/
structure PairDraft where
  key : KeyDraft
  signature : Bytes
  deriving DecidableEq

def PairDraft.check (d : PairDraft) : Except KeyError ResolvedPair :=
  d.key.check.map (·.resolve d.signature)

/-- Check the keys of several pairs, from first to last. -/
def PairDraft.checkAll : List PairDraft → Except KeyError (List ResolvedPair)
  | [] => .ok []
  | d :: ds => do
    let r ← d.check
    let rs ← PairDraft.checkAll ds
    return r :: rs

/-- A policy whose keys are not checked yet. -/
inductive PolicyDraft where
  | key (key : KeyDraft)
  | allOf (children : List PolicyDraft)
  | threshold (threshold : UInt32) (children : List PolicyDraft)
  | contract (id : UInt64)
  | delegatableContract (id : UInt64)
  | rsa3072 (bytes : Bytes)
  | ecdsaP384 (bytes : Bytes)

namespace PolicyDraft

/-- A draft inside so many `allOf` nodes of one child each. -/
def nested : Nat → PolicyDraft → PolicyDraft
  | 0, d => d
  | n + 1, d => .allOf [nested n d]

mutual

/-- Check the keys of a policy, from left to right. -/
def check : PolicyDraft → Except KeyError Policy
  | key d => d.check.map .key
  | allOf ds => (checkAll ds).map .allOf
  | threshold m ds => (checkAll ds).map (.threshold m)
  | contract n => .ok (.contract n)
  | delegatableContract n => .ok (.delegatableContract n)
  | rsa3072 bs => .ok (.rsa3072 bs)
  | ecdsaP384 bs => .ok (.ecdsaP384 bs)

/-- Check the keys of several policies, from first to last. -/
def checkAll : List PolicyDraft → Except KeyError (List Policy)
  | [] => .ok []
  | d :: ds =>
    match d.check with
    | .error e => .error e
    | .ok p => (checkAll ds).map (p :: ·)

end

end PolicyDraft

end KeyPolicy
