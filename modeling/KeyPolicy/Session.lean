import KeyPolicy.Draft
import KeyPolicy.Expander

/-!
# Sessions with several sets

A session holds a fixed number of sets of resolved pairs, all empty at the start, and carries out
commands on them one after the other. A command names the set that it is about; some read a second
set, which may be the same one. A command that fails leaves every set as it was.
-/

namespace KeyPolicy

abbrev Session (n : Nat) := Vector ResolvedSet n

namespace Session

/-- What is to be done with a set. -/
inductive Action (n : Nat) where
  | clear
  /-- Add a pair; tells whether it was missing. -/
  | insert (pair : PairDraft)
  | contains (pair : PairDraft)
  /-- Tell whether some pair of the set has the key. -/
  | hasKey (key : KeyDraft)
  | isEmpty
  | extend (pairs : List PairDraft)
  /-- Replace the set by several pairs. -/
  | collect (pairs : List PairDraft)
  | extendFrom (other : Fin n)
  /-- Keep the pairs of one algorithm only. -/
  | keepAlgorithm (algorithm : Algorithm)
  | equals (other : Fin n)
  | publicKeys
  | items
  /-- Count the pairs whose key has an account address. -/
  | addressCount
  /-- Replace the set by the signatures that name their key in full. -/
  | expandFullPrefixes (signatures : SignatureMap)
  /-- Expand a policy and add the pairs. -/
  | expand (policy : PolicyDraft) (signatures : SignatureMap) (limit : Nat)

/-- An action and the set that it is about. -/
structure Command (n : Nat) where
  slot : Fin n
  action : Action n

/-- What an action tells. -/
inductive Answer where
  | done
  | flag (value : Bool)
  | count (value : Nat)
  | keys (keys : List PublicKey)
  | pairs (pairs : List ResolvedPair)

/-- Why a command fails. -/
inductive Failure where
  | key (error : KeyError)
  | expansion (error : ExpansionError)
  deriving DecidableEq, Repr

variable {n : Nat}

def start (n : Nat) : Session n := Vector.replicate n ∅

/-- What an action on a set tells and what becomes of the set. -/
def act (s : Session n) (set : ResolvedSet) : Action n → Except Failure (Answer × ResolvedSet)
  | .clear => .ok (.done, ∅)
  | .insert d => do
    let r ← d.check.mapError .key
    return (.flag (r ∉ set), set.insert r)
  | .contains d => do
    let r ← d.check.mapError .key
    return (.flag (r ∈ set), set)
  | .hasKey d => do
    let k ← d.check.mapError .key
    return (.flag (ResolvedSet.hasKey set k), set)
  | .isEmpty => .ok (.flag set.isEmpty, set)
  | .extend ds => do
    let rs ← (PairDraft.checkAll ds).mapError .key
    return (.done, set.insertMany rs)
  | .collect ds => do
    let rs ← (PairDraft.checkAll ds).mapError .key
    return (.done, .ofList rs)
  | .extendFrom other => .ok (.done, set ∪ s[other])
  | .keepAlgorithm a => .ok (.done, ResolvedSet.ofAlgorithm set a)
  | .equals other => .ok (.flag (set = s[other]), set)
  | .publicKeys => .ok (.keys (ResolvedSet.publicKeys set).toList, set)
  | .items => .ok (.pairs set.toList, set)
  | .addressCount => .ok (.count (ResolvedSet.addressCount set), set)
  | .expandFullPrefixes m => .ok (.done, m.expandFullPrefixes)
  | .expand d m limit => do
    let p ← d.check.mapError .key
    let found ← (Expander.expand ⟨limit⟩ p m).mapError .expansion
    return (.done, set ∪ found)

/-- Carry out a command: what it tells and the session behind it. -/
def step (s : Session n) (c : Command n) : Except Failure (Answer × Session n) := do
  let (answer, set) ← s.act s[c.slot] c.action
  return (answer, s.set c.slot set)

/-- The session behind a command, which is the same session if the command fails. -/
def next (s : Session n) (c : Command n) : Session n :=
  match s.step c with
  | .ok (_, t) => t
  | .error _ => s

def run (s : Session n) (cs : List (Command n)) : Session n := cs.foldl next s

/-- What a command tells, with the size that its set has afterwards. -/
def report (s : Session n) (c : Command n) : Except Failure (Answer × Nat) :=
  (s.step c).map fun (answer, t) => (answer, t[c.slot].size)

/-- What each of several commands tells, in order. -/
def reports : Session n → List (Command n) → List (Except Failure (Answer × Nat))
  | _, [] => []
  | s, c :: cs => s.report c :: reports (s.next c) cs

end Session

end KeyPolicy
