import KeyPolicy.Config
import KeyPolicy.Event

/-!
# The authorization service

The service expands signatures against policies as its configuration says, reports what it did, and
decides whether a policy is authorized. What it needs from its surroundings are three things: a
verifier of signatures, an evaluator of policies, and a place to report events. They may act in any
monad, so the order and the number of calls is part of what the service does.

Authorization has four steps: expand the policy, verify each pair of the expansion once, ask the
evaluator once about the pairs that passed, report. If the expansion fails, its error is the answer
and neither the verifier nor the evaluator is called.
-/

namespace KeyPolicy

/-- What the service needs from its surroundings. -/
structure Surroundings (m : Type → Type) where
  /-- Whether the pair's key made the pair's signature for a digest. -/
  verify : ResolvedPair → (digest : Bytes) → m Bool
  /-- Whether the verified pairs satisfy a policy. -/
  evaluate : Policy → (verified : ResolvedSet) → m Bool
  emit : Event → m Unit

/-- The policies that one transaction has to satisfy, and the signatures that it carries. -/
structure ExpansionRequest where
  policies : List Policy
  signatures : SignatureMap

/-- The service, which has a configuration and nothing else. -/
structure Service where
  config : Config

namespace Service

def default : Service := ⟨.default⟩

instance : Inhabited Service := ⟨default⟩

def expander (s : Service) : Expander := ⟨s.config.maxKeyDepth.toNat⟩

/-- Expand policies, through an index if the map is large enough for one. -/
def expansion (s : Service) (policies : List Policy) (m : SignatureMap) :
    Except ExpansionError ResolvedSet :=
  if s.config.prefixIndexMinPairs.toNat ≤ m.size then
    s.expander.expandIndexed policies (.build m)
  else
    s.expander.expandAll policies m

variable {m : Type → Type} [Monad m]

/-- Expand several policies of one transaction and report the outcome. -/
def expandKeys (s : Service) (env : Surroundings m) (policies : List Policy) (sigs : SignatureMap) :
    m (Except ExpansionError ResolvedSet) := do
  let outcome := s.expansion policies sigs
  env.emit (.ofExpansion policies sigs outcome)
  return outcome

def expandKey (s : Service) (env : Surroundings m) (p : Policy) (sigs : SignatureMap) :
    m (Except ExpansionError ResolvedSet) :=
  s.expandKeys env [p] sigs

/-- Resolve the signatures that name their key in full and report how many there are. -/
def expandFullPrefixes (_ : Service) (env : Surroundings m) (sigs : SignatureMap) :
    m ResolvedSet := do
  let found := sigs.expandFullPrefixes
  env.emit (.fullPrefixesExpanded sigs.size found.size)
  return found

/-- Expand many transactions, each by itself; the outcomes are in the order of the requests. No
request depends on another, and nothing is promised on the order in which the reports of different
requests are emitted. It is a choice made here to take one request after the other. -/
def expandBatch (s : Service) (env : Surroundings m) :
    List ExpansionRequest → m (List (Except ExpansionError ResolvedSet))
  | [] => return []
  | r :: rs => do
    let outcome ← s.expandKeys env r.policies r.signatures
    let outcomes ← s.expandBatch env rs
    return outcome :: outcomes

/-- The pairs that the verifier accepts, each asked about once, in order. -/
def acceptedPairs (env : Surroundings m) (digest : Bytes) :
    List ResolvedPair → m (List ResolvedPair)
  | [] => return []
  | r :: rs => do
    let accepted ← env.verify r digest
    let others ← acceptedPairs env digest rs
    return if accepted then r :: others else others

/-- Decide whether the signatures authorize a policy for a digest. -/
def authorize (s : Service) (env : Surroundings m) (p : Policy) (sigs : SignatureMap)
    (digest : Bytes) : m (Except ExpansionError Bool) := do
  match ← s.expandKey env p sigs with
  | .error e => return .error e
  | .ok found =>
    let verified := OrderedSet.ofList (← acceptedPairs env digest found.toList)
    let authorized ← env.evaluate p verified
    env.emit (.authorizationEvaluated found.size verified.size authorized)
    return .ok authorized

end Service

end KeyPolicy
