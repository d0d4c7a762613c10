import Mathlib.Data.List.Forall2
import KeyPolicy.Probe
import KeyPolicy.Proofs.Size

/-!
# Every probe passes

A probe is an arbitrary policy over keys that are admissible by construction, with arbitrary
signatures. Running it may find a key that is refused after all, two expansions that differ, or too
many pairs.

**Theorem (`Probe.run_passes`).** It finds none of these, whatever the probe is. The policy has the
shape of the probe's key, node for node, and the probe's keys for leaves. If the expansion fails, a
level is too deep or there is a contract, since the other variants that no signature can provide
are not in any probe.

That the policy has the shape of the key is a relation, `ProbeKey.Becomes`. All that is said of the
policy follows from the relation, by induction on the key.
-/

namespace KeyPolicy

open Policy

namespace ProbeKey

/-! ## The policy of a key -/

/-- Prove a property of all keys of probes from the children up. -/
theorem induction {P : ProbeKey → Prop} (ed25519 : ∀ bytes, P (.ed25519 bytes))
    (ecdsa : ∀ odd x, P (.ecdsa odd x)) (allOf : ∀ cs, (∀ c ∈ cs, P c) → P (.allOf cs))
    (threshold : ∀ m cs, (∀ c ∈ cs, P c) → P (.threshold m cs))
    (contract : ∀ n, P (.contract n)) (k : ProbeKey) : P k :=
  @ProbeKey.rec P (fun cs => ∀ c ∈ cs, P c) ed25519 ecdsa allOf threshold contract
    (fun _ h => absurd h List.not_mem_nil)
    (fun _ _ hc hcs c h => (List.mem_cons.1 h).elim (fun e => e ▸ hc) (hcs c)) k

/-- The policy has the shape of the key: the same nodes in the same places, the same thresholds and
contracts, and the keys of the leaves. -/
inductive Becomes : ProbeKey → Policy → Prop
  | ed25519 {bytes : Vector UInt8 32} {k : PublicKey} :
      k.algorithm = .ed25519 → k.bytes = bytes.toList → Becomes (.ed25519 bytes) (.key k)
  | ecdsa {odd : Bool} {x : Vector UInt8 32} {k : PublicKey} :
      k.algorithm = .ecdsaSecp256k1 → k.bytes = (if odd then 0x03 else 0x02) :: x.toList →
      Becomes (.ecdsa odd x) (.key k)
  | allOf {cs : List ProbeKey} {ps : List Policy} :
      List.Forall₂ Becomes cs ps → Becomes (.allOf cs) (.allOf ps)
  | threshold {m : UInt32} {cs : List ProbeKey} {ps : List Policy} :
      List.Forall₂ Becomes cs ps → Becomes (.threshold m cs) (.threshold m ps)
  | contract (n : UInt64) : Becomes (.contract n) (.contract n)

mutual

/-- The algorithms and bytes of the keys, from left to right. -/
def leafKeys : ProbeKey → List (Algorithm × Bytes)
  | ed25519 bytes => [(.ed25519, bytes.toList)]
  | ecdsa odd x => [(.ecdsaSecp256k1, (if odd then 0x03 else 0x02) :: x.toList)]
  | allOf cs => leafKeysOf cs
  | threshold _ cs => leafKeysOf cs
  | contract _ => []

def leafKeysOf : List ProbeKey → List (Algorithm × Bytes)
  | [] => []
  | c :: cs => c.leafKeys ++ leafKeysOf cs

end

theorem toList_compressed (odd : Bool) (x : Vector UInt8 32) :
    (compressed odd x).toList = (if odd then 0x03 else 0x02) :: x.toList := by
  rw [compressed, Vector.toList_cast, Vector.toList_append]
  rfl

/-- A parity and a coordinate always make an admissible key. -/
theorem exists_ecdsaSecp256k1 (odd : Bool) (x : Vector UInt8 32) :
    ∃ k, PublicKey.ecdsaSecp256k1 (compressed odd x) = .ok k ∧
      k.algorithm = .ecdsaSecp256k1 ∧ k.bytes = (if odd then 0x03 else 0x02) :: x.toList := by
  have hadmissible : Admissible .ecdsaSecp256k1 ((if odd then 0x03 else 0x02) :: x.toList) := by
    refine ⟨by simp [Algorithm.keyLength], fun _ => ?_⟩
    cases odd
    · exact .inl rfl
    · exact .inr rfl
  refine ⟨⟨_, _, hadmissible⟩, ?_, rfl, rfl⟩
  rw [PublicKey.ecdsaSecp256k1, toList_compressed]
  exact PublicKey.ofBytes_eq_ok_iff.2 ⟨rfl, rfl⟩

theorem exists_toPolicies {cs : List ProbeKey}
    (h : ∀ c ∈ cs, ∃ p, c.toPolicy = .ok p ∧ c.Becomes p) :
    ∃ ps, toPolicies cs = .ok ps ∧ List.Forall₂ Becomes cs ps := by
  induction cs with
  | nil => exact ⟨[], rfl, .nil⟩
  | cons c cs ih =>
    obtain ⟨⟨p, hp, hbecomes⟩, hcs⟩ := List.forall_mem_cons.1 h
    obtain ⟨ps, hps, hall⟩ := ih hcs
    refine ⟨p :: ps, ?_, .cons hbecomes hall⟩
    rw [toPolicies, hp, hps]
    rfl

/-- Every key of a probe becomes a policy. -/
theorem exists_toPolicy (k : ProbeKey) : ∃ p, k.toPolicy = .ok p ∧ k.Becomes p := by
  induction k using ProbeKey.induction with
  | ed25519 bytes => exact ⟨_, rfl, .ed25519 rfl rfl⟩
  | ecdsa odd x =>
    obtain ⟨k, hk, halgorithm, hbytes⟩ := exists_ecdsaSecp256k1 odd x
    refine ⟨.key k, ?_, .ecdsa halgorithm hbytes⟩
    rw [toPolicy, hk]
    rfl
  | allOf cs ih =>
    obtain ⟨ps, hps, hall⟩ := exists_toPolicies ih
    refine ⟨.allOf ps, ?_, .allOf hall⟩
    rw [toPolicy, hps]
    rfl
  | threshold m cs ih =>
    obtain ⟨ps, hps, hall⟩ := exists_toPolicies ih
    refine ⟨.threshold m ps, ?_, .threshold hall⟩
    rw [toPolicy, hps]
    rfl
  | contract n => exact ⟨_, rfl, .contract n⟩

/-! ## What the policy inherits -/

/-- Children that become the leaves of their keys do so one after the other. -/
theorem leavesOf_of_becomes {cs : List ProbeKey} {ps : List Policy}
    (h : ∀ c ∈ cs, ∀ p, c.Becomes p → p.leaves.map (fun k => (k.algorithm, k.bytes)) = c.leafKeys)
    (hall : List.Forall₂ Becomes cs ps) :
    (leavesOf ps).map (fun k => (k.algorithm, k.bytes)) = leafKeysOf cs := by
  induction hall with
  | nil => rfl
  | cons hp _ ih =>
    obtain ⟨hc, hcs⟩ := List.forall_mem_cons.1 h
    rw [leavesOf, List.map_append, hc _ hp, ih hcs, leafKeysOf]

theorem leaves_of_becomes {k : ProbeKey} {p : Policy} (h : k.Becomes p) :
    p.leaves.map (fun l => (l.algorithm, l.bytes)) = k.leafKeys := by
  induction k using ProbeKey.induction generalizing p with
  | ed25519 bytes =>
    cases h with
    | ed25519 halgorithm hbytes => rw [leaves, List.map_singleton, halgorithm, hbytes, leafKeys]
  | ecdsa odd x =>
    cases h with
    | ecdsa halgorithm hbytes => rw [leaves, List.map_singleton, halgorithm, hbytes, leafKeys]
  | allOf cs ih =>
    cases h with
    | allOf hall => exact leavesOf_of_becomes (fun c hc p hp => ih c hc hp) hall
  | threshold m cs ih =>
    cases h with
    | threshold hall => exact leavesOf_of_becomes (fun c hc p hp => ih c hc hp) hall
  | contract n =>
    cases h
    rfl

/-- Among the policies that keys become, contracts are all that no signature can provide. -/
def OnlyContracts (p : Policy) : Prop :=
  ∀ ancestors, ∀ n ∈ p.nodesUnder ancestors, n.Unsupported → n.policy.kind = .contractId

theorem onlyContracts_of_children {p : Policy} {ps : List Policy} (hp : p.children? = some ps)
    (h : ∀ q ∈ ps, OnlyContracts q) : OnlyContracts p := by
  intro ancestors n hn hunsupported
  rw [nodesUnder_of_children hp, List.mem_cons, nodesOfUnder_eq_flatMap, List.mem_flatMap] at hn
  rcases hn with rfl | ⟨q, hq, hn⟩
  · exact absurd hunsupported (Node.not_unsupported_of_composite (composite_of_children hp))
  · exact h q hq _ n hn hunsupported

theorem forall_of_becomes {P : Policy → Prop} {cs : List ProbeKey} {ps : List Policy}
    (h : ∀ c ∈ cs, ∀ p, c.Becomes p → P p) (hall : List.Forall₂ Becomes cs ps) : ∀ p ∈ ps, P p := by
  induction hall with
  | nil => exact nofun
  | cons hp _ ih =>
    obtain ⟨hc, hcs⟩ := List.forall_mem_cons.1 h
    exact List.forall_mem_cons.2 ⟨hc _ hp, ih hcs⟩

theorem onlyContracts_of_becomes {k : ProbeKey} {p : Policy} (h : k.Becomes p) :
    OnlyContracts p := by
  induction k using ProbeKey.induction generalizing p with
  | ed25519 bytes | ecdsa odd x =>
    cases h
    intro ancestors n hn hunsupported
    rw [List.mem_singleton.1 hn] at hunsupported
    cases hunsupported
  | allOf cs ih =>
    cases h with
    | allOf hall =>
      exact onlyContracts_of_children rfl (forall_of_becomes (fun c hc p hp => ih c hc hp) hall)
  | threshold m cs ih =>
    cases h with
    | threshold hall =>
      exact onlyContracts_of_children rfl (forall_of_becomes (fun c hc p hp => ih c hc hp) hall)
  | contract n =>
    cases h
    intro ancestors n hn _
    rw [List.mem_singleton.1 hn]
    rfl

end ProbeKey

/-! ## Running a probe -/

namespace Probe

theorem sameOutcome_self (outcome : Except ExpansionError ResolvedSet) :
    sameOutcome outcome outcome = true := by
  cases outcome <;> simp [sameOutcome]

theorem withinBound_expand (e : Expander) (policy : Policy) (m : SignatureMap) :
    withinBound policy m (e.expand policy m) = true := by
  cases h : e.expand policy m with
  | error err => rfl
  | ok found => exact decide_eq_true (Expander.size_expand_le h)

/-- Nothing is wrong with a probe whose key becomes a policy. -/
theorem run_eq_ok {p : Probe} {policy : Policy} (h : p.key.toPolicy = .ok policy) :
    p.run = .ok (policy, p.expander.expand policy p.signatures) := by
  have hindexed : p.expander.expandIndexed [policy] (.build p.signatures) =
      p.expander.expand policy p.signatures := Expander.expandIndexed_build ..
  simp only [run, h]
  show (if _ then _ else _) = _
  rw [if_neg, if_neg, if_neg]
  all_goals simp [hindexed, sameOutcome_self, withinBound_expand]

theorem maxDepth_expander (p : Probe) : p.expander.maxDepth = p.maxDepth.toNat % 8 := by
  simp [expander]

/-- An expansion fails for its depth or for a contract. -/
theorem expand_eq_error {p : Probe} {policy : Policy} (h : p.key.Becomes policy)
    {err : ExpansionError} (herr : p.expander.expand policy p.signatures = .error err) :
    err = .depthExceeded (p.maxDepth.toNat % 8) ∨ err = .unsupportedKind .contractId := by
  obtain ⟨before, n, behind, hnodes, -, hn⟩ :=
    firstOffence?_eq_some_iff.1 (Expander.run_eq_error_iff.1 herr)
  rcases hn with ⟨-, rfl⟩ | ⟨hunsupported, rfl⟩
  · exact .inl (congrArg _ p.maxDepth_expander)
  · have hmem : n ∈ nodesOf [policy] := hnodes ▸ List.mem_append_right _ List.mem_cons_self
    rw [nodesOf, List.flatMap_singleton] at hmem
    rw [ProbeKey.onlyContracts_of_becomes h [] n hmem hunsupported]
    exact .inr rfl

/-- **Every probe passes.** Its key becomes a policy of the same shape, whose leaves are the probe's
keys from left to right. Expanding the policy again, or through an index, has the same outcome as
expanding it, and a set that comes out has at most one pair for each leaf and each signature. The
expansion can fail only for a level too deep or for a contract. -/
theorem run_passes (p : Probe) :
    ∃ policy outcome, p.run = .ok (policy, outcome) ∧
      p.key.toPolicy = .ok policy ∧ p.key.Becomes policy ∧
      (LeafCursor.start policy).toList.map (fun k => (k.algorithm, k.bytes)) = p.key.leafKeys ∧
      p.expander.expand policy p.signatures = outcome ∧
      p.expander.expandIndexed [policy] (.build p.signatures) = outcome ∧
      match outcome with
      | .ok found => found.size ≤ (LeafCursor.start policy).toList.length * p.pairs.length
      | .error err => err = .depthExceeded (p.maxDepth.toNat % 8) ∨
          err = .unsupportedKind .contractId := by
  obtain ⟨policy, hpolicy, hbecomes⟩ := p.key.exists_toPolicy
  have hindexed : p.expander.expandIndexed [policy] (.build p.signatures) =
      p.expander.expand policy p.signatures := Expander.expandIndexed_build ..
  refine ⟨policy, _, run_eq_ok hpolicy, hpolicy, hbecomes, ?_, rfl, hindexed, ?_⟩
  · rw [LeafCursor.toList_start, ProbeKey.leaves_of_becomes hbecomes]
  · cases h : p.expander.expand policy p.signatures with
    | error err => exact expand_eq_error hbecomes h
    | ok found =>
      have hpairs : p.signatures.size = p.pairs.length := List.length_map _
      rw [LeafCursor.toList_start, ← leafCount_eq_length.1, ← hpairs]
      exact Expander.size_expand_le h

end Probe

end KeyPolicy
