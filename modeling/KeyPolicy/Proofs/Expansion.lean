import Mathlib.Data.List.Nodup
import KeyPolicy.Proofs.Nodes

/-!
# What an expansion contains, and when it fails

`Policy.expandInto` walks a policy with a set of pairs and a count of levels in hand, and may stop
anywhere. The theorems here say what comes of it without a walk.

**Failure.** An expansion fails exactly when some node offends, and the error is the offence of the
first such node in the order of `Policy.nodesOf`. So the signatures have no influence on it, nor has
the way in which they are looked up.

**Success.** If the expansion succeeds, the set holds a key with a signature exactly when the key is
a leaf of one of the policies and the signature is that of a pair that matches the key.

Both come from one equation (`Expander.run_eq`): the walk either ends with the first offence or adds
what the lookup gives for each leaf, from left to right. The induction (`expandInto_eq`) carries the
ancestors of the place where the walk stands; the level that the walk counts is the number of
composite ones among them.
-/

namespace KeyPolicy

open Policy

/-! ## The walk -/

theorem expandInto_of_children {p : Policy} {cs : List Policy} (h : p.children? = some cs)
    (limit : Nat) (lookup : Lookup) (level : Nat) (found : ResolvedSet) :
    p.expandInto limit lookup level found =
      if limit < level + 1 then .error (.depthExceeded limit)
      else expandAllInto limit lookup (level + 1) found cs := by
  cases p <;> cases h <;> rfl

theorem expandInto_of_unsupported {p : Policy} (h : p.unsupported = true)
    (limit : Nat) (lookup : Lookup) (level : Nat) (found : ResolvedSet) :
    p.expandInto limit lookup level found = .error (.unsupportedKind p.kind) := by
  cases p <;> first | rfl | cases h

/-- A walk ends with the first offence, or else adds all pairs of all leaves. -/
theorem expandInto_eq (limit : Nat) (lookup : Lookup) :
    (∀ p ancestors found, expandInto limit lookup (ancestors.countP composite) found p =
      ((p.nodesUnder ancestors).findSome? (Node.offence? limit)).elim
        (.ok (found.insertMany (p.leaves.flatMap lookup.resolve))) .error) ∧
    (∀ cs ancestors found, expandAllInto limit lookup (ancestors.countP composite) found cs =
      ((nodesOfUnder ancestors cs).findSome? (Node.offence? limit)).elim
        (.ok (found.insertMany ((leavesOf cs).flatMap lookup.resolve))) .error) := by
  apply forest_induction
  case atomic =>
    intro p hp ancestors found
    rw [nodesUnder_of_atomic hp, List.findSome?_singleton]
    rcases eq_key_or_unsupported_of_atomic hp with ⟨k, rfl⟩ | hu
    · rw [leaves, List.flatMap_singleton]
      rfl
    · have hoff : Node.offence? limit ⟨ancestors, p⟩ = some (.unsupportedKind p.kind) :=
        Node.offence?_of_unsupported hu
      rw [expandInto_of_unsupported hu, hoff]
      rfl
  case composite =>
    intro p cs hp ih ancestors found
    have hlevel : (p :: ancestors).countP composite = ancestors.countP composite + 1 :=
      List.countP_cons_of_pos (composite_of_children hp)
    rw [expandInto_of_children hp, nodesUnder_of_children hp, List.findSome?_cons]
    -- The walk looks at a node before its children, and so does the list of nodes.
    by_cases hd : limit < ancestors.countP composite + 1
    · rw [if_pos hd, Node.offence?_of_tooDeep ⟨composite_of_children hp, hd⟩]
      rfl
    · have hnone : Node.offence? limit ⟨ancestors, p⟩ = none :=
        Node.offence?_eq_none_iff.2
          ⟨fun h => hd h.2, Node.not_unsupported_of_composite (composite_of_children hp)⟩
      rw [if_neg hd, hnone, ← hlevel, ih, leaves_of_children hp]
  case nil =>
    intro ancestors found
    rfl
  case cons =>
    intro c cs ihc ihcs ancestors found
    rw [expandAllInto, ihc, nodesOfUnder, List.findSome?_append]
    -- An offence under the first tree hides those under the others.
    cases (c.nodesUnder ancestors).findSome? (Node.offence? limit) with
    | some err => rfl
    | none =>
      rw [Option.none_or, leavesOf, List.flatMap_append, OrderedSet.insertMany_append, ← ihcs]
      rfl

/-! ## Runs -/

namespace Expander

variable {e : Expander} {lookup : Lookup} {ps : List Policy}

theorem run_eq (e : Expander) (lookup : Lookup) (ps : List Policy) :
    e.run lookup ps = (firstOffence? e.maxDepth ps).elim
      (.ok (.ofList ((leavesOf ps).flatMap lookup.resolve))) .error := by
  rw [firstOffence?, nodesOf_eq]
  exact (expandInto_eq e.maxDepth lookup).2 ps [] ∅

theorem run_eq_error_iff {err : ExpansionError} :
    e.run lookup ps = .error err ↔ firstOffence? e.maxDepth ps = some err := by
  rw [run_eq]
  cases firstOffence? e.maxDepth ps <;> simp

theorem run_eq_ok_iff {found : ResolvedSet} :
    e.run lookup ps = .ok found ↔
      firstOffence? e.maxDepth ps = none ∧
        found = .ofList ((leavesOf ps).flatMap lookup.resolve) := by
  rw [run_eq]
  cases firstOffence? e.maxDepth ps <;> simp [eq_comm]

theorem exists_run_eq_ok_iff :
    (∃ found, e.run lookup ps = .ok found) ↔ firstOffence? e.maxDepth ps = none := by
  simp [run_eq_ok_iff]

theorem exists_run_eq_error_iff :
    (∃ err, e.run lookup ps = .error err) ↔ firstOffence? e.maxDepth ps ≠ none := by
  simp only [run_eq_error_iff, Option.ne_none_iff_exists']

/-! ## Which pairs a run finds -/

theorem mem_resolve {k : PublicKey} {r : ResolvedPair} :
    r ∈ lookup.resolve k ↔ r.key = k ∧ ∃ q ∈ lookup k, q.signature = r.signature := by
  rw [Lookup.resolve, List.mem_map]
  refine ⟨fun h => ?_, fun h => ?_⟩
  · obtain ⟨q, hq, rfl⟩ := h
    exact ⟨rfl, q, hq, rfl⟩
  · obtain ⟨rfl, q, hq, hsig⟩ := h
    exact ⟨q, hq, ResolvedPair.ext rfl hsig⟩

theorem mem_of_run_eq_ok {found : ResolvedSet} (h : e.run lookup ps = .ok found)
    {r : ResolvedPair} :
    r ∈ found ↔ r.key ∈ leavesOf ps ∧ ∃ q ∈ lookup r.key, q.signature = r.signature := by
  rw [(run_eq_ok_iff.1 h).2, OrderedSet.mem_ofList, List.mem_flatMap]
  refine ⟨fun hr => ?_, fun hr => ⟨r.key, hr.1, mem_resolve.2 ⟨rfl, hr.2⟩⟩⟩
  obtain ⟨k, hk, hr⟩ := hr
  obtain ⟨rfl, hq⟩ := mem_resolve.1 hr
  exact ⟨hk, hq⟩

/-- Lookups that give the same pairs, in whatever order and number, lead to the same outcome. -/
theorem run_congr {lookup' : Lookup} (h : ∀ k q, q ∈ lookup k ↔ q ∈ lookup' k) :
    e.run lookup ps = e.run lookup' ps := by
  have hset : OrderedSet.ofList ((leavesOf ps).flatMap lookup.resolve) =
      OrderedSet.ofList ((leavesOf ps).flatMap lookup'.resolve) := by
    ext r
    simp only [OrderedSet.mem_ofList, List.mem_flatMap, mem_resolve, h]
  rw [run_eq, run_eq, hset]

theorem mem_of_expandAll_eq_ok {m : SignatureMap} {found : ResolvedSet}
    (h : e.expandAll ps m = .ok found) {r : ResolvedPair} :
    r ∈ found ↔ r.key ∈ leavesOf ps ∧
      ∃ q ∈ m.pairs, q.algorithm = r.key.algorithm ∧ q.keyPrefix <+: r.key.bytes ∧
        q.signature = r.signature := by
  rw [mem_of_run_eq_ok h]
  simp only [SignatureMap.mem_candidates, and_assoc]

end Expander

/-! ## Success -/

/-- The Ed25519 key that consists of one byte, repeated. -/
def PublicKey.ofByte (b : UInt8) : PublicKey := .ed25519 (Vector.replicate 32 b)

/-- What a pair says: an algorithm, a key of it and a signature. -/
def ResolvedPair.triple (r : ResolvedPair) : Algorithm × Bytes × Bytes :=
  (r.key.algorithm, r.key.bytes, r.signature)

theorem ResolvedPair.triple_injective : Function.Injective ResolvedPair.triple := by
  intro r s h
  simp only [triple, Prod.mk.injEq] at h
  exact ResolvedPair.ext (PublicKey.ext h.1 h.2.1) h.2.2

theorem LeafCursor.toList_start (p : Policy) : (LeafCursor.start p).toList = p.leaves := by
  rw [toList_eq, start, leavesOf, leavesOf, List.append_nil]

theorem mem_leavesOf {k : PublicKey} {ps : List Policy} :
    k ∈ leavesOf ps ↔ ∃ p ∈ ps, k ∈ (LeafCursor.start p).toList := by
  simp only [leavesOf_eq_flatMap, List.mem_flatMap, LeafCursor.toList_start]

/-- **What a successful expansion contains.** A triple is in the set exactly when its key is a leaf
that some policy's cursor gives and its signature is that of a pair of the map with the same
algorithm and with leading bytes of the key. No triple is there twice. -/
theorem expandAll_triples {e : Expander} {ps : List Policy} {m : SignatureMap} {found : ResolvedSet}
    (h : e.expandAll ps m = .ok found) :
    (found.toList.map ResolvedPair.triple).Nodup ∧
    ∀ a bytes signature, (a, bytes, signature) ∈ found.toList.map ResolvedPair.triple ↔
      (∃ p ∈ ps, ∃ k ∈ (LeafCursor.start p).toList, k.algorithm = a ∧ k.bytes = bytes) ∧
      ∃ q ∈ m.pairs, q.algorithm = a ∧ q.keyPrefix <+: bytes ∧ q.signature = signature := by
  refine ⟨?_, fun a bytes signature => ?_⟩
  · exact found.nodup_toList.map ResolvedPair.triple_injective
  · rw [List.mem_map]
    refine ⟨fun hmem => ?_, fun hmem => ?_⟩
    · obtain ⟨r, hr, hr'⟩ := hmem
      cases hr'
      obtain ⟨hleaf, hq⟩ := (Expander.mem_of_expandAll_eq_ok h).1 hr
      obtain ⟨p, hp, hk⟩ := mem_leavesOf.1 hleaf
      exact ⟨⟨p, hp, r.key, hk, rfl, rfl⟩, hq⟩
    · obtain ⟨⟨p, hp, k, hk, rfl, rfl⟩, hq⟩ := hmem
      have hfound : k.resolve signature ∈ found :=
        (Expander.mem_of_expandAll_eq_ok h).2 ⟨mem_leavesOf.2 ⟨p, hp, hk⟩, hq⟩
      exact ⟨k.resolve signature, hfound, rfl⟩

/-- Under a threshold with a repeated leaf, signatures without leading bytes, with some, with a
whole key and with too many. -/
theorem expandAll_triples_ambiguous :
    ∃ found, Expander.expandAll ⟨2⟩
        [.threshold 1 [.key (.ofByte 1), .allOf [.key (.ofByte 2), .key (.ofByte 1)]]]
        ⟨[⟨.ed25519, [], [7]⟩, ⟨.ed25519, [2, 2], [8]⟩, ⟨.ed25519, [], [7]⟩,
          ⟨.ed25519, List.replicate 32 1, [9]⟩, ⟨.ed25519, List.replicate 33 1, [10]⟩]⟩ =
          .ok found ∧
      (found.toList.map ResolvedPair.triple).Nodup ∧
      (.ed25519, List.replicate 32 1, [9]) ∈ found.toList.map ResolvedPair.triple ∧
      (.ed25519, List.replicate 32 1, [10]) ∉ found.toList.map ResolvedPair.triple := by
  refine Exists.imp (fun found h => ⟨h, (expandAll_triples h).1, ?_, ?_⟩) ⟨_, rfl⟩
  · have hleaf : PublicKey.ofByte 1 ∈ (Policy.threshold 1 [.key (.ofByte 1), .allOf
        [.key (.ofByte 2), .key (.ofByte 1)]]).leaves := .head _
    rw [← LeafCursor.toList_start] at hleaf
    exact ((expandAll_triples h).2 _ _ _).2 ⟨⟨_, .head _, _, hleaf, rfl, rfl⟩, by decide⟩
  · intro hmem
    exact absurd (((expandAll_triples h).2 _ _ _).1 hmem).2 (by decide)

/-! ## Failure -/

/-- **When an expansion fails, and how.** It succeeds exactly when no node offends. Otherwise its
error is the offence of the first node that does. The signatures have no part in this, nor has the
way they are looked up. Where all nodes are supported, only the depth counts. -/
theorem expandAll_failure (d : Nat) (ps : List Policy) (m : SignatureMap) :
    ((∃ found, Expander.expandAll ⟨d⟩ ps m = .ok found) ↔
      ∀ n ∈ nodesOf ps, ¬ n.TooDeep d ∧ ¬ n.Unsupported) ∧
    (∀ err, Expander.expandAll ⟨d⟩ ps m = .error err ↔
      ∃ before n after, nodesOf ps = before ++ n :: after ∧
        (∀ b ∈ before, ¬ b.TooDeep d ∧ ¬ b.Unsupported) ∧
        (n.TooDeep d ∧ err = .depthExceeded d ∨
          n.Unsupported ∧ err = .unsupportedKind n.policy.kind)) ∧
    (∀ err m' ix,
      (Expander.expandAll ⟨d⟩ ps m = .error err ↔ Expander.expandAll ⟨d⟩ ps m' = .error err) ∧
      (Expander.expandAll ⟨d⟩ ps m = .error err ↔
        Expander.expandIndexed ⟨d⟩ ps ix = .error err)) ∧
    ((∀ n ∈ nodesOf ps, ¬ n.Unsupported) →
      ((∃ err, Expander.expandAll ⟨d⟩ ps m = .error err) ↔ ∃ p ∈ ps, d < p.depth)) := by
  refine ⟨?_, fun err => ?_, fun err m' ix => ⟨?_, ?_⟩, fun hs => ?_⟩
  · exact Expander.exists_run_eq_ok_iff.trans firstOffence?_eq_none_iff
  · exact Expander.run_eq_error_iff.trans firstOffence?_eq_some_iff
  · exact Expander.run_eq_error_iff.trans Expander.run_eq_error_iff.symm
  · exact Expander.run_eq_error_iff.trans Expander.run_eq_error_iff.symm
  · exact Expander.exists_run_eq_error_iff.trans (firstOffence?_ne_none_iff_of_supported hs)

/-- Two levels under a limit of one, the lower one empty. -/
theorem expandAll_failure_empty_list :
    (∀ n ∈ nodesOf [.key (.ofByte 1), .allOf [.threshold 3 []]], ¬ n.Unsupported) ∧
      ∃ err, Expander.expandAll ⟨1⟩ [.key (.ofByte 1), .allOf [.threshold 3 []]] ∅ =
        .error err := by
  have hs : ∀ n ∈ nodesOf [.key (.ofByte 1), .allOf [.threshold 3 []]], ¬ n.Unsupported := by decide
  have hdepth : ∃ p ∈ [.key (.ofByte 1), .allOf [.threshold 3 []]], 1 < Policy.depth p :=
    ⟨_, .tail _ (.head _), by decide⟩
  exact ⟨hs, ((expandAll_failure 1 _ ∅).2.2.2 hs).2 hdepth⟩

end KeyPolicy
