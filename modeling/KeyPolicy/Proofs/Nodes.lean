import Mathlib.Tactic.ByContra
import KeyPolicy.Expander
import KeyPolicy.Policy.Leaves

/-!
# The nodes of a policy, and which of them offend

`Policy.nodes` lists the nodes of a policy, each before its children and the children from left to
right. A node is listed with its ancestors, so its level can be read off: one more than the number
of composite nodes above it.

Two kinds of nodes offend. A composite node does when its level is above the limit, whether or not
it has children. A node that no signature can provide does wherever it stands. The first offence in
the order of the list is what an expansion reports (`KeyPolicy.Proofs.Expansion`).

**Theorem (`exists_tooDeep_iff`).** Some node of a policy is too deep exactly when the policy's
depth is above the limit. The depth counts from the leaves up and the level from the root down, so
the induction is over the tree with any ancestors, and claims the sum of the two.
-/

namespace KeyPolicy

open Policy

/-! ## Nodes in their places -/

/-- A node of a policy, in its place. -/
structure Node where
  /-- The nodes above it, the nearest first. -/
  ancestors : List Policy
  policy : Policy

namespace Policy

/-- Whether a node is composite. It may have no children. -/
def composite (p : Policy) : Bool := p.children?.isSome

/-- Whether a node is of a kind that no signature can provide. -/
def unsupported : Policy → Bool
  | contract _ | delegatableContract _ | rsa3072 _ | ecdsaP384 _ => true
  | key _ | allOf _ | threshold _ _ => false

theorem composite_of_atomic {p : Policy} (h : p.children? = none) : p.composite = false := by
  rw [composite, h, Option.isSome_none]

theorem eq_key_or_unsupported_of_atomic {p : Policy} (h : p.children? = none) :
    (∃ k, p = key k) ∨ p.unsupported = true := by
  cases p with
  | key k => exact .inl ⟨k, rfl⟩
  | allOf _ | threshold _ _ => cases h
  | _ => exact .inr rfl

theorem composite_of_children {p : Policy} {cs : List Policy} (h : p.children? = some cs) :
    p.composite = true := by
  rw [composite, h, Option.isSome_some]

mutual

/-- The nodes of a policy with the given ancestors, each before its children. -/
def nodesUnder (ancestors : List Policy) : Policy → List Node
  | allOf cs => ⟨ancestors, allOf cs⟩ :: nodesOfUnder (allOf cs :: ancestors) cs
  | threshold m cs => ⟨ancestors, threshold m cs⟩ :: nodesOfUnder (threshold m cs :: ancestors) cs
  | p => [⟨ancestors, p⟩]

/-- The nodes of several policies with the given ancestors, one policy after the other. -/
def nodesOfUnder (ancestors : List Policy) : List Policy → List Node
  | [] => []
  | c :: cs => c.nodesUnder ancestors ++ nodesOfUnder ancestors cs

end

/-- The nodes of a policy, each before its children. -/
def nodes (p : Policy) : List Node := p.nodesUnder []

/-- The nodes of several policies, one policy after the other. -/
def nodesOf (ps : List Policy) : List Node := ps.flatMap nodes

theorem nodesUnder_of_atomic {p : Policy} (h : p.children? = none) (ancestors : List Policy) :
    p.nodesUnder ancestors = [⟨ancestors, p⟩] := by
  cases p <;> first | rfl | cases h

theorem nodesUnder_of_children {p : Policy} {cs : List Policy} (h : p.children? = some cs)
    (ancestors : List Policy) :
    p.nodesUnder ancestors = ⟨ancestors, p⟩ :: nodesOfUnder (p :: ancestors) cs := by
  cases p <;> cases h <;> rfl

theorem nodesOfUnder_eq_flatMap (ancestors cs : List Policy) :
    nodesOfUnder ancestors cs = cs.flatMap (nodesUnder ancestors) := by
  induction cs with
  | nil => rfl
  | cons c cs ih => rw [nodesOfUnder, ih, List.flatMap_cons]

theorem nodesOf_eq (ps : List Policy) : nodesOf ps = nodesOfUnder [] ps :=
  (nodesOfUnder_eq_flatMap [] ps).symm

theorem mem_nodesOf {n : Node} {ps : List Policy} : n ∈ nodesOf ps ↔ ∃ p ∈ ps, n ∈ p.nodes :=
  List.mem_flatMap

end Policy

/-! ## Offences -/

namespace Node

/-- The number of composite nodes on the way from the root to the node, counting itself. -/
def level (n : Node) : Nat := n.ancestors.countP composite + 1

/-- A composite node above the limit. -/
def TooDeep (limit : Nat) (n : Node) : Prop := n.policy.composite = true ∧ limit < n.level

instance (limit : Nat) (n : Node) : Decidable (n.TooDeep limit) :=
  inferInstanceAs (Decidable (_ ∧ _))

theorem tooDeep_mk_iff {limit : Nat} {ancestors : List Policy} {p : Policy} :
    (Node.mk ancestors p).TooDeep limit ↔
      p.composite = true ∧ limit < ancestors.countP composite + 1 := Iff.rfl

/-- A node of a kind that no signature can provide. -/
def Unsupported (n : Node) : Prop := n.policy.unsupported = true

instance (n : Node) : Decidable n.Unsupported := inferInstanceAs (Decidable (_ = _))

/-- What is wrong with a node, if anything is. -/
def offence? (limit : Nat) (n : Node) : Option ExpansionError :=
  if n.TooDeep limit then some (.depthExceeded limit)
  else if n.Unsupported then some (.unsupportedKind n.policy.kind)
  else none

theorem not_unsupported_of_composite {n : Node} (h : n.policy.composite = true) :
    ¬ n.Unsupported := by
  obtain ⟨_, p⟩ := n
  cases p <;> simp_all [composite, children?, Unsupported, unsupported]

theorem offence?_of_tooDeep {limit : Nat} {n : Node} (h : n.TooDeep limit) :
    n.offence? limit = some (.depthExceeded limit) := if_pos h

theorem offence?_of_unsupported {limit : Nat} {n : Node} (h : n.Unsupported) :
    n.offence? limit = some (.unsupportedKind n.policy.kind) := by
  rw [offence?, if_neg fun hd => not_unsupported_of_composite hd.1 h, if_pos h]

theorem offence?_eq_none_iff {limit : Nat} {n : Node} :
    n.offence? limit = none ↔ ¬ n.TooDeep limit ∧ ¬ n.Unsupported := by
  by_cases hd : n.TooDeep limit
  · simp [offence?_of_tooDeep hd, hd]
  · by_cases hu : n.Unsupported <;> simp [offence?, hd, hu]

theorem offence?_eq_some_iff {limit : Nat} {n : Node} {err : ExpansionError} :
    n.offence? limit = some err ↔
      n.TooDeep limit ∧ err = .depthExceeded limit ∨
        n.Unsupported ∧ err = .unsupportedKind n.policy.kind := by
  by_cases hd : n.TooDeep limit
  · simp [offence?_of_tooDeep hd, hd, not_unsupported_of_composite hd.1, eq_comm]
  · by_cases hu : n.Unsupported
    · simp [offence?_of_unsupported hu, hd, hu, eq_comm]
    · simp [offence?, hd, hu]

end Node

namespace Policy

/-- No node of the policy is of a kind that no signature can provide. -/
def Supported (p : Policy) : Prop := ∀ n ∈ p.nodes, ¬ n.Unsupported

instance (p : Policy) : Decidable p.Supported := inferInstanceAs (Decidable (∀ n ∈ p.nodes, _))

/-- The same nodes are listed whatever the ancestors are. -/
theorem map_policy_nodesUnder :
    (∀ p ancestors ancestors', (nodesUnder ancestors p).map Node.policy =
      (nodesUnder ancestors' p).map Node.policy) ∧
    ∀ cs ancestors ancestors', (nodesOfUnder ancestors cs).map Node.policy =
      (nodesOfUnder ancestors' cs).map Node.policy := by
  apply forest_induction
  case atomic =>
    intro p hp ancestors ancestors'
    simp only [nodesUnder_of_atomic hp, List.map_singleton]
  case composite =>
    intro p cs hp ih ancestors ancestors'
    simp only [nodesUnder_of_children hp, List.map_cons]
    rw [ih]
  case nil => exact fun _ _ => rfl
  case cons =>
    intro c cs ihc ihcs ancestors ancestors'
    simp only [nodesOfUnder, List.map_append]
    rw [ihc ancestors ancestors', ihcs ancestors ancestors']

theorem supported_iff_map {p : Policy} :
    p.Supported ↔ ∀ r ∈ p.nodes.map Node.policy, r.unsupported ≠ true := by
  rw [List.forall_mem_map]
  rfl

/-- A composite node is supported exactly when its children are. -/
theorem supported_of_children {p : Policy} {cs : List Policy} (h : p.children? = some cs) :
    p.Supported ↔ ∀ c ∈ cs, c.Supported := by
  have hself : p.unsupported ≠ true :=
    Node.not_unsupported_of_composite (n := ⟨[], p⟩) (composite_of_children h)
  rw [supported_iff_map, nodes, nodesUnder_of_children h, List.map_cons, List.forall_mem_cons,
    and_iff_right hself, map_policy_nodesUnder.2 cs [p] [], nodesOfUnder_eq_flatMap,
    List.map_flatMap]
  refine ⟨fun hall c hc => supported_iff_map.2 fun r hr => ?_, fun hall r hr => ?_⟩
  · exact hall r (List.mem_flatMap.2 ⟨c, hc, hr⟩)
  · obtain ⟨c, hc, hr⟩ := List.mem_flatMap.1 hr
    exact supported_iff_map.1 (hall c hc) r hr

/-- The first offence among the nodes of several policies. -/
def firstOffence? (limit : Nat) (ps : List Policy) : Option ExpansionError :=
  (nodesOf ps).findSome? (Node.offence? limit)

theorem firstOffence?_eq_none_iff {limit : Nat} {ps : List Policy} :
    firstOffence? limit ps = none ↔ ∀ n ∈ nodesOf ps, ¬ n.TooDeep limit ∧ ¬ n.Unsupported := by
  simp only [firstOffence?, List.findSome?_eq_none_iff, Node.offence?_eq_none_iff]

theorem firstOffence?_eq_some_iff {limit : Nat} {ps : List Policy} {err : ExpansionError} :
    firstOffence? limit ps = some err ↔
      ∃ before n after, nodesOf ps = before ++ n :: after ∧
        (∀ b ∈ before, ¬ b.TooDeep limit ∧ ¬ b.Unsupported) ∧
        (n.TooDeep limit ∧ err = .depthExceeded limit ∨
          n.Unsupported ∧ err = .unsupportedKind n.policy.kind) := by
  simp only [firstOffence?, List.findSome?_eq_some_iff, Node.offence?_eq_none_iff,
    Node.offence?_eq_some_iff]
  exact exists_congr fun before => exists_congr fun n => exists_congr fun after =>
    and_congr_right fun _ => and_comm

/-! ## Depth and level -/

/-- Under any ancestors, a node is too deep somewhere exactly when the composite ancestors and the
depth below them are too many together. -/
theorem exists_tooDeep_under_iff (limit : Nat) :
    (∀ p ancestors, (∃ n ∈ nodesUnder ancestors p, n.TooDeep limit) ↔
      0 < p.depth ∧ limit < ancestors.countP composite + p.depth) ∧
    (∀ cs ancestors, (∃ n ∈ nodesOfUnder ancestors cs, n.TooDeep limit) ↔
      0 < maxDepth cs ∧ limit < ancestors.countP composite + maxDepth cs) := by
  apply forest_induction
  case atomic =>
    intro p hp ancestors
    simp [nodesUnder_of_atomic hp, depth_of_atomic hp, Node.TooDeep, composite_of_atomic hp]
  case composite =>
    intro p cs hp ih ancestors
    have hself := composite_of_children hp
    simp only [nodesUnder_of_children hp, depth_of_children hp, List.mem_cons, or_and_right,
      exists_or, exists_eq_left, ih, Node.tooDeep_mk_iff, hself, true_and,
      List.countP_cons_of_pos hself]
    omega
  case nil =>
    intro ancestors
    simp [nodesOfUnder, maxDepth]
  case cons =>
    intro c cs ihc ihcs ancestors
    simp only [nodesOfUnder, maxDepth, List.mem_append, or_and_right, exists_or, ihc, ihcs]
    omega

theorem exists_tooDeep_iff {limit : Nat} {p : Policy} :
    (∃ n ∈ p.nodes, n.TooDeep limit) ↔ limit < p.depth := by
  have h := (exists_tooDeep_under_iff limit).1 p []
  rw [List.countP_nil] at h
  rw [nodes, h]
  omega

/-- Among supported policies, one is refused exactly when one is deeper than the limit. -/
theorem firstOffence?_ne_none_iff_of_supported {limit : Nat} {ps : List Policy}
    (h : ∀ n ∈ nodesOf ps, ¬ n.Unsupported) :
    firstOffence? limit ps ≠ none ↔ ∃ p ∈ ps, limit < p.depth := by
  rw [Ne, firstOffence?_eq_none_iff]
  refine ⟨fun hoff => ?_, fun hdeep hnone => ?_⟩
  · by_contra hdepth
    refine hoff fun n hn => ⟨fun hd => hdepth ?_, h n hn⟩
    obtain ⟨p, hp, hnp⟩ := mem_nodesOf.1 hn
    exact ⟨p, hp, exists_tooDeep_iff.1 ⟨n, hnp, hd⟩⟩
  · obtain ⟨p, hp, hdepth⟩ := hdeep
    obtain ⟨n, hn, hd⟩ := exists_tooDeep_iff.2 hdepth
    exact (hnone n (mem_nodesOf.2 ⟨p, hp, hn⟩)).1 hd

theorem firstOffence?_singleton_eq_none_iff {limit : Nat} {p : Policy} :
    firstOffence? limit [p] = none ↔ p.Supported ∧ p.depth ≤ limit := by
  rw [firstOffence?_eq_none_iff, nodesOf, List.flatMap_singleton, ← Nat.not_lt,
    ← exists_tooDeep_iff, Supported]
  refine ⟨fun h => ⟨fun n hn => (h n hn).2, ?_⟩, fun h n hn => ⟨fun hd => ?_, h.1 n hn⟩⟩
  · intro hd
    obtain ⟨n, hn, hd⟩ := hd
    exact (h n hn).1 hd
  · exact h.2 ⟨n, hn, hd⟩

end Policy

end KeyPolicy
