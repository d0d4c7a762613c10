import KeyPolicy.Proofs.Expansion

/-!
# One sharp depth limit

How an expansion ends may change with the depth limit. A higher limit lets the walk go on, and it
may then meet a node that no signature can provide, or a composite node that is deeper still.

**Theorem (`expandAll_sharp_limit`).** There is one limit below which every expansion of given
policies fails for their depth, and from which on all expansions end in the same way, which is not a
failure for depth. It is no larger than the depth of the deepest policy, and equal to it if all
nodes are supported.

An unsupported node offends under every limit, so the walk never gets beyond the first one. The
composite nodes in front of it offend under the limits below their level, so the largest of these
levels is the limit in question (`neededLimit`). Both halves are inductions over the listed nodes
(`findSome?_offence?_of_lt`, `findSome?_offence?_of_le`).
-/

namespace KeyPolicy

open Policy

/-! ## Offences under different limits -/

/-- The largest level of a composite node in front of the first unsupported node, zero if there is
none. -/
def neededLimit : List Node → Nat
  | [] => 0
  | n :: ns =>
    if n.Unsupported then 0
    else if n.policy.composite then max n.level (neededLimit ns)
    else neededLimit ns

variable {d : Nat} {n : Node} {ns : List Node} {ps : List Policy}

theorem neededLimit_cons_le_iff :
    neededLimit (n :: ns) ≤ d ↔ n.Unsupported ∨ ¬ n.TooDeep d ∧ neededLimit ns ≤ d := by
  by_cases hunsupported : n.Unsupported
  · simp [neededLimit, hunsupported]
  · rw [neededLimit, if_neg hunsupported, or_iff_right hunsupported]
    split
    · next hcomposite => rw [Nat.max_le, Node.TooDeep, and_iff_right hcomposite, Nat.not_lt]
    · next hcomposite => rw [and_iff_right fun h => hcomposite h.1]

/-- Below the needed limit the first offence is one of depth. -/
theorem findSome?_offence?_of_lt (h : d < neededLimit ns) :
    ns.findSome? (Node.offence? d) = some (.depthExceeded d) := by
  induction ns with
  | nil => cases h
  | cons n ns ih =>
    rw [← Nat.not_le, neededLimit_cons_le_iff, not_or, not_and, Nat.not_le] at h
    obtain ⟨hunsupported, hrest⟩ := h
    by_cases hdeep : n.TooDeep d
    · rw [List.findSome?_cons, Node.offence?_of_tooDeep hdeep]
    · rw [List.findSome?_cons, Node.offence?_eq_none_iff.2 ⟨hdeep, hunsupported⟩, ih (hrest hdeep)]

/-- From the needed limit on the first offence is the first unsupported node. -/
theorem findSome?_offence?_of_le (h : neededLimit ns ≤ d) :
    ns.findSome? (Node.offence? d) =
      (ns.find? (·.policy.unsupported)).map fun n => .unsupportedKind n.policy.kind := by
  induction ns with
  | nil => rfl
  | cons n ns ih =>
    by_cases hunsupported : n.Unsupported
    · have hself : n.policy.unsupported = true := hunsupported
      rw [List.findSome?_cons, Node.offence?_of_unsupported hunsupported, List.find?_cons, hself]
      rfl
    · obtain ⟨hdeep, hrest⟩ := (neededLimit_cons_le_iff.1 h).resolve_left hunsupported
      have hself : n.policy.unsupported = false := Bool.eq_false_iff.2 hunsupported
      rw [List.findSome?_cons, Node.offence?_eq_none_iff.2 ⟨hdeep, hunsupported⟩, ih hrest,
        List.find?_cons, hself]

/-! ## The needed limit and the depth -/

theorem neededLimit_le_maxDepth (ps : List Policy) : neededLimit (nodesOf ps) ≤ maxDepth ps := by
  by_contra hlt
  have hoffence : firstOffence? (maxDepth ps) ps = some (.depthExceeded (maxDepth ps)) :=
    findSome?_offence?_of_lt (Nat.not_le.1 hlt)
  obtain ⟨before, n, after, hnodes, -, hn⟩ := firstOffence?_eq_some_iff.1 hoffence
  rcases hn with ⟨hdeep, -⟩ | ⟨-, herr⟩
  · have hmem : n ∈ nodesOf ps := hnodes ▸ List.mem_append_right _ List.mem_cons_self
    obtain ⟨p, hp, hnp⟩ := mem_nodesOf.1 hmem
    exact absurd (exists_tooDeep_iff.1 ⟨n, hnp, hdeep⟩) (Nat.not_lt.2 (depth_le_maxDepth hp))
  · cases herr

theorem neededLimit_eq_maxDepth (h : ∀ n ∈ nodesOf ps, ¬ n.Unsupported) :
    neededLimit (nodesOf ps) = maxDepth ps := by
  apply Nat.le_antisymm (neededLimit_le_maxDepth ps)
  rw [maxDepth_le_iff]
  intro p hp
  by_contra hlt
  have hfind : (nodesOf ps).find? (·.policy.unsupported) = none := List.find?_eq_none.2 h
  have hnone : firstOffence? (neededLimit (nodesOf ps)) ps = none := by
    rw [firstOffence?, findSome?_offence?_of_le (Nat.le_refl _), hfind, Option.map_none]
  exact (firstOffence?_ne_none_iff_of_supported h).2 ⟨p, hp, Nat.not_le.1 hlt⟩ hnone

/-! ## Expansions under different limits -/

/-- **One sharp limit.** Below it an expansion fails for depth, with the limit it was given. From it
on there is one outcome for all limits, a set or an unsupported kind. The limit does not depend on
the signatures. It is at most the depth of the deepest policy, and equal to it if all nodes are
supported. -/
theorem expandAll_sharp_limit (ps : List Policy) :
    ∃ c ≤ maxDepth ps, ((∀ n ∈ nodesOf ps, ¬ n.Unsupported) → c = maxDepth ps) ∧
      ∀ m : SignatureMap,
        (∀ d < c, Expander.expandAll ⟨d⟩ ps m = .error (.depthExceeded d)) ∧
        ∃ outcome, (∀ d, c ≤ d → Expander.expandAll ⟨d⟩ ps m = outcome) ∧
          ((∃ found, outcome = .ok found) ∨ ∃ kind, outcome = .error (.unsupportedKind kind)) := by
  refine ⟨neededLimit (nodesOf ps), neededLimit_le_maxDepth ps, neededLimit_eq_maxDepth,
    fun m => ⟨fun d hd => ?_, ?_⟩⟩
  · exact Expander.run_eq_error_iff.2 (findSome?_offence?_of_lt hd)
  · have hfirst : ∀ d, neededLimit (nodesOf ps) ≤ d → firstOffence? d ps =
        ((nodesOf ps).find? (·.policy.unsupported)).map fun n => .unsupportedKind n.policy.kind :=
      fun d hd => findSome?_offence?_of_le hd
    cases hfind : (nodesOf ps).find? (·.policy.unsupported) with
    | none =>
      rw [hfind, Option.map_none] at hfirst
      exact ⟨_, fun d hd => by rw [Expander.expandAll, Expander.run_eq, hfirst d hd]; rfl,
        .inl ⟨_, rfl⟩⟩
    | some n =>
      rw [hfind, Option.map_some] at hfirst
      exact ⟨_, fun d hd => Expander.run_eq_error_iff.2 (hfirst d hd), .inr ⟨_, rfl⟩⟩

/-- An empty list in front of a contract is what decides, however deep the policy is behind the
contract. Without the contract the depth decides. -/
theorem expandAll_sharp_limit_contract :
    let ps : List Policy := [.allOf [.allOf [], .contract 5, .allOf [.threshold 1 []]]]
    let qs : List Policy := [.allOf [.allOf [], .allOf [.threshold 1 []]]]
    (Expander.expandAll ⟨1⟩ ps ∅ = .error (.depthExceeded 1) ∧
      ∀ d, 2 ≤ d → Expander.expandAll ⟨d⟩ ps ∅ = .error (.unsupportedKind .contractId)) ∧
    (∀ n ∈ nodesOf qs, ¬ n.Unsupported) ∧
      Expander.expandAll ⟨2⟩ qs ∅ = .error (.depthExceeded 2) := by
  intro ps qs
  refine ⟨⟨rfl, fun d hd => ?_⟩, ?_⟩
  · obtain ⟨c, -, -, h⟩ := expandAll_sharp_limit ps
    obtain ⟨hbelow, outcome, habove, -⟩ := h ∅
    have hcontract : Expander.expandAll ⟨2⟩ ps ∅ = .error (.unsupportedKind .contractId) := rfl
    have hc : c ≤ 2 := by
      by_contra hlt
      rw [hbelow 2 (Nat.not_le.1 hlt)] at hcontract
      cases hcontract
    rw [habove d (Nat.le_trans hc hd), ← habove 2 hc, hcontract]
  · obtain ⟨c, -, hdepth, h⟩ := expandAll_sharp_limit qs
    have hsupported : ∀ n ∈ nodesOf qs, ¬ n.Unsupported := by decide
    have hc : c = 3 := hdepth hsupported
    exact ⟨hsupported, (h ∅).1 2 (hc ▸ by decide)⟩

end KeyPolicy
