import KeyPolicy.Policy.Satisfaction
import KeyPolicy.Proofs.Service

/-!
# What authorization means

`Policy.Authorized` says on the tree itself when a policy is met, given which keys have signed. It
knows nothing of expansions, sets of pairs or verifiers.

The service goes another way: it expands the policy into candidates, keeps those that the verifier
accepts, and evaluates the policy by looking its keys up among what is left. Nothing is lost or
mixed up on this way, since a candidate stays with its key: a leaf finds a verified pair under its
key exactly when one of the signatures that match this key was accepted for it
(`hasKey_filter_iff`). From there on the evaluator and `Authorized` agree node by node
(`satisfiedBy_iff_authorized`).
-/

namespace KeyPolicy

open Policy

namespace Policy

/-- The policy is met when the keys that satisfy `signed` have signed. -/
inductive Authorized (signed : PublicKey → Prop) : Policy → Prop
  | key {k : PublicKey} : signed k → Authorized signed (.key k)
  | allOf {cs : List Policy} : (∀ c ∈ cs, Authorized signed c) → Authorized signed (.allOf cs)
  /-- Some of the children, chosen by position, are met and are as many as asked for. -/
  | threshold {m : UInt32} {cs chosen : List Policy} : chosen.Sublist cs →
      m.toNat ≤ chosen.length → (∀ c ∈ chosen, Authorized signed c) →
      Authorized signed (.threshold m cs)

variable {signed : PublicKey → Prop}

theorem authorized_key_iff {k : PublicKey} : Authorized signed (key k) ↔ signed k := by
  refine ⟨fun h => ?_, .key⟩
  cases h with
  | key h => exact h

theorem authorized_allOf_iff {cs : List Policy} :
    Authorized signed (allOf cs) ↔ ∀ c ∈ cs, Authorized signed c := by
  refine ⟨fun h => ?_, .allOf⟩
  cases h with
  | allOf h => exact h

theorem authorized_threshold_iff {m : UInt32} {cs : List Policy} :
    Authorized signed (threshold m cs) ↔
      ∃ chosen : List Policy, chosen.Sublist cs ∧ m.toNat ≤ chosen.length ∧
        ∀ c ∈ chosen, Authorized signed c := by
  refine ⟨fun h => ?_, fun h => ?_⟩
  · cases h with
    | threshold hsub hlen hall => exact ⟨_, hsub, hlen, hall⟩
  · obtain ⟨_, hsub, hlen, hall⟩ := h
    exact .threshold hsub hlen hall

theorem not_authorized_of_unsupported {p : Policy} (h : p.unsupported = true) :
    ¬ Authorized signed p := by
  intro hp
  cases hp <;> cases h

/-! ## The evaluator -/

theorem le_countP_iff {α : Type} {q : α → Bool} {l : List α} {n : Nat} :
    n ≤ l.countP q ↔ ∃ chosen : List α, chosen.Sublist l ∧ n ≤ chosen.length ∧
      ∀ a ∈ chosen, q a = true := by
  refine ⟨fun h => ?_, fun h => ?_⟩
  · refine ⟨l.filter q, List.filter_sublist, ?_, fun a ha => (List.mem_filter.1 ha).2⟩
    rwa [← List.countP_eq_length_filter]
  · obtain ⟨chosen, hsub, hlen, hall⟩ := h
    calc n ≤ chosen.length := hlen
      _ = chosen.countP q := (List.countP_eq_length.2 hall).symm
      _ ≤ l.countP q := hsub.countP_le

/-- The evaluator finds a policy satisfied exactly when it is met by the keys of verified pairs.
Only the keys of the policy itself matter. -/
theorem satisfiedBy_iff_authorized {verified : ResolvedSet} {p : Policy}
    (h : ∀ k ∈ p.leaves, (verified.hasKey k = true ↔ signed k)) :
    p.satisfiedBy verified = true ↔ Authorized signed p := by
  -- A child's leaves are leaves of the node, so each child inherits `h`.
  have hchild : ∀ {cs : List Policy}, (∀ k ∈ leavesOf cs, (verified.hasKey k = true ↔ signed k)) →
      ∀ c ∈ cs, ∀ k ∈ c.leaves, (verified.hasKey k = true ↔ signed k) := by
    intro cs hcs c hc k hk
    exact hcs k (leavesOf_eq_flatMap cs ▸ List.mem_flatMap.2 ⟨c, hc, hk⟩)
  induction p using Policy.induction with
  | key k =>
    rw [satisfiedBy, authorized_key_iff]
    exact h k List.mem_cons_self
  | allOf cs ih =>
    rw [satisfiedBy, allSatisfiedBy_eq_all, List.all_eq_true, authorized_allOf_iff]
    exact forall₂_congr fun c hc => ih c hc (hchild h c hc)
  | threshold m cs ih =>
    rw [satisfiedBy, decide_eq_true_iff, satisfiedCount_eq_countP, le_countP_iff,
      authorized_threshold_iff]
    refine exists_congr fun chosen => and_congr_right fun hsub => and_congr_right fun _ => ?_
    exact forall₂_congr fun c hc => ih c (hsub.subset hc) (hchild h c (hsub.subset hc))
  | contract _ | delegatableContract _ | rsa3072 _ | ecdsaP384 _ =>
    exact iff_of_false Bool.false_ne_true (not_authorized_of_unsupported rfl)

end Policy

/-! ## The service -/

/-- Some pair of the map may belong to the key, and the verifier accepts its signature for it. -/
def SignatureMap.Signed (m : SignatureMap) (accepts : Algorithm → Bytes → Bytes → Bytes → Bool)
    (digest : Bytes) (k : PublicKey) : Prop :=
  ∃ q ∈ m.pairs, q.algorithm = k.algorithm ∧ q.keyPrefix <+: k.bytes ∧
    accepts k.algorithm k.bytes q.signature digest = true

/-- A leaf is found among the verified pairs exactly when one of the signatures that match it was
accepted for it. -/
theorem hasKey_filter_iff {e : Expander} {ps : List Policy} {m : SignatureMap} {found : ResolvedSet}
    (h : e.expandAll ps m = .ok found) (accepts : Algorithm → Bytes → Bytes → Bytes → Bool)
    (digest : Bytes) {k : PublicKey} (hk : k ∈ leavesOf ps) :
    ResolvedSet.hasKey (found.filter fun r =>
      accepts r.key.algorithm r.key.bytes r.signature digest) k = true ↔
      m.Signed accepts digest k := by
  rw [ResolvedSet.hasKey_iff]
  refine ⟨fun hr => ?_, fun hq => ?_⟩
  · obtain ⟨r, hr, rfl⟩ := hr
    obtain ⟨hfound, hacc⟩ := OrderedSet.mem_filter.1 hr
    obtain ⟨-, q, hq, ha, hp, hsig⟩ := (Expander.mem_of_expandAll_eq_ok h).1 hfound
    exact ⟨q, hq, ha, hp, hsig ▸ hacc⟩
  · obtain ⟨q, hq, ha, hp, hacc⟩ := hq
    refine ⟨k.resolve q.signature, OrderedSet.mem_filter.2 ⟨?_, hacc⟩, rfl⟩
    exact (Expander.mem_of_expandAll_eq_ok h).2 ⟨hk, q, hq, ha, hp, rfl⟩

/-- **What authorization decides.** Under any configuration, a supported policy within the depth
limit is authorized exactly when it is met by the keys for which the verifier accepts a signature
that may be theirs. Any other policy gets the error of its expansion, and no decision. -/
theorem authorize_value (s : Service) (p : Policy) (m : SignatureMap) (digest : Bytes)
    (accepts : Algorithm → Bytes → Bytes → Bytes → Bool) :
    let answer := (s.authorize (Transcript.surroundings
      (fun r digest => accepts r.key.algorithm r.key.bytes r.signature digest)
      (fun p verified => p.satisfiedBy verified)) p m digest).value
    (p.Supported ∧ p.depth ≤ s.config.maxKeyDepth.toNat →
      ∃ b, answer = .ok b ∧ (b = true ↔ p.Authorized (m.Signed accepts digest))) ∧
    (¬ (p.Supported ∧ p.depth ≤ s.config.maxKeyDepth.toNat) →
      ∃ err, s.expander.expand p m = .error err ∧ answer = .error err) := by
  intro answer
  refine ⟨fun hp => ?_, fun hp => ?_⟩
  · have hnone : firstOffence? s.expander.maxDepth [p] = none :=
      firstOffence?_singleton_eq_none_iff.2 hp
    obtain ⟨found, h⟩ : ∃ found, s.expander.expand p m = .ok found :=
      Expander.exists_run_eq_ok_iff.2 hnone
    refine ⟨_, congrArg Transcript.value (Service.authorize_of_ok _ _ s h digest), ?_⟩
    apply satisfiedBy_iff_authorized
    intro k hk
    have hleaf : k ∈ leavesOf [p] := by simpa [leavesOf] using hk
    exact hasKey_filter_iff h accepts digest hleaf
  · have hsome : firstOffence? s.expander.maxDepth [p] ≠ none := by
      intro hnone
      exact hp (firstOffence?_singleton_eq_none_iff.1 hnone)
    obtain ⟨err, h⟩ : ∃ err, s.expander.expand p m = .error err :=
      Expander.exists_run_eq_error_iff.2 hsome
    exact ⟨err, h, congrArg Transcript.value (Service.authorize_of_error _ _ s h digest)⟩

/-- Two of three, where one key has a bad and a good signature, one has none, and the third child is
empty. -/
theorem authorize_value_two_of_three :
    let p : Policy := .threshold 2 [.key (.ofByte 1), .key (.ofByte 2), .allOf []]
    let m : SignatureMap := ⟨[⟨.ed25519, [], [7]⟩, ⟨.ed25519, [1], [8]⟩]⟩
    let accepts := fun (_ : Algorithm) (bytes signature digest : Bytes) =>
      bytes.head? == some 1 && signature == [8] && digest == [3]
    (p.Supported ∧ p.depth ≤ (Service.mk ⟨2, 0⟩).config.maxKeyDepth.toNat) ∧
      (Service.authorize ⟨⟨2, 0⟩⟩ (Transcript.surroundings
        (fun r digest => accepts r.key.algorithm r.key.bytes r.signature digest)
        (fun p verified => p.satisfiedBy verified)) p m [3]).value = .ok true := by
  intro p m accepts
  have hp : p.Supported ∧ p.depth ≤ (Service.mk ⟨2, 0⟩).config.maxKeyDepth.toNat := by decide
  obtain ⟨b, hb, hiff⟩ := (authorize_value ⟨⟨2, 0⟩⟩ p m [3] accepts).1 hp
  have hsigned : m.Signed accepts [3] (.ofByte 1) := ⟨_, .tail _ (.head _), by decide⟩
  have hauth : p.Authorized (m.Signed accepts [3]) := by
    have hsub : [.key (.ofByte 1), .allOf []].Sublist
        [Policy.key (.ofByte 1), .key (.ofByte 2), .allOf []] := by decide
    refine .threshold hsub (by decide) fun c hc => ?_
    rcases List.mem_pair.1 hc with rfl | rfl
    · exact .key hsigned
    · exact .allOf fun c hc => absurd hc List.not_mem_nil
  exact ⟨hp, hb.trans (congrArg Except.ok (hiff.2 hauth))⟩

end KeyPolicy
