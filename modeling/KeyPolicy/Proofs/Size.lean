import Mathlib.Algebra.Order.BigOperators.Group.Finset
import KeyPolicy.Proofs.Index

/-!
# How many pairs an expansion finds

The number of pairs is known without an expansion: each distinct leaf of the policies counts once
for each distinct signature among the pairs of the map that match it.

**Theorem (`expandAll_size`).** This is the size of the set that an expansion finds, on either way
of searching the map. It is at most the number of leaves times the number of pairs, and that many
are found when nothing is repeated and every pair matches every leaf.

The set is split by key. The part of a key that is a leaf is the key with each of its signatures
(`filter_key_eq_image`), and a key with two signatures gives two pairs, so no count is too low.
Equal signatures of different keys are in different parts, so none is too high.
-/

namespace KeyPolicy

open Policy

/-! ## The signatures of a key -/

/-- The distinct signatures of the pairs that match a key. -/
def SignatureMap.signaturesFor (m : SignatureMap) (k : PublicKey) : Finset Bytes :=
  ((m.pairs.filter fun q => q.algorithm = k.algorithm ∧ q.keyPrefix <+: k.bytes).map
    (·.signature)).toFinset

section

variable {m : SignatureMap} {k : PublicKey}

theorem SignatureMap.mem_signaturesFor {signature : Bytes} :
    signature ∈ m.signaturesFor k ↔ ∃ q ∈ m.pairs, q.algorithm = k.algorithm ∧
      q.keyPrefix <+: k.bytes ∧ q.signature = signature := by
  simp [signaturesFor, and_assoc]

theorem SignatureMap.card_signaturesFor_le (m : SignatureMap) (k : PublicKey) :
    (m.signaturesFor k).card ≤ m.size := by
  refine (List.toFinset_card_le _).trans ?_
  rw [List.length_map]
  exact List.length_filter_le ..

/-- Without leading bytes every pair of the key's algorithm matches. -/
theorem SignatureMap.card_signaturesFor_of_empty_prefixes
    (hm : ∀ q ∈ m.pairs, q.algorithm = k.algorithm ∧ q.keyPrefix = [])
    (hdistinct : (m.pairs.map (·.signature)).Nodup) : (m.signaturesFor k).card = m.size := by
  have hall : m.pairs.filter (fun q => q.algorithm = k.algorithm ∧ q.keyPrefix <+: k.bytes) =
      m.pairs := by
    refine List.filter_eq_self.2 fun q hq => decide_eq_true ?_
    obtain ⟨ha, hstart⟩ := hm q hq
    exact ⟨ha, hstart ▸ List.nil_prefix⟩
  rw [signaturesFor, hall, List.toFinset_card_of_nodup hdistinct, List.length_map, size]

end

/-! ## One key after the other -/

namespace Expander

variable {e : Expander} {ps : List Policy} {m : SignatureMap} {found : ResolvedSet}

/-- The pairs of a leaf are the leaf with each signature that matches it. -/
theorem filter_key_eq_image (h : e.expandAll ps m = .ok found) {k : PublicKey}
    (hk : k ∈ leavesOf ps) :
    found.toList.toFinset.filter (·.key = k) = (m.signaturesFor k).image k.resolve := by
  ext r
  rw [Finset.mem_filter, List.mem_toFinset, OrderedSet.mem_toList,
    mem_of_expandAll_eq_ok h, Finset.mem_image]
  constructor
  · rintro ⟨⟨-, hmatch⟩, rfl⟩
    exact ⟨r.signature, SignatureMap.mem_signaturesFor.2 hmatch, ResolvedPair.ext rfl rfl⟩
  · rintro ⟨signature, hmatch, rfl⟩
    exact ⟨⟨hk, SignatureMap.mem_signaturesFor.1 hmatch⟩, rfl⟩

theorem size_eq_sum (h : e.expandAll ps m = .ok found) :
    found.size = ∑ k ∈ (leavesOf ps).toFinset, (m.signaturesFor k).card := by
  have hleaf : ∀ r ∈ found.toList.toFinset, r.key ∈ (leavesOf ps).toFinset := by
    intro r hr
    exact List.mem_toFinset.2
      ((mem_of_expandAll_eq_ok h).1 (List.mem_toFinset.1 hr)).1
  have hinjective : ∀ k : PublicKey, Function.Injective k.resolve := fun k _ _ hsame =>
    (ResolvedPair.resolve_inj.1 hsame).2
  calc found.size
      = found.toList.toFinset.card := (List.toFinset_card_of_nodup found.nodup_toList).symm
    _ = ∑ k ∈ (leavesOf ps).toFinset, (found.toList.toFinset.filter (·.key = k)).card :=
        Finset.card_eq_sum_card_fiberwise hleaf
    _ = ∑ k ∈ (leavesOf ps).toFinset, (m.signaturesFor k).card := by
        refine Finset.sum_congr rfl fun k hk => ?_
        rw [filter_key_eq_image h (List.mem_toFinset.1 hk),
          Finset.card_image_of_injective _ (hinjective k)]

/-- What bounds the signatures of each leaf bounds the pairs of all distinct leaves. -/
theorem size_le_card_mul (h : e.expandAll ps m = .ok found) {n : Nat}
    (hn : ∀ k ∈ leavesOf ps, (m.signaturesFor k).card ≤ n) :
    found.size ≤ (leavesOf ps).toFinset.card * n := by
  rw [size_eq_sum h]
  exact Finset.sum_le_card_nsmul _ _ n fun k hk => hn k (List.mem_toFinset.1 hk)

/-- An expansion finds at most one pair for each leaf and each signature. -/
theorem size_le (h : e.expandAll ps m = .ok found) : found.size ≤ leafCountOf ps * m.size := by
  have hleaves : (leavesOf ps).toFinset.card ≤ leafCountOf ps := by
    rw [leafCount_eq_length.2]
    exact List.toFinset_card_le _
  calc found.size
      ≤ (leavesOf ps).toFinset.card * m.size :=
        size_le_card_mul h fun k _ => m.card_signaturesFor_le k
    _ ≤ leafCountOf ps * m.size := Nat.mul_le_mul_right _ hleaves

theorem size_expand_le {p : Policy} (h : e.expand p m = .ok found) :
    found.size ≤ p.leafCount * m.size := by
  have hsize : found.size ≤ leafCountOf [p] * m.size := size_le h
  rwa [leafCountOf, leafCountOf, Nat.add_zero] at hsize

end Expander

/-! ## Bounds -/

/-- **How many pairs an expansion finds.** For each distinct leaf it finds as many pairs as distinct
signatures match the leaf, whether the map is searched through an index or not. So it finds no more
than the number of leaves times the number of pairs, and no more than there are distinct leaves if
at most one signature matches each. It finds as many as leaves times pairs if the leaves are
distinct and of one algorithm, and the pairs have this algorithm, no leading bytes and distinct
signatures. -/
theorem expandAll_size {d : Nat} {ps : List Policy} {m : SignatureMap} {found : ResolvedSet}
    (h : Expander.expandAll ⟨d⟩ ps m = .ok found ∨
      Expander.expandIndexed ⟨d⟩ ps (.build m) = .ok found) :
    found.size = ∑ k ∈ (leavesOf ps).toFinset, (m.signaturesFor k).card ∧
    found.size ≤ leafCountOf ps * m.size ∧
    ((∀ k ∈ leavesOf ps, (m.signaturesFor k).card ≤ 1) →
      found.size ≤ (leavesOf ps).toFinset.card) ∧
    ∀ a, (leavesOf ps).Nodup → (∀ k ∈ leavesOf ps, k.algorithm = a) →
      (∀ q ∈ m.pairs, q.algorithm = a ∧ q.keyPrefix = []) →
      (m.pairs.map (·.signature)).Nodup → found.size = leafCountOf ps * m.size := by
  have hfound : Expander.expandAll ⟨d⟩ ps m = .ok found := by
    rcases h with h | h
    · exact h
    · rwa [Expander.expandIndexed_build] at h
  have hsum := Expander.size_eq_sum hfound
  have hleaves : leafCountOf ps = (leavesOf ps).length := leafCount_eq_length.2 ps
  refine ⟨hsum, Expander.size_le hfound, fun hone => ?_, fun a hdistinct ha hm hsignatures => ?_⟩
  · simpa using Expander.size_le_card_mul hfound hone
  -- Without leading bytes every pair matches every leaf, so nothing is left out of the sum.
  · have hcard : ∀ k ∈ (leavesOf ps).toFinset, (m.signaturesFor k).card = m.size := by
      intro k hk
      have hk := ha k (List.mem_toFinset.1 hk)
      exact SignatureMap.card_signaturesFor_of_empty_prefixes (hk ▸ hm) hsignatures
    rw [hsum, Finset.sum_const_nat hcard, List.toFinset_card_of_nodup hdistinct, hleaves]

/-- In the first case a leaf stands in two subtrees, a pair is given twice and a signature belongs
to two leaves. In the second, one signature matches both leaves. -/
theorem expandAll_size_overlapping :
    let one : Policy := .key (.ofByte 1)
    let two : Policy := .key (.ofByte 2)
    let m : SignatureMap := ⟨[⟨.ed25519, [], [7]⟩, ⟨.ed25519, [2, 2], [7]⟩, ⟨.ed25519, [], [7]⟩,
      ⟨.ed25519, [1], [8]⟩]⟩
    (∃ found, Expander.expandAll ⟨2⟩ [.threshold 1 [one, .allOf [two, one]], two] m = .ok found ∧
      found.size = 3) ∧
    ∃ found, Expander.expandIndexed ⟨1⟩ [.allOf [one, two]] (.build ⟨[⟨.ed25519, [], [7]⟩]⟩) =
        .ok found ∧ found.size = 2 ∧
      found.size ≤ [PublicKey.ofByte 1, .ofByte 2].toFinset.card := by
  intro one two m
  constructor
  · obtain ⟨found, h⟩ : ∃ found, Expander.expandAll ⟨2⟩
        [.threshold 1 [one, .allOf [two, one]], two] m = .ok found := ⟨_, rfl⟩
    exact ⟨found, h, (expandAll_size (.inl h)).1.trans (by decide)⟩
  · obtain ⟨found, h⟩ : ∃ found, Expander.expandIndexed ⟨1⟩ [.allOf [one, two]]
        (.build ⟨[⟨.ed25519, [], [7]⟩]⟩) = .ok found := by
      rw [Expander.expandIndexed_build]
      exact ⟨_, rfl⟩
    obtain ⟨-, -, hone, hall⟩ := expandAll_size (.inr h)
    exact ⟨found, h, hall .ed25519 (by decide) (by decide) (by decide) (by decide),
      hone (by decide)⟩

end KeyPolicy
