import KeyPolicy.Proofs.Triples

/-!
# Signatures that name their key in full

Such a signature is resolved in two ways. Without any policy, its leading bytes are checked as a
key. With a policy, they are compared with the leading bytes of each leaf.

**Theorem (`expandFullPrefixes_agrees`).** For signatures whose leading bytes are as long as a key,
expanding a policy finds those of the first way whose key is a leaf of the policy. Expanding the
keys that the signatures name finds all of them.

Every leaf is an admissible key. So leading bytes of a leaf that are as long as a key are the whole
leaf (`SignaturePair.full_matches_iff`), and leading bytes that are no admissible key are those of
no leaf. From there on both ways look for the same pairs.
-/

namespace KeyPolicy

open Policy

/-! ## Leading bytes as long as a key -/

theorem SignaturePair.full_matches_iff {q : SignaturePair} {k : PublicKey} :
    q.isFullPrefix = true ∧ q.algorithm = k.algorithm ∧ q.keyPrefix <+: k.bytes ↔
      q.algorithm = k.algorithm ∧ q.keyPrefix = k.bytes := by
  rw [isFullPrefix, beq_iff_eq]
  constructor
  · rintro ⟨hlen, ha, hstart⟩
    have hsame : q.keyPrefix.length = k.bytes.length := by rw [hlen, ha, k.admissible.1]
    exact ⟨ha, hstart.eq_of_length hsame⟩
  · rintro ⟨ha, hb⟩
    exact ⟨by rw [hb, ha, k.admissible.1], ha, hb ▸ List.prefix_refl _⟩

namespace SignatureMap

variable {m : SignatureMap}

/-- The pairs whose leading bytes are as long as a key of their algorithm. -/
def fullPairs (m : SignatureMap) : SignatureMap := ⟨m.pairs.filter (·.isFullPrefix)⟩

/-- The keys that these pairs name. Leading bytes that are no admissible key are passed over. -/
def fullKeys (m : SignatureMap) : List PublicKey :=
  m.fullPairs.pairs.filterMap fun q => (PublicKey.ofBytes q.algorithm q.keyPrefix).toOption

/-- The pairs whose leading bytes are an admissible key. -/
def admissiblePairs (m : SignatureMap) : SignatureMap :=
  ⟨m.pairs.filter fun q => Admissible q.algorithm q.keyPrefix⟩

theorem mem_fullKeys {k : PublicKey} :
    k ∈ m.fullKeys ↔ ∃ q ∈ m.pairs, q.algorithm = k.algorithm ∧ q.keyPrefix = k.bytes := by
  have hok : ∀ q : SignaturePair,
      (PublicKey.ofBytes q.algorithm q.keyPrefix).toOption = some k ↔
        q.algorithm = k.algorithm ∧ q.keyPrefix = k.bytes := by
    intro q
    rw [eq_comm (a := q.algorithm), eq_comm (a := q.keyPrefix), ← PublicKey.ofBytes_eq_ok_iff]
    cases PublicKey.ofBytes q.algorithm q.keyPrefix <;> simp [Except.toOption]
  simp only [fullKeys, fullPairs, List.mem_filterMap, List.mem_filter, hok, and_assoc]
  refine exists_congr fun q => and_congr_right fun _ => and_iff_right_of_imp fun h => ?_
  exact (SignaturePair.full_matches_iff.2 h).1

theorem mem_expandFullPrefixes {r : ResolvedPair} : r ∈ m.expandFullPrefixes ↔
    ∃ q ∈ m.pairs, q.algorithm = r.key.algorithm ∧ q.keyPrefix = r.key.bytes ∧
      q.signature = r.signature := by
  rw [expandFullPrefixes, OrderedSet.mem_ofList, List.mem_filterMap]
  refine exists_congr fun q => and_congr_right fun _ => ?_
  rw [SignaturePair.resolveFull?_eq_some_iff, ResolvedPair.triple, Prod.mk.injEq, Prod.mk.injEq]
  refine and_iff_right_of_imp ?_
  rintro ⟨ha, hb, -⟩
  exact ha ▸ hb ▸ r.key.admissible

theorem expandFullPrefixes_admissiblePairs (m : SignatureMap) :
    m.admissiblePairs.expandFullPrefixes = m.expandFullPrefixes := by
  ext r
  rw [mem_expandFullPrefixes, mem_expandFullPrefixes]
  refine exists_congr fun q => ?_
  rw [admissiblePairs, List.mem_filter, and_assoc]
  refine and_congr_right fun _ => and_iff_right_of_imp fun h => ?_
  exact decide_eq_true (h.1 ▸ h.2.1 ▸ r.key.admissible)

/-- Where pairs with an admissible key are looked up, the other pairs do not matter. -/
theorem mem_candidates_admissiblePairs {k : PublicKey} {q : SignaturePair} :
    q ∈ m.admissiblePairs.candidates k ↔ q ∈ m.fullPairs.candidates k := by
  simp only [mem_candidates, admissiblePairs, fullPairs, List.mem_filter, decide_eq_true_eq,
    and_assoc]
  refine and_congr_right fun _ => ⟨fun h => ⟨beq_iff_eq.2 h.1.1, h.2⟩, fun h => ⟨?_, h.2⟩⟩
  obtain ⟨ha, hb⟩ := SignaturePair.full_matches_iff.1 h
  exact ha ▸ hb ▸ k.admissible

end SignatureMap

/-! ## Policies of single keys -/

theorem leavesOf_map_key (ks : List PublicKey) : leavesOf (ks.map .key) = ks := by
  rw [leavesOf_eq_flatMap, List.flatMap_map]
  exact List.flatMap_singleton' ks

/-- A single key is within every limit. -/
theorem firstOffence?_map_key (d : Nat) (ks : List PublicKey) :
    firstOffence? d (ks.map .key) = none := by
  rw [firstOffence?_eq_none_iff]
  intro n hn
  obtain ⟨p, hp, hnode⟩ := mem_nodesOf.1 hn
  obtain ⟨k, -, rfl⟩ := List.mem_map.1 hp
  obtain rfl := List.mem_singleton.1 hnode
  exact ⟨fun h => Bool.false_ne_true h.1, Bool.false_ne_true⟩

/-! ## Both ways agree -/

theorem mem_of_expandAll_fullPairs {e : Expander} {ps : List Policy} {m : SignatureMap}
    {found : ResolvedSet} (h : e.expandAll ps m.fullPairs = .ok found) {r : ResolvedPair} :
    r ∈ found ↔ r ∈ m.expandFullPrefixes ∧ r.key ∈ leavesOf ps := by
  rw [Expander.mem_of_expandAll_eq_ok h, SignatureMap.mem_expandFullPrefixes, and_comm]
  refine and_congr_left fun _ => exists_congr fun q => ?_
  rw [SignatureMap.fullPairs, List.mem_filter, and_assoc]
  refine and_congr_right fun _ => ?_
  rw [← and_assoc (b := q.keyPrefix <+: _), ← and_assoc, SignaturePair.full_matches_iff, and_assoc]

/-- The keys that the signatures name find all of them, under every limit. -/
theorem expandAll_fullKeys (e : Expander) (m : SignatureMap) :
    e.expandAll (m.fullKeys.map .key) m.fullPairs = .ok m.expandFullPrefixes := by
  obtain ⟨found, h⟩ : ∃ found, e.expandAll (m.fullKeys.map .key) m.fullPairs = .ok found :=
    Expander.exists_run_eq_ok_iff.2 (firstOffence?_map_key e.maxDepth m.fullKeys)
  have hall : found = m.expandFullPrefixes := by
    ext r
    rw [mem_of_expandAll_fullPairs h, leavesOf_map_key, SignatureMap.mem_fullKeys]
    refine and_iff_left_of_imp fun hr => ?_
    obtain ⟨q, hq, ha, hb, -⟩ := SignatureMap.mem_expandFullPrefixes.1 hr
    exact ⟨q, hq, ha, hb⟩
  rw [h, hall]

/-- **Both ways agree.** An expansion with the signatures that name their key in full finds what
they resolve to without a policy, as far as the keys are leaves of the policies. Equal pairs have
equal addresses. The policies that consist of the named keys are expanded under every limit, and all
is found. Signatures whose leading bytes are not an admissible key add nothing on either way. -/
theorem expandFullPrefixes_agrees (m : SignatureMap) :
    (∀ d ps found, Expander.expandAll ⟨d⟩ ps m.fullPairs = .ok found →
      found = m.expandFullPrefixes.filter (fun r => r.key ∈ leavesOf ps) ∧
      ∀ r ∈ found, ∀ s ∈ m.expandFullPrefixes, r.triple = s.triple → r.address = s.address) ∧
    (∀ d, Expander.expandAll ⟨d⟩ (m.fullKeys.map .key) m.fullPairs = .ok m.expandFullPrefixes) ∧
    m.admissiblePairs.expandFullPrefixes = m.expandFullPrefixes ∧
    ∀ d ps,
      Expander.expandAll ⟨d⟩ ps m.admissiblePairs = Expander.expandAll ⟨d⟩ ps m.fullPairs := by
  refine ⟨fun d ps found h => ⟨?_, fun r _ s _ heq => ?_⟩, fun d => expandAll_fullKeys ⟨d⟩ m,
    m.expandFullPrefixes_admissiblePairs, fun d ps => ?_⟩
  · ext r
    rw [mem_of_expandAll_fullPairs h, OrderedSet.mem_filter, decide_eq_true_eq]
  · rw [ResolvedPair.triple_injective heq]
  · exact Expander.run_congr fun k q => SignatureMap.mem_candidates_admissiblePairs

/-- Of two keys that are named in full one is a leaf. Some leading bytes are too short, and some
have the length of a key and a bad tag. -/
theorem expandFullPrefixes_agrees_one_leaf :
    let m : SignatureMap := ⟨[⟨.ed25519, List.replicate 32 4, [7]⟩, ⟨.ed25519, [4], [8]⟩,
      ⟨.ecdsaSecp256k1, List.replicate 33 4, [9]⟩, ⟨.ed25519, List.replicate 32 5, [10]⟩]⟩
    let ps : List Policy := [.allOf [.key (.ofByte 4), .key (.ofByte 6)]]
    ∃ found, Expander.expandAll ⟨1⟩ ps m.fullPairs = .ok found ∧
      (PublicKey.ofByte 4).resolve [7] ∈ found ∧ (PublicKey.ofByte 5).resolve [10] ∉ found ∧
      (PublicKey.ofByte 5).resolve [10] ∈ m.expandFullPrefixes := by
  intro m ps
  obtain ⟨found, h⟩ : ∃ found, Expander.expandAll ⟨1⟩ ps m.fullPairs = .ok found := ⟨_, rfl⟩
  obtain ⟨hfound, -⟩ := (expandFullPrefixes_agrees m).1 1 ps found h
  have h₄ : (PublicKey.ofByte 4).resolve [7] ∈ m.expandFullPrefixes :=
    SignatureMap.mem_expandFullPrefixes.2 ⟨_, .head _, rfl, rfl, rfl⟩
  have h₅ : (PublicKey.ofByte 5).resolve [10] ∈ m.expandFullPrefixes :=
    SignatureMap.mem_expandFullPrefixes.2 ⟨_, .tail _ (.tail _ (.tail _ (.head _))), rfl, rfl, rfl⟩
  refine ⟨found, h, ?_, ?_, h₅⟩ <;> rw [hfound, OrderedSet.mem_filter]
  · exact ⟨h₄, by decide⟩
  · exact fun hr => absurd hr.2 (by decide)

end KeyPolicy
