import Mathlib.Data.Finset.Card
import Mathlib.Data.Finset.Image
import Mathlib.Data.Finset.Prod
import KeyPolicy.Draft
import KeyPolicy.Proofs.Expansion

/-!
# Sets of pairs as finite sets of triples

A pair says three things: an algorithm, a key of it and a signature. Its address follows from the
key. So a set of pairs is as good as a finite set of triples (`ResolvedSet.triples_inj`), and what
is done to the one can be said of the other, without sorted lists and checked keys.

Drafts are triples from the start. Checking a draft of pairs keeps its triples, and passes exactly
when all keys are admissible; checking the draft of a policy gives the policy of which it is the
draft (`PolicyDraft.check_eq_ok_iff`).
-/

namespace KeyPolicy

/-- An algorithm, a key of it and a signature. -/
abbrev Triple := Algorithm × Bytes × Bytes

/-- The keys of some triples. -/
def Triple.keys (xs : Finset Triple) : Finset (Algorithm × Bytes) := xs.image fun x => (x.1, x.2.1)

/-- The key of the triple has an account address. -/
def Triple.HasAddress (x : Triple) : Prop :=
  x.1 = .ecdsaSecp256k1 ∧ (Address.ofBytes? x.2.1).isSome = true

instance : DecidablePred Triple.HasAddress := fun _ => inferInstanceAs (Decidable (_ ∧ _))

/-! ## The triples of a set -/

namespace ResolvedSet

/-- What the pairs of a set say. -/
def triples (s : ResolvedSet) : Finset Triple := (s.toList.map ResolvedPair.triple).toFinset

variable {s t : ResolvedSet} {r : ResolvedPair}

theorem mem_triples {x : Triple} : x ∈ triples s ↔ ∃ r ∈ s, r.triple = x := by
  simp [triples]

theorem triple_mem_triples : r.triple ∈ triples s ↔ r ∈ s := by
  rw [mem_triples]
  refine ⟨fun h => ?_, fun h => ⟨r, h, rfl⟩⟩
  obtain ⟨r', hr', heq⟩ := h
  exact ResolvedPair.triple_injective heq ▸ hr'

/-- No triple comes from two pairs, so none is lost. -/
theorem card_triples (s : ResolvedSet) : (triples s).card = s.size := by
  rw [triples, List.toFinset_card_of_nodup (s.nodup_toList.map ResolvedPair.triple_injective),
    List.length_map, OrderedSet.size]

theorem isEmpty_eq (s : ResolvedSet) : s.isEmpty = decide (triples s = ∅) := by
  rw [Bool.eq_iff_iff, decide_eq_true_iff, ← Finset.card_eq_zero, card_triples, OrderedSet.size,
    OrderedSet.isEmpty, List.isEmpty_iff, List.length_eq_zero_iff]

theorem triples_inj : triples s = triples t ↔ s = t := by
  refine ⟨fun h => OrderedSet.ext fun r => ?_, congrArg triples⟩
  rw [← triple_mem_triples, h, triple_mem_triples]

theorem triples_empty : triples ∅ = ∅ := rfl

theorem triples_insert (s : ResolvedSet) (r : ResolvedPair) :
    triples (s.insert r) = insert r.triple (triples s) := by
  ext x
  simp only [mem_triples, OrderedSet.mem_insert, Finset.mem_insert]
  grind

theorem triples_insertMany (s : ResolvedSet) (rs : List ResolvedPair) :
    triples (s.insertMany rs) = triples s ∪ (rs.map ResolvedPair.triple).toFinset := by
  ext x
  simp only [mem_triples, OrderedSet.mem_insertMany, Finset.mem_union, List.mem_toFinset,
    List.mem_map]
  grind

theorem triples_ofList (rs : List ResolvedPair) :
    triples (.ofList rs) = (rs.map ResolvedPair.triple).toFinset := by
  rw [OrderedSet.ofList, triples_insertMany, triples_empty, Finset.empty_union]

theorem triples_union (s t : ResolvedSet) : triples (s ∪ t) = triples s ∪ triples t :=
  triples_insertMany s t.toList

theorem triples_ofAlgorithm (s : ResolvedSet) (a : Algorithm) :
    triples (ofAlgorithm s a) = (triples s).filter (·.1 = a) := by
  ext x
  simp only [mem_triples, ofAlgorithm, OrderedSet.mem_filter, Finset.mem_filter,
    decide_eq_true_eq]
  constructor
  · rintro ⟨r, ⟨hr, ha⟩, rfl⟩
    exact ⟨⟨r, hr, rfl⟩, ha⟩
  · rintro ⟨⟨r, hr, rfl⟩, ha⟩
    exact ⟨r, ⟨hr, ha⟩, rfl⟩

theorem hasKey_iff_triples {k : PublicKey} : hasKey s k = true ↔
    ∃ signature, (k.algorithm, k.bytes, signature) ∈ triples s := by
  rw [hasKey_iff]
  constructor
  · rintro ⟨r, hr, rfl⟩
    exact ⟨r.signature, triple_mem_triples.2 hr⟩
  · rintro ⟨signature, h⟩
    exact ⟨k.resolve signature, triple_mem_triples.1 h, rfl⟩

theorem isSome_address_iff : r.address.isSome = true ↔ Triple.HasAddress r.triple := by
  rw [r.address_eq, PublicKey.address?, Triple.HasAddress, ResolvedPair.triple]
  cases r.key.algorithm <;> simp

theorem addressCount_eq (s : ResolvedSet) :
    addressCount s = ((triples s).filter Triple.HasAddress).card := by
  have hfilter : (triples s).filter Triple.HasAddress =
      triples (s.filter (·.address.isSome)) := by
    ext x
    simp only [Finset.mem_filter, mem_triples, OrderedSet.mem_filter, isSome_address_iff]
    constructor
    · rintro ⟨⟨r, hr, rfl⟩, hx⟩
      exact ⟨r, ⟨hr, hx⟩, rfl⟩
    · rintro ⟨r, ⟨hr, hx⟩, rfl⟩
      exact ⟨⟨r, hr, rfl⟩, hx⟩
  rw [hfilter, card_triples, addressCount, List.countP_eq_length_filter]
  rfl

theorem keys_triples (s : ResolvedSet) : Triple.keys (triples s) =
    ((publicKeys s).toList.map fun k => (k.algorithm, k.bytes)).toFinset := by
  ext key
  simp only [Triple.keys, Finset.mem_image, mem_triples, List.mem_toFinset, List.mem_map,
    OrderedSet.mem_toList, mem_publicKeys]
  constructor
  · rintro ⟨x, ⟨r, hr, rfl⟩, rfl⟩
    exact ⟨r.key, ⟨r, hr, rfl⟩, rfl⟩
  · rintro ⟨k, ⟨r, hr, rfl⟩, rfl⟩
    exact ⟨r.triple, ⟨r, hr, rfl⟩, rfl⟩

theorem hasKey_eq (s : ResolvedSet) (k : PublicKey) :
    hasKey s k = decide ((k.algorithm, k.bytes) ∈ Triple.keys (triples s)) := by
  rw [Bool.eq_iff_iff, decide_eq_true_iff, hasKey_iff_triples, Triple.keys, Finset.mem_image]
  constructor
  · rintro ⟨signature, h⟩
    exact ⟨_, h, rfl⟩
  · rintro ⟨⟨a, bytes, signature⟩, hx, heq⟩
    cases heq
    exact ⟨signature, hx⟩

end ResolvedSet

/-! ## Drafts -/

theorem map_eq_ok_iff {ε α β : Type} {f : α → β} {x : Except ε α} {b : β} :
    x.map f = .ok b ↔ ∃ a, x = .ok a ∧ f a = b := by
  cases x <;> simp [Except.map]

namespace PairDraft

def triple (d : PairDraft) : Triple := (d.key.algorithm, d.key.bytes, d.signature)

/-- The bytes of the draft fit its algorithm. -/
def Admissible (d : PairDraft) : Prop := KeyPolicy.Admissible d.key.algorithm d.key.bytes

instance (d : PairDraft) : Decidable d.Admissible :=
  inferInstanceAs (Decidable (KeyPolicy.Admissible ..))

theorem check_eq_ok_iff {d : PairDraft} {r : ResolvedPair} :
    d.check = .ok r ↔ d.Admissible ∧ r.triple = d.triple := by
  rw [check, map_eq_ok_iff]
  constructor
  · rintro ⟨k, hk, rfl⟩
    obtain ⟨ha, hb⟩ := PublicKey.ofBytes_eq_ok_iff.1 hk
    rw [Admissible, triple, ← ha, ← hb]
    exact ⟨k.admissible, rfl⟩
  · rintro ⟨hd, hr⟩
    exact ⟨⟨_, _, hd⟩, dif_pos hd, ResolvedPair.triple_injective hr.symm⟩

theorem exists_check_eq_ok {d : PairDraft} (hd : d.Admissible) : ∃ r, d.check = .ok r :=
  ⟨PublicKey.resolve ⟨_, _, hd⟩ d.signature, check_eq_ok_iff.2 ⟨hd, rfl⟩⟩

theorem mem_iff_of_check {d : PairDraft} {r : ResolvedPair} (h : d.check = .ok r)
    (s : ResolvedSet) : r ∈ s ↔ d.triple ∈ ResolvedSet.triples s := by
  rw [← (check_eq_ok_iff.1 h).2, ResolvedSet.triple_mem_triples]

theorem checkAll_cons_eq_ok_iff {d : PairDraft} {ds : List PairDraft} {rs : List ResolvedPair} :
    checkAll (d :: ds) = .ok rs ↔
      ∃ r rs', d.check = .ok r ∧ checkAll ds = .ok rs' ∧ rs = r :: rs' := by
  rw [checkAll]
  cases d.check with
  | error e => simp [bind, Except.bind]
  | ok r => cases checkAll ds <;> simp [bind, Except.bind, pure, Except.pure, eq_comm]

theorem checkAll_eq_ok_iff {ds : List PairDraft} {rs : List ResolvedPair} :
    checkAll ds = .ok rs ↔
      (∀ d ∈ ds, d.Admissible) ∧ rs.map ResolvedPair.triple = ds.map triple := by
  induction ds generalizing rs with
  | nil => simp [checkAll, eq_comm]
  | cons d ds ih =>
    simp only [checkAll_cons_eq_ok_iff, check_eq_ok_iff, ih, List.forall_mem_cons, List.map_cons]
    constructor
    · rintro ⟨r, rs', ⟨hd, hr⟩, ⟨hds, hrs⟩, rfl⟩
      exact ⟨⟨hd, hds⟩, by rw [List.map_cons, hr, hrs]⟩
    · rintro ⟨⟨hd, hds⟩, hmap⟩
      obtain ⟨r, rs', rfl, hr, hrs⟩ := List.map_eq_cons_iff.1 hmap
      exact ⟨r, rs', ⟨hd, hr⟩, ⟨hds, hrs⟩, rfl⟩

/-- Pairs with admissible keys pass the check. -/
theorem exists_checkAll_eq_ok {ds : List PairDraft} (h : ∀ d ∈ ds, d.Admissible) :
    ∃ rs, checkAll ds = .ok rs := by
  induction ds with
  | nil => exact ⟨[], rfl⟩
  | cons d ds ih =>
    obtain ⟨hd, hds⟩ := List.forall_mem_cons.1 h
    obtain ⟨r, hr⟩ := exists_check_eq_ok hd
    obtain ⟨rs, hrs⟩ := ih hds
    exact ⟨_, checkAll_cons_eq_ok_iff.2 ⟨r, rs, hr, hrs, rfl⟩⟩

end PairDraft

mutual

/-- The draft of a policy, with the bytes of its keys unchecked. -/
def Policy.draft : Policy → PolicyDraft
  | .key k => .key ⟨k.algorithm, k.bytes⟩
  | .allOf cs => .allOf (Policy.drafts cs)
  | .threshold m cs => .threshold m (Policy.drafts cs)
  | .contract n => .contract n
  | .delegatableContract n => .delegatableContract n
  | .rsa3072 bs => .rsa3072 bs
  | .ecdsaP384 bs => .ecdsaP384 bs

def Policy.drafts : List Policy → List PolicyDraft
  | [] => []
  | c :: cs => c.draft :: Policy.drafts cs

end

namespace PolicyDraft

mutual

/-- The unchecked keys of a policy, from left to right. -/
def leaves : PolicyDraft → List KeyDraft
  | key d => [d]
  | allOf ds => leavesOf ds
  | threshold _ ds => leavesOf ds
  | _ => []

def leavesOf : List PolicyDraft → List KeyDraft
  | [] => []
  | d :: ds => d.leaves ++ leavesOf ds

end

mutual

/-- Checking a draft gives the policy of which it is the draft, and nothing else. -/
theorem check_eq_ok_iff : ∀ (d : PolicyDraft) {p : Policy}, d.check = .ok p ↔ p.draft = d
  -- Only keys are refused; every other draft is checked child by child.
  | key k, p => by
    rw [check, map_eq_ok_iff]
    constructor
    · rintro ⟨l, hl, rfl⟩
      obtain ⟨ha, hb⟩ := PublicKey.ofBytes_eq_ok_iff.1 hl
      rw [Policy.draft, ha, hb]
    · intro h
      cases p with
      | key l => cases h; exact ⟨l, l.ofBytes_self, rfl⟩
      | _ => cases h
  | allOf ds, p => by
    rw [check, map_eq_ok_iff]
    simp only [checkAll_eq_ok_iff ds]
    cases p <;> simp [Policy.draft]
  | threshold m ds, p => by
    rw [check, map_eq_ok_iff]
    simp only [checkAll_eq_ok_iff ds]
    cases p <;> simp [Policy.draft, and_comm, eq_comm]
  | contract n, p | delegatableContract n, p => by
    cases p <;> simp [check, Policy.draft, eq_comm]
  | rsa3072 bs, p | ecdsaP384 bs, p => by
    cases p <;> simp [check, Policy.draft, eq_comm]

theorem checkAll_eq_ok_iff : ∀ (ds : List PolicyDraft) {ps : List Policy},
    checkAll ds = .ok ps ↔ Policy.drafts ps = ds
  | [], ps => by cases ps <;> simp [checkAll, Policy.drafts]
  | d :: ds, ps => by
    have hcons : checkAll (d :: ds) = .ok ps ↔
        ∃ p qs, d.check = .ok p ∧ checkAll ds = .ok qs ∧ p :: qs = ps := by
      rw [checkAll]
      cases d.check <;> simp [map_eq_ok_iff]
    rw [hcons]
    simp only [check_eq_ok_iff d, checkAll_eq_ok_iff ds]
    cases ps <;> simp [Policy.drafts]

end

/-- The draft is that of a policy that can be expanded within the limit. -/
def Expandable (limit : Nat) (d : PolicyDraft) : Prop :=
  ∃ p : Policy, p.draft = d ∧ p.Supported ∧ p.depth ≤ limit

theorem expandable_iff_of_check {limit : Nat} {d : PolicyDraft} {p : Policy}
    (h : d.check = .ok p) : d.Expandable limit ↔ p.Supported ∧ p.depth ≤ limit := by
  constructor
  · rintro ⟨q, hq, hexpandable⟩
    rw [← d.check_eq_ok_iff, h] at hq
    cases hq
    exact hexpandable
  · exact fun hexpandable => ⟨p, d.check_eq_ok_iff.1 h, hexpandable⟩

theorem not_expandable_of_check {limit : Nat} {d : PolicyDraft} {e : KeyError}
    (h : d.check = .error e) : ¬ d.Expandable limit := by
  rintro ⟨p, hp, -⟩
  rw [← d.check_eq_ok_iff, h] at hp
  cases hp

instance (limit : Nat) (d : PolicyDraft) : Decidable (d.Expandable limit) :=
  match h : d.check with
  | .ok _ => decidable_of_iff _ (expandable_iff_of_check h).symm
  | .error _ => .isFalse (not_expandable_of_check h)

theorem leaves_draft :
    (∀ p : Policy, p.draft.leaves = p.leaves.map fun k => ⟨k.algorithm, k.bytes⟩) ∧
    ∀ cs : List Policy, leavesOf (Policy.drafts cs) =
      (Policy.leavesOf cs).map fun k => ⟨k.algorithm, k.bytes⟩ := by
  apply Policy.forest_induction
  case atomic =>
    intro p hp
    cases p <;> first | rfl | cases hp
  case composite =>
    intro p cs hp ih
    cases p <;> cases hp <;> exact ih
  case nil => rfl
  case cons =>
    intro c cs hc hcs
    rw [Policy.drafts, leavesOf, Policy.leavesOf, List.map_append, hc, hcs]

end PolicyDraft

/-! ## Expansions -/

/-- The triples of the leaves of a policy with the signatures of a map that match them. -/
def PolicyDraft.matching (d : PolicyDraft) (m : SignatureMap) : Finset Triple :=
  ((d.leaves.toFinset ×ˢ m.pairs.toFinset).filter fun x =>
    x.2.algorithm = x.1.algorithm ∧ x.2.keyPrefix <+: x.1.bytes).image
      fun x => (x.1.algorithm, x.1.bytes, x.2.signature)

/-- The triples of the signatures whose leading bytes are an admissible key. -/
def SignatureMap.full (m : SignatureMap) : Finset Triple :=
  (m.pairs.toFinset.filter fun q => Admissible q.algorithm q.keyPrefix).image
    fun q => (q.algorithm, q.keyPrefix, q.signature)

theorem SignaturePair.resolveFull?_eq_some_iff {q : SignaturePair} {r : ResolvedPair} :
    q.resolveFull? = some r ↔ Admissible q.algorithm q.keyPrefix ∧
      (q.algorithm, q.keyPrefix, q.signature) = r.triple := by
  by_cases h : Admissible q.algorithm q.keyPrefix
  · have hfull : q.isFullPrefix = true := beq_iff_eq.2 h.1
    have hkey : PublicKey.ofBytes q.algorithm q.keyPrefix = .ok ⟨_, _, h⟩ := dif_pos h
    rw [resolveFull?, if_pos hfull, hkey, Option.some_inj]
    exact ⟨fun hr => ⟨h, hr ▸ rfl⟩, fun hr => ResolvedPair.triple_injective hr.2⟩
  · have hkey := PublicKey.ofBytes_eq_error_iff.2 ⟨h, rfl⟩
    rw [resolveFull?, hkey]
    split <;> simp [h]

theorem SignatureMap.triples_expandFullPrefixes (m : SignatureMap) :
    ResolvedSet.triples m.expandFullPrefixes = m.full := by
  ext x
  rw [expandFullPrefixes, ResolvedSet.triples_ofList, full]
  simp only [List.mem_toFinset, List.mem_map, List.mem_filterMap,
    SignaturePair.resolveFull?_eq_some_iff, Finset.mem_image, Finset.mem_filter]
  constructor
  · rintro ⟨r, ⟨q, hq, hadmissible, hr⟩, rfl⟩
    exact ⟨q, ⟨hq, hadmissible⟩, hr⟩
  · rintro ⟨q, ⟨hq, hadmissible⟩, rfl⟩
    exact ⟨PublicKey.resolve ⟨_, _, hadmissible⟩ q.signature, ⟨q, hq, hadmissible, rfl⟩, rfl⟩

theorem Policy.triples_of_expand {p : Policy} {m : SignatureMap} {limit : Nat} {found : ResolvedSet}
    (h : Expander.expand ⟨limit⟩ p m = .ok found) :
    ResolvedSet.triples found = p.draft.matching m := by
  have hleaves : leavesOf [p] = p.leaves := List.append_nil _
  ext x
  rw [ResolvedSet.mem_triples, PolicyDraft.matching, PolicyDraft.leaves_draft.1]
  simp only [Expander.mem_of_expandAll_eq_ok h, hleaves, Finset.mem_image, Finset.mem_filter,
    Finset.mem_product, List.mem_toFinset, List.mem_map]
  constructor
  · rintro ⟨r, ⟨hleaf, q, hq, ha, hstart, hsig⟩, rfl⟩
    exact ⟨(⟨_, _⟩, q), ⟨⟨⟨r.key, hleaf, rfl⟩, hq⟩, ha, hstart⟩, by rw [hsig]; rfl⟩
  · rintro ⟨⟨_, q⟩, ⟨⟨⟨k, hk, rfl⟩, hq⟩, ha, hstart⟩, rfl⟩
    exact ⟨k.resolve q.signature, ⟨hk, q, hq, ha, hstart, rfl⟩, rfl⟩

theorem PolicyDraft.exists_expand_eq_ok_iff {d : PolicyDraft} {p : Policy} {m : SignatureMap}
    {limit : Nat} (h : d.check = .ok p) :
    (∃ found, Expander.expand ⟨limit⟩ p m = .ok found) ↔ d.Expandable limit :=
  Expander.exists_run_eq_ok_iff.trans
    (Policy.firstOffence?_singleton_eq_none_iff.trans (expandable_iff_of_check h).symm)

end KeyPolicy
