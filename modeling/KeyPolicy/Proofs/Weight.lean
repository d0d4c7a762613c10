import Mathlib.Algebra.Order.BigOperators.Group.List
import Mathlib.Data.ENat.Basic
import Mathlib.Data.Finset.Card
import Mathlib.Data.List.Flatten
import Mathlib.Data.List.Sort
import KeyPolicy.Proofs.Authorization

/-!
# How many keys a policy takes

The weight of a policy is the least number of its keys that have to sign: one for a key, the sum
over all children where all are needed, and the sum of the `m` smallest weights where `m` children
are. It is infinite where no keys are enough.

**Theorem (`satisfiedBy_weight`).** Let the keys of a policy be distinct. Whatever verified pairs
satisfy it include as many of its keys as it weighs, and if the weight is finite, then so many are
enough. It does not matter how many signatures a key has.

For the lower bound, leaves are counted by position (`weight_le_countP`), so that the counts of
children add up without regard to keys that they share. A threshold is met by some children, and no
choice of so many is lighter than the lightest ones (`cheapest_le_sum`). For the upper bound the
lightest children are children (`exists_sublist_sum_eq_cheapest`), and their keys together are
enough (`exists_quorum`).
-/

namespace KeyPolicy

open Policy

/-! ## The smallest of several weights -/

/-- The sum of the `n` smallest of several weights, infinite if there are fewer. -/
def cheapest (n : Nat) (ws : List ℕ∞) : ℕ∞ :=
  if n ≤ ws.length then ((ws.insertionSort (· ≤ ·)).take n).sum else ⊤

section

variable {n : Nat} {ws chosen : List ℕ∞}

/-- The first elements of an ascending list are the lightest choice of so many. -/
theorem sum_take_le_sum {s t : List ℕ∞} (hs : s.Pairwise (· ≤ ·)) (ht : t.Sublist s) :
    (s.take t.length).sum ≤ t.sum := by
  induction s generalizing t with
  | nil => rw [List.sublist_nil.1 ht]; rfl
  | cons a s ih =>
    obtain ⟨ha, hs⟩ := List.pairwise_cons.1 hs
    cases t with
    | nil => exact le_rfl
    | cons b t =>
      have hab : a ≤ b := by
        rcases List.mem_cons.1 (ht.subset List.mem_cons_self) with rfl | hb
        · exact le_rfl
        · exact ha b hb
      rw [List.length_cons, List.take_succ_cons, List.sum_cons, List.sum_cons]
      exact add_le_add hab (ih hs (ht.tail))

/-- No choice of at least `n` is lighter than the lightest `n`. -/
theorem cheapest_le_sum (hsub : chosen.Sublist ws) (hlen : n ≤ chosen.length) :
    cheapest n ws ≤ chosen.sum := by
  have hsub' : (chosen.take n).Subperm (ws.insertionSort (· ≤ ·)) :=
    ((List.take_sublist n chosen).trans hsub).subperm.trans
      (List.perm_insertionSort _ ws).symm.subperm
  obtain ⟨t, hperm, ht⟩ := hsub'
  have hn : t.length = n := by rw [hperm.length_eq, List.length_take, Nat.min_eq_left hlen]
  rw [cheapest, if_pos (hlen.trans hsub.length_le)]
  calc ((ws.insertionSort (· ≤ ·)).take n).sum
      ≤ t.sum := hn ▸ sum_take_le_sum (List.pairwise_insertionSort _ ws) ht
    _ = (chosen.take n).sum := hperm.sum_eq
    _ ≤ chosen.sum := (List.take_sublist n chosen).sum_le_sum fun _ _ => zero_le

/-- The lightest `n` are a choice. -/
theorem exists_sublist_sum_eq_cheapest (h : cheapest n ws ≠ ⊤) :
    ∃ chosen : List ℕ∞, chosen.Sublist ws ∧ chosen.length = n ∧ chosen.sum = cheapest n ws := by
  rw [cheapest] at h ⊢
  split_ifs at h ⊢ with hlen
  · obtain ⟨chosen, hperm, hsub⟩ := List.exists_perm_sublist
      (List.take_sublist n (ws.insertionSort (· ≤ ·))) (List.perm_insertionSort _ ws)
    refine ⟨chosen, hsub, ?_, hperm.sum_eq⟩
    rw [hperm.length_eq, List.length_take, List.length_insertionSort, Nat.min_eq_left hlen]
  · exact absurd rfl h

end

/-! ## Weight -/

namespace Policy

mutual

/-- The number of keys that a policy takes, where a key in two places counts as two. -/
def weight : Policy → ℕ∞
  | key _ => 1
  | allOf cs => (weights cs).sum
  | threshold m cs => cheapest m.toNat (weights cs)
  | _ => ⊤

def weights : List Policy → List ℕ∞
  | [] => []
  | c :: cs => c.weight :: weights cs

end

theorem weights_eq_map (cs : List Policy) : weights cs = cs.map weight := by
  induction cs with
  | nil => rfl
  | cons c cs ih => rw [weights, ih, List.map_cons]

/-! ## As many keys as the weight are needed -/

theorem countP_leavesOf (q : PublicKey → Bool) (cs : List Policy) :
    ((leavesOf cs).countP q : ℕ∞) = (cs.map fun c => (c.leaves.countP q : ℕ∞)).sum := by
  induction cs with
  | nil => rfl
  | cons c cs ih =>
    rw [leavesOf, List.countP_append, Nat.cast_add, ih, List.map_cons, List.sum_cons]

/-- What satisfies a policy has keys for as many of its leaves as it weighs. -/
theorem weight_le_countP {verified : ResolvedSet} {p : Policy} (h : p.satisfiedBy verified = true) :
    p.weight ≤ (p.leaves.countP verified.hasKey : ℕ∞) := by
  induction p using Policy.induction with
  | key k =>
    have hk : verified.hasKey k = true := h
    rw [weight, leaves, List.countP_singleton, if_pos hk, Nat.cast_one]
  | allOf cs ih =>
    rw [satisfiedBy, allSatisfiedBy_eq_all, List.all_eq_true] at h
    rw [weight, weights_eq_map, leaves, countP_leavesOf]
    exact List.sum_le_sum fun c hc => ih c hc (h c hc)
  | threshold m cs ih =>
    rw [satisfiedBy, decide_eq_true_iff, satisfiedCount_eq_countP, le_countP_iff] at h
    obtain ⟨chosen, hsub, hlen, hall⟩ := h
    rw [weight, weights_eq_map, leaves, countP_leavesOf]
    calc cheapest m.toNat (cs.map weight)
        ≤ (chosen.map weight).sum := cheapest_le_sum (hsub.map _) (by rwa [List.length_map])
      _ ≤ (chosen.map fun c => (c.leaves.countP verified.hasKey : ℕ∞)).sum :=
        List.sum_le_sum fun c hc => ih c (hsub.subset hc) (hall c hc)
      _ ≤ (cs.map fun c => (c.leaves.countP verified.hasKey : ℕ∞)).sum :=
        (hsub.map _).sum_le_sum fun _ _ => zero_le
  | contract _ | delegatableContract _ | rsa3072 _ | ecdsaP384 _ => cases h

/-! ## As many keys as the weight are enough -/

/-- The keys stand in the policies, in different places, and all policies are satisfied by whatever
verified pairs they have. -/
structure Quorum (ks : List PublicKey) (cs : List Policy) : Prop where
  sublist : ks.Sublist (leavesOf cs)
  enough : ∀ verified : ResolvedSet, (∀ k ∈ ks, verified.hasKey k = true) →
    ∀ c ∈ cs, c.satisfiedBy verified = true

theorem Quorum.append {ks ls : List PublicKey} {c : Policy} {cs : List Policy} (hc : Quorum ks [c])
    (hcs : Quorum ls cs) : Quorum (ks ++ ls) (c :: cs) where
  sublist := by
    have hsub := hc.sublist
    rw [leavesOf, leavesOf, List.append_nil] at hsub
    exact hsub.append hcs.sublist
  enough verified h := by
    obtain ⟨hks, hls⟩ := List.forall_mem_append.1 h
    exact List.forall_mem_cons.2
      ⟨hc.enough verified hks c List.mem_cons_self, hcs.enough verified hls⟩

theorem exists_quorum_of_children {cs : List Policy}
    (ih : ∀ c ∈ cs, c.weight ≠ ⊤ → ∃ ks, Quorum ks [c] ∧ (ks.length : ℕ∞) = c.weight)
    (h : (cs.map weight).sum ≠ ⊤) :
    ∃ ks, Quorum ks cs ∧ (ks.length : ℕ∞) = (cs.map weight).sum := by
  induction cs with
  | nil => exact ⟨[], ⟨List.Sublist.refl _, fun _ _ c hc => absurd hc List.not_mem_nil⟩, rfl⟩
  | cons c cs ihcs =>
    obtain ⟨ihc, ih⟩ := List.forall_mem_cons.1 ih
    rw [List.map_cons, List.sum_cons, Ne, ENat.add_eq_top, not_or] at h
    obtain ⟨ks, hks, hlen⟩ := ihc h.1
    obtain ⟨ls, hls, hlen'⟩ := ihcs ih h.2
    refine ⟨ks ++ ls, hks.append hls, ?_⟩
    rw [List.length_append, Nat.cast_add, hlen, hlen', List.map_cons, List.sum_cons]

theorem exists_quorum {p : Policy} (h : p.weight ≠ ⊤) :
    ∃ ks, Quorum ks [p] ∧ (ks.length : ℕ∞) = p.weight := by
  induction p using Policy.induction with
  | key k =>
    refine ⟨[k], ⟨List.Sublist.refl _, fun verified hk c hc => ?_⟩, rfl⟩
    rw [List.mem_singleton.1 hc]
    exact hk k List.mem_cons_self
  | allOf cs ih =>
    rw [weight, weights_eq_map] at h ⊢
    obtain ⟨ks, hks, hlen⟩ := exists_quorum_of_children ih h
    refine ⟨ks, ⟨?_, fun verified hk c hc => ?_⟩, hlen⟩
    · rw [leavesOf, leavesOf, leaves, List.append_nil]
      exact hks.sublist
    · rw [List.mem_singleton.1 hc, satisfiedBy, allSatisfiedBy_eq_all, List.all_eq_true]
      exact hks.enough verified hk
  | threshold m cs ih =>
    rw [weight, weights_eq_map] at h ⊢
    -- A quorum of the cheapest children is enough, whatever becomes of the others.
    obtain ⟨ws, hsub, hm, hsum⟩ := exists_sublist_sum_eq_cheapest h
    obtain ⟨chosen, hchosen, rfl⟩ := List.sublist_map_iff.1 hsub
    rw [← hsum] at h ⊢
    obtain ⟨ks, hks, hlen⟩ :=
      exists_quorum_of_children (fun c hc => ih c (hchosen.subset hc)) h
    refine ⟨ks, ⟨?_, fun verified hk c hc => ?_⟩, hlen⟩
    · rw [leavesOf, leavesOf, leaves, List.append_nil]
      refine hks.sublist.trans ?_
      rw [leavesOf_eq_flatMap, leavesOf_eq_flatMap]
      exact hchosen.flatMap leaves
    · rw [List.mem_singleton.1 hc, satisfiedBy, decide_eq_true_iff, satisfiedCount_eq_countP,
        le_countP_iff]
      rw [List.length_map] at hm
      exact ⟨chosen, hchosen, hm.ge, hks.enough verified hk⟩
  | contract _ | delegatableContract _ | rsa3072 _ | ecdsaP384 _ => exact absurd rfl h

/-! ## The weight is the least number of keys -/

/-- Only the keys of verified pairs matter. -/
theorem satisfiedBy_congr {verified verified' : ResolvedSet} (p : Policy)
    (h : verified.publicKeys = verified'.publicKeys) :
    p.satisfiedBy verified = p.satisfiedBy verified' := by
  have hkey : ∀ k, verified.hasKey k = true ↔ verified'.hasKey k = true := by
    intro k
    rw [ResolvedSet.hasKey_iff, ← ResolvedSet.mem_publicKeys, h, ResolvedSet.mem_publicKeys,
      ResolvedSet.hasKey_iff]
  rw [Bool.eq_iff_iff, satisfiedBy_iff_authorized fun k _ => hkey k,
    satisfiedBy_iff_authorized fun k _ => Iff.rfl]

theorem countP_hasKey {p : Policy} (h : p.leaves.Nodup) (verified : ResolvedSet) :
    p.leaves.countP verified.hasKey =
      (p.leaves.toFinset.filter (· ∈ verified.publicKeys)).card := by
  have hkey : verified.hasKey = fun k => decide (k ∈ verified.publicKeys) := by
    funext k
    rw [Bool.eq_iff_iff, decide_eq_true_iff, ResolvedSet.hasKey_iff, ResolvedSet.mem_publicKeys]
  rw [List.countP_eq_length_filter, ← List.toFinset_card_of_nodup (h.filter _),
    List.toFinset_filter, hkey]
  simp only [decide_eq_true_eq]

/-- A quorum of distinct keys satisfies the policy with one signature each. -/
theorem Quorum.exists_verified {ks : List PublicKey} {p : Policy} (hks : Quorum ks [p])
    (h : p.leaves.Nodup) : ∃ verified : ResolvedSet, (∀ k ∈ verified.publicKeys, k ∈ p.leaves) ∧
      verified.publicKeys.size = ks.length ∧ p.satisfiedBy verified = true := by
  have hsub : ks.Sublist p.leaves := by
    have hsub := hks.sublist
    rwa [leavesOf, leavesOf, List.append_nil] at hsub
  let verified : ResolvedSet := .ofList (ks.map (·.resolve []))
  have hmem : ∀ k, k ∈ verified.publicKeys ↔ k ∈ ks := by
    intro k
    simp [verified, ResolvedSet.mem_publicKeys, PublicKey.resolve]
  have hkeys : verified.publicKeys = .ofList ks := by
    ext k
    rw [hmem, OrderedSet.mem_ofList]
  refine ⟨verified, fun k hk => hsub.subset ((hmem k).1 hk), ?_, ?_⟩
  · rw [hkeys, OrderedSet.size_ofList (h.sublist hsub)]
  · refine hks.enough verified (fun k hk => ?_) p List.mem_cons_self
    exact ResolvedSet.hasKey_iff.2 (ResolvedSet.mem_publicKeys.1 ((hmem k).2 hk))

/-- **No policy is met by fewer keys than it weighs, and some so many keys meet it.** Whatever
satisfies a policy of distinct keys has at least as many of its keys as the policy weighs. If the
weight is finite, some verified pairs of exactly so many of its keys satisfy it. Only the keys of
verified pairs count, however many signatures they have. -/
theorem satisfiedBy_weight {p : Policy} (h : p.leaves.Nodup) :
    (∀ verified : ResolvedSet, p.satisfiedBy verified = true →
      p.weight ≤ (p.leaves.toFinset.filter (· ∈ verified.publicKeys)).card) ∧
    (p.weight ≠ ⊤ → ∃ verified : ResolvedSet, (∀ k ∈ verified.publicKeys, k ∈ p.leaves) ∧
      (verified.publicKeys.size : ℕ∞) = p.weight ∧ p.satisfiedBy verified = true) ∧
    ∀ verified verified' : ResolvedSet, verified.publicKeys = verified'.publicKeys →
      p.satisfiedBy verified = p.satisfiedBy verified' := by
  refine ⟨fun verified hsatisfied => ?_, fun hfinite => ?_, fun _ _ => p.satisfiedBy_congr⟩
  · exact countP_hasKey h verified ▸ weight_le_countP hsatisfied
  · obtain ⟨ks, hks, hlen⟩ := exists_quorum hfinite
    obtain ⟨verified, hsub, hsize, hsatisfied⟩ := hks.exists_verified h
    exact ⟨verified, hsub, hsize ▸ hlen, hsatisfied⟩

/-- Two of four, where one child takes two keys and one cannot be met. The two lightest children are
single keys. -/
theorem satisfiedBy_weight_two_of_four :
    let p : Policy := .threshold 2 [.key (.ofByte 1), .allOf [.key (.ofByte 2), .key (.ofByte 3)],
      .contract 5, .key (.ofByte 4)]
    let twice : ResolvedSet := .ofList [(PublicKey.ofByte 1).resolve [7],
      (PublicKey.ofByte 1).resolve [8], (PublicKey.ofByte 4).resolve [9]]
    let once : ResolvedSet := .ofList [(PublicKey.ofByte 1).resolve [],
      (PublicKey.ofByte 4).resolve [9]]
    p.leaves.Nodup ∧ p.weight = 2 ∧ twice.publicKeys = once.publicKeys ∧
      p.satisfiedBy twice = true ∧ p.satisfiedBy once = true ∧
      (2 : ℕ∞) ≤ (p.leaves.toFinset.filter (· ∈ twice.publicKeys)).card ∧
      ∃ least : ResolvedSet, (least.publicKeys.size : ℕ∞) = 2 ∧ p.satisfiedBy least = true := by
  intro p twice once
  have hdistinct : p.leaves.Nodup := by decide
  have hweight : p.weight = 2 := rfl
  have hkeys : twice.publicKeys = once.publicKeys := by decide
  have htwice : p.satisfiedBy twice = true := by decide
  obtain ⟨hlower, hupper, hcongr⟩ := satisfiedBy_weight hdistinct
  obtain ⟨least, -, hsize, hleast⟩ := hupper (hweight ▸ by decide)
  exact ⟨hdistinct, hweight, hkeys, htwice, hcongr twice once hkeys ▸ htwice,
    hweight ▸ hlower twice htwice, least, hweight ▸ hsize, hleast⟩

end Policy

end KeyPolicy
