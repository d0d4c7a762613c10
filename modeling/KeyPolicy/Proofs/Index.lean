import Mathlib.Data.List.FinRange
import Mathlib.Data.List.Nodup
import KeyPolicy.Proofs.Expansion

/-!
# Searching through the index finds what trying each pair finds

`PrefixIndex.Represents` says what an index knows about the pairs it was built from: the bucket of
an algorithm and a string of leading bytes holds the positions of the pairs with exactly these, from
first to last, and a length is stored exactly when some pair's leading bytes have it. Adding a pair
keeps this (`Represents.push`), so the index of a map has it (`represents_build`).

A search then misses nothing. Leading bytes of a key are determined by their length, and every
length at which some pair could match is stored; the lengths ascend, so stopping at the first one
above the key's own length leaves out only pairs that are too long. What is found has the key's own
leading bytes, so nothing else is found either (`Represents.mem_candidatePositions`).
-/

namespace KeyPolicy

/-- In an ascending set of numbers, those up to a bound come first. -/
theorem OrderedSet.takeWhile_le_toList (s : OrderedSet Nat) (bound : Nat) :
    s.toList.takeWhile (· ≤ bound) = s.toList.filter (· ≤ bound) := by
  obtain ⟨l, hasc⟩ := s
  show l.takeWhile (· ≤ bound) = l.filter (· ≤ bound)
  induction l with
  | nil => rfl
  | cons n ns ih =>
    rw [List.pairwise_cons] at hasc
    by_cases hn : n ≤ bound
    · rw [List.takeWhile_cons_of_pos (by simpa using hn),
        List.filter_cons_of_pos (by simpa using hn), ih hasc.2]
    · rw [List.takeWhile_cons_of_neg (by simpa using hn), eq_comm, List.filter_eq_nil_iff]
      intro k hk hkb
      rcases List.mem_cons.1 hk with rfl | hk
      · exact hn (by simpa using hkb)
      · have hlt := Nat.compare_eq_lt.1 (hasc.1 k hk)
        simp only [decide_eq_true_eq] at hkb
        omega

namespace PrefixIndex

/-! ## What an index knows -/

/-- The index holds these pairs, in this order. -/
structure Represents (pairs : List SignaturePair) (ix : PrefixIndex) : Prop where
  pairs_eq : ix.pairs.toList = pairs
  /-- A bucket holds the positions of the pairs with its algorithm and its leading bytes. -/
  bucket_eq : ∀ a start, ((ix.buckets a).bucket start).toList =
    pairs.findIdxs fun p => p.algorithm = a ∧ p.keyPrefix = start
  /-- A length is stored for an algorithm if some pair's leading bytes have it. -/
  mem_lengths : ∀ a n, n ∈ (ix.buckets a).lengths ↔
    ∃ p ∈ pairs, p.algorithm = a ∧ p.keyPrefix.length = n

theorem buckets_empty (a : Algorithm) : empty.buckets a = .empty := by
  cases a <;> rfl

theorem represents_empty : Represents [] empty where
  pairs_eq := rfl
  bucket_eq a start := by
    rw [buckets_empty, PrefixBuckets.bucket_empty]
    rfl
  mem_lengths a n := by
    rw [buckets_empty]
    refine ⟨fun h => absurd h (OrderedSet.not_mem_empty n), fun h => ?_⟩
    obtain ⟨p, hp, -⟩ := h
    exact absurd hp List.not_mem_nil

theorem Represents.push {pairs : List SignaturePair} {ix : PrefixIndex} (h : Represents pairs ix)
    (p : SignaturePair) : Represents (pairs ++ [p]) (ix.push p) where
  pairs_eq := by rw [pairs_push, Array.toList_push, h.pairs_eq]
  bucket_eq a start := by
    have hsize : ix.pairs.size = pairs.length := by rw [← h.pairs_eq, Array.length_toList]
    rw [buckets_push, List.findIdxs_append, ← h.bucket_eq a start, List.findIdxs_singleton, hsize]
    by_cases ha : p.algorithm = a
    · rw [if_pos ha, PrefixBuckets.bucket_add]
      by_cases hs : p.keyPrefix = start <;> simp [ha, hs]
    · simp [ha]
  mem_lengths a n := by
    rw [buckets_push]
    by_cases ha : p.algorithm = a
    · rw [if_pos ha, PrefixBuckets.add, OrderedSet.mem_insert, h.mem_lengths a n]
      simp only [List.mem_append, List.mem_singleton, or_and_right, exists_or, exists_eq_left, ha,
        true_and]
      rw [or_comm, eq_comm]
    · rw [if_neg ha, h.mem_lengths a n]
      simp [or_and_right, exists_or, ha]

theorem Represents.foldl_push {pairs : List SignaturePair} {ix : PrefixIndex}
    (h : Represents pairs ix) (ps : List SignaturePair) :
    Represents (pairs ++ ps) (ps.foldl PrefixIndex.push ix) := by
  induction ps generalizing pairs ix with
  | nil => rwa [List.append_nil]
  | cons p ps ih =>
    rw [List.append_cons]
    exact ih (h.push p)

/-- **The index of a map holds the pairs of the map.** -/
theorem represents_build (m : SignatureMap) : Represents m.pairs (build m) :=
  represents_empty.foldl_push m.pairs

/-! ## What a search finds -/

theorem mem_probe {b : PrefixBuckets} {bytes : Bytes} {i : Nat} :
    i ∈ b.probe bytes ↔
      ∃ n ∈ b.lengths, n ≤ bytes.length ∧ i ∈ (b.bucket (bytes.take n)).toList := by
  rw [PrefixBuckets.probe, OrderedSet.takeWhile_le_toList, List.mem_flatMap]
  simp only [List.mem_filter, OrderedSet.mem_toList, decide_eq_true_eq, and_assoc]

/-- **A search finds the positions of the pairs that match the key.** -/
theorem Represents.mem_candidatePositions {pairs : List SignaturePair} {ix : PrefixIndex}
    (h : Represents pairs ix) {k : PublicKey} {i : Nat} :
    i ∈ ix.candidatePositions k ↔ ∃ p, pairs[i]? = some p ∧ p.matchesKey k = true := by
  rw [candidatePositions, mem_probe]
  refine ⟨fun hfound => ?_, fun hpair => ?_⟩
  · obtain ⟨n, -, hn, hi⟩ := hfound
    rw [h.bucket_eq, List.mem_findIdxs_iff_exists_getElem_pos] at hi
    obtain ⟨hi, hp⟩ := hi
    obtain ⟨ha, hs⟩ := of_decide_eq_true hp
    refine ⟨pairs[i], List.getElem?_eq_getElem hi, SignaturePair.matchesKey_iff.2 ⟨ha, ?_⟩⟩
    rw [hs]
    exact List.take_prefix n k.bytes
  · obtain ⟨p, hp, hmatch⟩ := hpair
    obtain ⟨hi, rfl⟩ := List.getElem?_eq_some_iff.1 hp
    obtain ⟨ha, hs⟩ := SignaturePair.matchesKey_iff.1 hmatch
    refine ⟨pairs[i].keyPrefix.length, (h.mem_lengths _ _).2 ⟨_, List.getElem_mem hi, ha, rfl⟩,
      hs.length_le, ?_⟩
    -- The leading bytes of a pair that matches are those of the key, up to their length.
    have htake : pairs[i].keyPrefix = k.bytes.take pairs[i].keyPrefix.length :=
      List.prefix_iff_eq_take.1 hs
    rw [h.bucket_eq, List.mem_findIdxs_iff_exists_getElem_pos]
    exact ⟨hi, decide_eq_true ⟨ha, htake⟩⟩

theorem Represents.mem_candidates {pairs : List SignaturePair} {ix : PrefixIndex}
    (h : Represents pairs ix) {k : PublicKey} {p : SignaturePair} :
    p ∈ ix.candidates k ↔ p ∈ pairs ∧ p.matchesKey k = true := by
  have hget : ∀ i : Nat, ix.pairs[i]? = pairs[i]? := by
    intro i
    rw [← h.pairs_eq, Array.getElem?_toList]
  simp only [candidates, List.mem_filterMap, h.mem_candidatePositions, hget]
  refine ⟨fun hfound => ?_, fun hpair => ?_⟩
  · obtain ⟨i, ⟨q, hq, hmatch⟩, hp⟩ := hfound
    obtain rfl : q = p := Option.some.inj (hq.symm.trans hp)
    exact ⟨List.mem_of_getElem? hq, hmatch⟩
  · obtain ⟨hp, hmatch⟩ := hpair
    obtain ⟨i, hi⟩ := List.mem_iff_getElem?.1 hp
    exact ⟨i, ⟨p, hi, hmatch⟩, hi⟩

end PrefixIndex

/-! ## How often a search finds a pair -/

theorem filterMap_getElem?_range {α : Type} (l : List α) :
    (List.range l.length).filterMap (l[·]?) = l := by
  have hget : (fun i => l[i]?) ∘ Fin.val = some ∘ fun i : Fin l.length => l[i.val] := by
    funext i
    simp
  rw [← List.map_coe_finRange_eq_range, List.filterMap_map, hget, List.filterMap_eq_map,
    List.map_getElem_finRange]

theorem mapM_eq_some_filterMap {α β : Type} {f : α → Option β} {l : List α}
    (h : ∀ a ∈ l, (f a).isSome = true) : l.mapM f = some (l.filterMap f) := by
  induction l with
  | nil => rfl
  | cons a l ih =>
    obtain ⟨ha, hl⟩ := List.forall_mem_cons.1 h
    obtain ⟨b, hb⟩ := Option.isSome_iff_exists.1 ha
    rw [List.mapM_cons, hb, ih hl, List.filterMap_cons_some hb]
    rfl

/-- The first `n` bytes, if there are as many. -/
def Bytes.slice? (bytes : Bytes) (n : Nat) : Option Bytes :=
  if n ≤ bytes.length then some (bytes.take n) else none

namespace PrefixIndex

/-- A search that fails if it cuts the key behind its end or asks for a pair that is not there. -/
def candidates? (ix : PrefixIndex) (k : PublicKey) : Option (List SignaturePair) := do
  let b := ix.buckets k.algorithm
  let starts ← (b.lengths.toList.takeWhile (· ≤ k.bytes.length)).mapM k.bytes.slice?
  (starts.flatMap fun start => (b.bucket start).toList).mapM (ix.pairs[·]?)

/-- Different lengths lead to different buckets, and no bucket holds a position twice. -/
theorem Represents.nodup_candidatePositions {pairs : List SignaturePair} {ix : PrefixIndex}
    (h : Represents pairs ix) (k : PublicKey) : (ix.candidatePositions k).Nodup := by
  rw [candidatePositions, PrefixBuckets.probe, OrderedSet.takeWhile_le_toList, List.nodup_flatMap]
  refine ⟨fun n _ => ?_, ?_⟩
  · rw [h.bucket_eq]
    exact List.nodup_findIdxs
  · have hlengths := (ix.buckets k.algorithm).lengths.nodup_toList.filter (· ≤ k.bytes.length)
    refine hlengths.imp_of_mem fun {n n'} hn hn' hne i hi hi' => hne ?_
    -- The leading bytes of the pair at `i` have both lengths.
    simp only [h.bucket_eq, List.mem_findIdxs_iff_exists_getElem_pos] at hi hi'
    obtain ⟨_, hp⟩ := hi
    obtain ⟨_, hp'⟩ := hi'
    have hstart := (of_decide_eq_true hp).2
    have hstart' := (of_decide_eq_true hp').2
    have hle := of_decide_eq_true (List.mem_filter.1 hn).2
    have hle' := of_decide_eq_true (List.mem_filter.1 hn').2
    have hlen := congrArg List.length (hstart.symm.trans hstart')
    rwa [List.length_take_of_le hle, List.length_take_of_le hle'] at hlen

/-- A search finds each position of a pair that matches the key once, and no other. -/
theorem Represents.candidatePositions_perm {pairs : List SignaturePair} {ix : PrefixIndex}
    (h : Represents pairs ix) (k : PublicKey) : (ix.candidatePositions k).Perm
      ((List.range pairs.length).filter fun i => pairs[i]?.any (·.matchesKey k)) := by
  have hnodup := List.nodup_range (n := pairs.length)
  refine (List.perm_ext_iff_of_nodup (h.nodup_candidatePositions k) (hnodup.filter _)).2 fun i => ?_
  rw [h.mem_candidatePositions, List.mem_filter, List.mem_range, Option.any_eq_true]
  refine ⟨fun hp => ⟨?_, hp⟩, fun hp => hp.2⟩
  obtain ⟨p, hp, -⟩ := hp
  exact (List.getElem?_eq_some_iff.1 hp).1

theorem Represents.candidates_perm {pairs : List SignaturePair} {ix : PrefixIndex}
    (h : Represents pairs ix) (k : PublicKey) :
    (ix.candidates k).Perm (pairs.filter (·.matchesKey k)) := by
  have hget : ∀ i : Nat, ix.pairs[i]? = pairs[i]? := by
    intro i
    rw [← h.pairs_eq, Array.getElem?_toList]
  have hfilter : pairs.filter (·.matchesKey k) =
      ((List.range pairs.length).filter fun i => pairs[i]?.any (·.matchesKey k)).filterMap
        (pairs[·]?) := by
    conv_lhs => rw [← filterMap_getElem?_range pairs, List.filter_filterMap]
    rw [List.filterMap_filter]
    refine List.filterMap_congr fun i _ => ?_
    cases pairs[i]? <;> rfl
  simp only [candidates, hget]
  rw [hfilter]
  exact (h.candidatePositions_perm k).filterMap _

/-- A search stays within the key and within the pairs. -/
theorem Represents.candidates?_eq {pairs : List SignaturePair} {ix : PrefixIndex}
    (h : Represents pairs ix) (k : PublicKey) : ix.candidates? k = some (ix.candidates k) := by
  have hslice : ∀ n ∈ (ix.buckets k.algorithm).lengths.toList.filter (· ≤ k.bytes.length),
      k.bytes.slice? n = some (k.bytes.take n) := by
    intro n hn
    exact if_pos (of_decide_eq_true (List.mem_filter.1 hn).2)
  have hstarts := mapM_eq_some_filterMap fun n hn => Option.isSome_of_eq_some (hslice n hn)
  have hpositions : ∀ i ∈ ix.candidatePositions k, (ix.pairs[i]?).isSome = true := by
    intro i hi
    obtain ⟨p, hp, -⟩ := h.mem_candidatePositions.1 hi
    rw [← h.pairs_eq, Array.getElem?_toList] at hp
    exact Option.isSome_of_eq_some hp
  rw [candidates?, OrderedSet.takeWhile_le_toList, hstarts, List.filterMap_congr hslice, candidates,
    ← mapM_eq_some_filterMap hpositions, candidatePositions, PrefixBuckets.probe,
    OrderedSet.takeWhile_le_toList, List.filterMap_eq_map', Option.bind_eq_bind, Option.bind_some,
    List.flatMap_map]

/-- **A search finds the matches, each once.** It goes through the positions of the pairs that match
the key, in some order, without repeats. It never cuts the key behind its end and never asks for a
pair that is not there. Trying every pair gives the same pairs, as often. -/
theorem candidates_build (m : SignatureMap) (k : PublicKey) :
    ((build m).candidatePositions k).Perm
      ((List.range m.size).filter fun i => m.pairs[i]?.any (·.matchesKey k)) ∧
    (build m).candidates? k = some ((build m).candidates k) ∧
    ((build m).candidates k).Perm (m.candidates k) := by
  have h := represents_build m
  exact ⟨h.candidatePositions_perm k, h.candidates?_eq k, h.candidates_perm k⟩

end PrefixIndex

/-! ## Expanding through an index -/

/-- **Expanding through the index of a map is expanding with the map.** -/
theorem Expander.expandIndexed_build (e : Expander) (ps : List Policy) (m : SignatureMap) :
    e.expandIndexed ps (.build m) = e.expandAll ps m := by
  apply Expander.run_congr
  intro k q
  rw [(PrefixIndex.represents_build m).mem_candidates, SignatureMap.candidates, List.mem_filter]

end KeyPolicy
