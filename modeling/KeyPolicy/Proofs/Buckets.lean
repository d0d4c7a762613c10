import KeyPolicy.Proofs.Index

/-!
# Every position has one bucket

A search reaches a bucket only through the length of its leading bytes, and lengths and buckets are
stored apart from each other. An index is in order if they speak of the same leading bytes.

**Theorem (`buckets_build`).** The buckets of a map's index share out the positions of its pairs:
each position is in the bucket of its pair's algorithm and leading bytes, once, and in no other. No
bucket is empty, and the positions in a bucket ascend. The lengths that are stored for an algorithm
are those of the leading bytes that have a bucket under it, in ascending order.

`Represents` says which positions are found with given leading bytes. If there are none, this may be
for lack of a bucket or because the bucket is empty. It is never the latter (`Stocked`): the step
that makes a bucket puts a position into it, and no step takes one out. So leading bytes have a
bucket exactly when some pair has them (`Represents.mem_positions`), and lengths and buckets agree
because both follow the pairs (`Represents.mem_lengths_iff`).
-/

namespace KeyPolicy

/-! ## Buckets that are there -/

namespace PrefixBuckets

variable {b : PrefixBuckets} {start : Bytes} {held : Array Nat}

theorem bucket_of_getElem? (h : b.positions[start]? = some held) : b.bucket start = held := by
  rw [bucket, Std.HashMap.getD_eq_getD_getElem?, h, Option.getD_some]

theorem mem_bucket {i : Nat} :
    i ∈ (b.bucket start).toList ↔ ∃ held, b.positions[start]? = some held ∧ i ∈ held.toList := by
  rw [bucket, Std.HashMap.getD_eq_getD_getElem?]
  cases b.positions[start]? <;> simp

/-- No bucket is empty. -/
def Stocked (b : PrefixBuckets) : Prop :=
  ∀ (start : Bytes) (held : Array Nat), b.positions[start]? = some held → held ≠ #[]

theorem stocked_empty : empty.Stocked := by
  intro start held h
  simp [empty] at h

/-- The bucket that a position is put into holds the position. The others are as before. -/
theorem Stocked.add (h : b.Stocked) (start : Bytes) (i : Nat) : (b.add start i).Stocked := by
  intro other held hheld
  rw [PrefixBuckets.add, Std.HashMap.getElem?_insert] at hheld
  split at hheld
  · cases hheld
    exact Array.push_ne_empty
  · exact h other held hheld

/-- Leading bytes have a bucket if something is found there. -/
theorem Stocked.mem_positions (h : b.Stocked) : start ∈ b.positions ↔ b.bucket start ≠ #[] := by
  constructor
  · intro hmem
    obtain ⟨held, hheld⟩ := Option.isSome_iff_exists.1 (Std.HashMap.mem_iff_isSome_getElem?.1 hmem)
    rw [bucket_of_getElem? hheld]
    exact h start held hheld
  · intro hfound
    by_contra hno
    exact hfound (Std.HashMap.getD_eq_fallback hno)

end PrefixBuckets

/-! ## All buckets together -/

/-- A position in the bucket of an algorithm and of leading bytes. -/
structure Place where
  algorithm : Algorithm
  keyPrefix : Bytes
  position : Nat
  deriving DecidableEq

/-- What the buckets hold, bucket by bucket. -/
def PrefixBuckets.places (b : PrefixBuckets) (a : Algorithm) : List Place :=
  b.positions.toList.flatMap fun (start, held) => held.toList.map (Place.mk a start)

namespace PrefixBuckets

variable {b : PrefixBuckets} {a : Algorithm}

theorem mem_places {x : Place} :
    x ∈ b.places a ↔ x.algorithm = a ∧ x.position ∈ (b.bucket x.keyPrefix).toList := by
  simp only [places, List.mem_flatMap, List.mem_map, Prod.exists, mem_bucket,
    Std.HashMap.mem_toList_iff_getElem?_eq_some]
  constructor
  · rintro ⟨start, held, hheld, i, hi, rfl⟩
    exact ⟨rfl, held, hheld, hi⟩
  · rintro ⟨rfl, held, hheld, hi⟩
    exact ⟨x.keyPrefix, held, hheld, x.position, hi, rfl⟩

/-- Two buckets have different leading bytes, so nothing is listed twice unless a bucket holds it
twice. -/
theorem nodup_places (h : ∀ start, (b.bucket start).toList.Nodup) : (b.places a).Nodup := by
  refine List.nodup_flatMap.2 ⟨?_, ?_⟩
  · rintro ⟨start, held⟩ hheld
    have hnodup := h start
    rw [bucket_of_getElem? (Std.HashMap.mem_toList_iff_getElem?_eq_some.1 hheld)] at hnodup
    exact hnodup.map fun i j hsame => congrArg Place.position hsame
  · refine Std.HashMap.distinct_keys_toList.imp fun {entry other} hne x hx hother => ?_
    obtain ⟨i, -, rfl⟩ := List.mem_map.1 hx
    obtain ⟨j, -, hsame⟩ := List.mem_map.1 hother
    have hstart : other.1 = entry.1 := congrArg Place.keyPrefix hsame
    rw [hstart, beq_self_eq_true] at hne
    cases hne

end PrefixBuckets

namespace PrefixIndex

/-- What all the buckets of an index hold. -/
def places (ix : PrefixIndex) : List Place :=
  ix.ed25519.places .ed25519 ++ ix.ecdsaSecp256k1.places .ecdsaSecp256k1

theorem mem_places {ix : PrefixIndex} {x : Place} :
    x ∈ ix.places ↔ x.position ∈ ((ix.buckets x.algorithm).bucket x.keyPrefix).toList := by
  rw [places, List.mem_append, PrefixBuckets.mem_places, PrefixBuckets.mem_places]
  cases x.algorithm <;> simp [buckets]

theorem nodup_places {ix : PrefixIndex}
    (h : ∀ a start, ((ix.buckets a).bucket start).toList.Nodup) : ix.places.Nodup := by
  refine List.Nodup.append (PrefixBuckets.nodup_places (h .ed25519))
    (PrefixBuckets.nodup_places (h .ecdsaSecp256k1)) fun x hx hx' => ?_
  have ha := (PrefixBuckets.mem_places.1 hx).1
  have ha' := (PrefixBuckets.mem_places.1 hx').1
  cases ha.symm.trans ha'

/-! ## What building keeps -/

variable {pairs : List SignaturePair} {ix : PrefixIndex}

theorem stocked_push (h : ∀ a, (ix.buckets a).Stocked) (p : SignaturePair) (a : Algorithm) :
    ((ix.push p).buckets a).Stocked := by
  rw [buckets_push]
  split
  · exact (h a).add p.keyPrefix ix.pairs.size
  · exact h a

theorem stocked_build (m : SignatureMap) (a : Algorithm) : ((build m).buckets a).Stocked := by
  refine List.foldlRecOn (motive := fun ix => ∀ a, (ix.buckets a).Stocked) m.pairs push ?_ ?_ a
  · intro a
    rw [buckets_empty]
    exact PrefixBuckets.stocked_empty
  · intro ix h p _
    exact stocked_push h p

/-- **The buckets share out the positions.** -/
theorem Represents.places_perm (h : Represents pairs ix) :
    ix.places.Perm (pairs.mapIdx fun i p => ⟨p.algorithm, p.keyPrefix, i⟩) := by
  have hplaces : ix.places.Nodup := by
    refine nodup_places fun a start => ?_
    rw [h.bucket_eq]
    exact List.nodup_findIdxs
  have hpairs : (pairs.mapIdx fun i p => Place.mk p.algorithm p.keyPrefix i).Nodup := by
    refine List.pairwise_iff_getElem.2 fun i j hi hj hlt hsame => ?_
    rw [List.getElem_mapIdx, List.getElem_mapIdx] at hsame
    exact Nat.ne_of_lt hlt (congrArg Place.position hsame)
  refine (List.perm_ext_iff_of_nodup hplaces hpairs).2 fun x => ?_
  rw [mem_places, h.bucket_eq, List.mem_findIdxs_iff_exists_getElem_pos, List.mem_mapIdx]
  constructor
  · rintro ⟨hi, hp⟩
    obtain ⟨ha, hs⟩ := of_decide_eq_true hp
    exact ⟨x.position, hi, by rw [ha, hs]⟩
  · rintro ⟨i, hi, rfl⟩
    exact ⟨hi, decide_eq_true ⟨rfl, rfl⟩⟩

theorem Represents.mem_positions (h : Represents pairs ix) {a : Algorithm}
    (hstocked : (ix.buckets a).Stocked) {start : Bytes} : start ∈ (ix.buckets a).positions ↔
      ∃ p ∈ pairs, p.algorithm = a ∧ p.keyPrefix = start := by
  rw [hstocked.mem_positions, ne_eq, ← Array.toList_eq_nil_iff, h.bucket_eq,
    List.findIdxs_eq_nil_iff]
  simp

/-- A length is stored if it is the length of the leading bytes of some bucket. -/
theorem Represents.mem_lengths_iff (h : Represents pairs ix) {a : Algorithm}
    (hstocked : (ix.buckets a).Stocked) {n : Nat} : n ∈ (ix.buckets a).lengths ↔
      ∃ start ∈ (ix.buckets a).positions, start.length = n := by
  simp only [h.mem_lengths, h.mem_positions hstocked]
  constructor
  · rintro ⟨p, hp, ha, hn⟩
    exact ⟨p.keyPrefix, ⟨p, hp, ha, rfl⟩, hn⟩
  · rintro ⟨start, ⟨p, hp, ha, rfl⟩, hn⟩
    exact ⟨p, hp, ha, hn⟩

theorem Represents.pairwise_bucket (h : Represents pairs ix) {a : Algorithm} {start : Bytes}
    {held : Array Nat} (hheld : (ix.buckets a).positions[start]? = some held) :
    held.toList.Pairwise (· < ·) := by
  rw [← PrefixBuckets.bucket_of_getElem? hheld, h.bucket_eq]
  exact List.pairwise_findIdxs

/-- **Every position has one bucket.** All that the buckets of a map's index hold is the position
of each pair, once, in the bucket of the pair's algorithm and leading bytes. No bucket is empty, and
the positions in a bucket ascend. The lengths that are stored for an algorithm ascend, and they are
the lengths of the leading bytes that have a bucket under it. -/
theorem buckets_build (m : SignatureMap) :
    (build m).places.Perm (m.pairs.mapIdx fun i p => ⟨p.algorithm, p.keyPrefix, i⟩) ∧
    ∀ a, let b := (build m).buckets a
      (∀ (start : Bytes) (held : Array Nat), b.positions[start]? = some held →
        held ≠ #[] ∧ held.toList.Pairwise (· < ·)) ∧
      b.lengths.toList.Pairwise (· < ·) ∧
      ∀ n, n ∈ b.lengths.toList ↔ ∃ start ∈ b.positions, start.length = n := by
  have h := represents_build m
  refine ⟨h.places_perm, fun a => ?_⟩
  intro b
  have hstocked := stocked_build m a
  exact ⟨fun start held hheld => ⟨hstocked start held hheld, h.pairwise_bucket hheld⟩,
    b.lengths.ascending.imp Nat.compare_eq_lt.1, fun n => h.mem_lengths_iff hstocked⟩

/-- Two pairs share a bucket. The pair of the other algorithm with the same leading bytes has one of
its own. -/
theorem buckets_build_shared_prefix :
    let m : SignatureMap := ⟨[⟨.ed25519, [7, 7], [1]⟩, ⟨.ecdsaSecp256k1, [7, 7], [2]⟩,
      ⟨.ed25519, [7, 7], [3]⟩, ⟨.ed25519, [], [4]⟩]⟩
    let b := (build m).buckets .ed25519
    (build m).places.Perm [⟨.ed25519, [7, 7], 0⟩, ⟨.ecdsaSecp256k1, [7, 7], 1⟩,
      ⟨.ed25519, [7, 7], 2⟩, ⟨.ed25519, [], 3⟩] ∧
      b.positions[([7, 7] : Bytes)]? = some #[0, 2] ∧ #[0, 2] ≠ #[] ∧ [0, 2].Pairwise (· < ·) ∧
      b.lengths.toList = [0, 2] ∧ ∃ start ∈ b.positions, start.length = 2 := by
  intro m b
  obtain ⟨hplaces, hbuckets⟩ := buckets_build m
  obtain ⟨hheld, -, hlength⟩ := hbuckets .ed25519
  have hshared : b.positions[([7, 7] : Bytes)]? = some #[0, 2] := by
    simp [b, m, build, push, buckets, PrefixBuckets.add, PrefixBuckets.bucket, empty,
      PrefixBuckets.empty, Std.HashMap.getElem_insert]
  have hlengths : b.lengths.toList = [0, 2] := by decide
  obtain ⟨hne, hasc⟩ := hheld [7, 7] #[0, 2] hshared
  exact ⟨hplaces, hshared, hne, hasc, hlengths, (hlength 2).1 (hlengths ▸ by decide)⟩

end PrefixIndex

end KeyPolicy
