import Mathlib.Data.Int.CardIntervalMod
import Mathlib.Data.List.Perm.Basic
import KeyPolicy.Fixture
import KeyPolicy.Proofs.Expansion

/-!
# What signature maps to measure with contain

A signature map for a policy goes round the leaves of the policy and is then shuffled, so the
shuffled map is known up to the order of its pairs.

**Theorem (`signatureMap?_covers`).** Such a map exists unless pairs are wanted and there are no
leaves. Its pairs are shared out evenly: of `n` pairs for `L` leaves, each leaf has `n / L`, and the
first `n % L` leaves have one more. So an expansion of the policy finds a signature for every leaf
as soon as there are as many pairs as leaves.

That a pair is for a leaf is a relation between the leaf's number and the pair (`IsFor`). Before the
shuffle the numbers are `i % L`, in order. A permutation of the pairs carries the relation along, so
the numbers are permuted with them.
-/

namespace KeyPolicy.Fixture

open Policy

/-! ## Shuffling -/

theorem perm_swapIfInBounds {α : Type} (xs : Array α) (i j : Nat) :
    (xs.swapIfInBounds i j).toList.Perm xs.toList := by
  rw [Array.swapIfInBounds_def]
  split
  · split
    · exact (Array.swap_perm ..).toList
    · exact .refl _
  · exact .refl _

theorem shuffleFrom_perm {α : Type} (draw : (i : Nat) → Fin (i + 1)) (i : Nat) (xs : Array α) :
    (shuffleFrom draw i xs).toList.Perm xs.toList := by
  induction i generalizing xs with
  | zero => exact .refl _
  | succ i ih => exact (ih _).trans (perm_swapIfInBounds xs _ _)

/-- Whatever is drawn, a shuffle only changes the order. -/
theorem shuffle_perm {α : Type} (draw : (i : Nat) → Fin (i + 1)) (xs : List α) :
    (shuffle draw xs).Perm xs :=
  shuffleFrom_perm draw _ xs.toArray

/-! ## Going round the leaves -/

/-- The algorithm of a key with at most so many of its leading bytes. -/
def cut (prefixLength : Nat) (k : PublicKey) : Algorithm × Bytes :=
  (k.algorithm, k.bytes.take (min prefixLength k.algorithm.keyLength))

/-- The pair is for the leaf with the given number. -/
def IsFor (leaves : List PublicKey) (prefixLength j : Nat) (q : SignaturePair) : Prop :=
  ∃ k, leaves[j]? = some k ∧ (q.algorithm, q.keyPrefix) = cut prefixLength k ∧ q.matchesKey k = true

section

variable {leaves : List PublicKey} {prefixLength count : Nat} {r : Randomness}

theorem cut_eq (prefixLength : Nat) (k : PublicKey) :
    cut prefixLength k = (k.algorithm, k.bytes.take prefixLength) := by
  rw [cut, ← k.admissible.1, ← List.take_take, List.take_length]

theorem isFor_of_pairFor {i : Nat} {q : SignaturePair}
    (h : pairFor leaves.toArray prefixLength r i = some q) :
    IsFor leaves prefixLength (i % leaves.length) q ∧ q.signature.length = 64 := by
  rw [pairFor, List.getElem?_toArray, Option.map_eq_some_iff] at h
  obtain ⟨k, hk, rfl⟩ := h
  have hmatch : SignaturePair.matchesKey ⟨k.algorithm, k.bytes.take prefixLength,
      (r.signature i).toList⟩ k = true :=
    SignaturePair.matchesKey_iff.2 ⟨rfl, List.take_prefix ..⟩
  exact ⟨⟨k, hk, (cut_eq prefixLength k).symm, hmatch⟩, by simp⟩

/-- There is no pair only if there is no leaf. -/
theorem pairFor_eq_none_iff {i : Nat} :
    pairFor leaves.toArray prefixLength r i = none ↔ leaves.length = 0 := by
  rw [pairFor, Option.map_eq_none_iff, List.getElem?_toArray, List.getElem?_eq_none_iff,
    List.size_toArray]
  refine ⟨fun h => ?_, fun h => h ▸ Nat.zero_le _⟩
  by_contra hpos
  exact absurd (Nat.mod_lt i (Nat.pos_of_ne_zero hpos)) (Nat.not_lt.2 h)

theorem mapM_eq_some_iff {α β : Type} {f : α → Option β} {l : List α} {bs : List β} :
    l.mapM f = some bs ↔ List.Forall₂ (fun a b => f a = some b) l bs := by
  induction l generalizing bs with
  | nil => cases bs <;> simp
  | cons a l ih =>
    rw [List.mapM_cons]
    cases bs <;> simp [Option.bind_eq_some_iff, ih]

/-- All pairs can be made unless pairs are wanted and there are no leaves. -/
theorem mapM_pairFor_eq_none_iff :
    (List.range count).mapM (pairFor leaves.toArray prefixLength r) = none ↔
      leaves.length = 0 ∧ 0 < count := by
  cases count with
  | zero => simp
  | succ n =>
    by_cases hleaves : leaves.length = 0
    · have hzero : pairFor leaves.toArray prefixLength r 0 = none := pairFor_eq_none_iff.2 hleaves
      simp [List.range_succ_eq_map, List.mapM_cons, hzero, hleaves]
    · have hsome : ∀ i, ∃ q, pairFor leaves.toArray prefixLength r i = some q := fun i =>
        Option.ne_none_iff_exists'.1 fun hnone => hleaves (pairFor_eq_none_iff.1 hnone)
      choose pair hpair using hsome
      have hall : (List.range (n + 1)).mapM (pairFor leaves.toArray prefixLength r) =
          some ((List.range (n + 1)).map pair) :=
        mapM_eq_some_iff.2 (List.forall₂_map_right_iff.2 (List.forall₂_same.2 fun i _ => hpair i))
      simp [hall, hleaves]

/-- Going round `n` times, each number comes as often as the rounds that reach it. -/
theorem count_map_mod (n : Nat) {length j : Nat} (hj : j < length) :
    ((List.range n).map (· % length)).count j = n / length + if j < n % length then 1 else 0 := by
  have hcount := Nat.count_modEq_card n (Nat.zero_lt_of_lt hj) j
  rw [Nat.mod_eq_of_lt hj] at hcount
  rw [← hcount, Nat.count, List.count, List.countP_map]
  refine List.countP_congr fun i _ => ?_
  simp [Nat.ModEq, Nat.mod_eq_of_lt hj]

end

/-! ## Signature maps -/

/-- What the pairs of a signature map are for: their numbers are those of going round the leaves, in
some order. -/
theorem exists_sources {leaves : List PublicKey} {prefixLength count : Nat} {r : Randomness}
    {pairs shuffled : List SignaturePair}
    (hpairs : (List.range count).mapM (pairFor leaves.toArray prefixLength r) = some pairs)
    (hshuffled : shuffled.Perm pairs) :
    ∃ sources : List Nat, sources.Perm ((List.range count).map (· % leaves.length)) ∧
      List.Forall₂ (IsFor leaves prefixLength) sources shuffled ∧
      ∀ q ∈ shuffled, q.signature.length = 64 := by
  have hall := (mapM_eq_some_iff.1 hpairs).flip.imp fun _ _ h => (isFor_of_pairFor h).symm
  obtain ⟨hsignatures, hround⟩ := (List.forall₂_and_left _ _).1 hall
  have hfor : List.Forall₂ (flip (IsFor leaves prefixLength)) pairs
      ((List.range count).map (· % leaves.length)) := List.forall₂_map_right_iff.2 hround
  obtain ⟨sources, hsources, hperm⟩ := List.perm_comp_forall₂ hshuffled hfor
  exact ⟨sources, hperm, hsources.flip, fun q hq => hsignatures q (hshuffled.mem_iff.1 hq)⟩

/-- Pairs with their numbers are cut from the leaves with these numbers. -/
theorem map_cut_of_isFor {leaves : List PublicKey} {prefixLength : Nat} {sources : List Nat}
    {pairs : List SignaturePair} (h : List.Forall₂ (IsFor leaves prefixLength) sources pairs) :
    pairs.map (fun q => some (q.algorithm, q.keyPrefix)) =
      sources.map fun j => leaves[j]?.map (cut prefixLength) := by
  induction h with
  | nil => rfl
  | cons hq _ ih =>
    obtain ⟨k, hk, hcut, -⟩ := hq
    rw [List.map_cons, List.map_cons, ih, hk, hcut, Option.map_some]

theorem exists_isFor_of_mem {leaves : List PublicKey} {prefixLength j : Nat} {sources : List Nat}
    {pairs : List SignaturePair} (h : List.Forall₂ (IsFor leaves prefixLength) sources pairs)
    (hj : j ∈ sources) : ∃ q ∈ pairs, IsFor leaves prefixLength j q := by
  induction h with
  | nil => cases hj
  | cons hq _ ih =>
    rcases List.mem_cons.1 hj with rfl | hj
    · exact ⟨_, List.mem_cons_self, hq⟩
    · obtain ⟨q, hmem, hq⟩ := ih hj
      exact ⟨q, List.mem_cons_of_mem _ hmem, hq⟩

/-- An expansion finds a signature for a leaf that has a pair. -/
theorem hasKey_of_isFor {p : Policy} {m : SignatureMap} {e : Expander} {found : ResolvedSet}
    (h : e.expand p m = .ok found) {prefixLength j : Nat} {q : SignaturePair} (hq : q ∈ m.pairs)
    (hfor : IsFor (LeafCursor.start p).toList prefixLength j q)
    (hj : j < (LeafCursor.start p).toList.length) :
    ResolvedSet.hasKey found (LeafCursor.start p).toList[j] = true := by
  obtain ⟨k, hk, -, hmatch⟩ := hfor
  rw [List.getElem?_eq_getElem hj, Option.some_inj] at hk
  rw [← hk] at hmatch
  obtain ⟨halgorithm, hstart⟩ := SignaturePair.matchesKey_iff.1 hmatch
  have hleaf := mem_leavesOf.2 ⟨p, List.mem_singleton_self p, List.getElem_mem hj⟩
  have hfound : PublicKey.resolve _ q.signature ∈ found :=
    (Expander.mem_of_expandAll_eq_ok h).2 ⟨hleaf, q, hq, halgorithm, hstart, rfl⟩
  exact ResolvedSet.hasKey_iff.2 ⟨_, hfound, rfl⟩

/-- **A signature map covers its policy.** It exists unless pairs are wanted and there are no
leaves. Whatever is random, it has the wanted number of pairs, with signatures of 64 bytes. Up to
their order their algorithms and leading bytes are those of pair `i` for leaf `i` modulo the number
of leaves. So the leaves share them evenly, and each pair matches the leaf that it is for. If the
policy can be expanded, a signature is found for each leaf that has a pair, and for all once there
are as many pairs as leaves. -/
theorem signatureMap?_covers (p : Policy) (count prefixLength : Nat) (r : Randomness) :
    let leaves := (LeafCursor.start p).toList
    (signatureMap? p count prefixLength r = none ↔ leaves.length = 0 ∧ 0 < count) ∧
    ∀ m, signatureMap? p count prefixLength r = some m →
      m.size = count ∧ (∀ q ∈ m.pairs, q.signature.length = 64) ∧
      (m.pairs.map fun q => some (q.algorithm, q.keyPrefix)).Perm
        ((List.range count).map fun i => leaves[i % leaves.length]?.map (cut prefixLength)) ∧
      (∃ sources, List.Forall₂ (IsFor leaves prefixLength) sources m.pairs ∧
        ∀ j < leaves.length, sources.count j =
          count / leaves.length + if j < count % leaves.length then 1 else 0) ∧
      ∀ d found, Expander.expand ⟨d⟩ p m = .ok found →
        (∀ k ∈ leaves.take (min count leaves.length), ResolvedSet.hasKey found k = true) ∧
        (leaves.length ≤ count → ∀ k ∈ leaves, ResolvedSet.hasKey found k = true) := by
  intro leaves
  refine ⟨Option.map_eq_none_iff.trans mapM_pairFor_eq_none_iff, fun m hm => ?_⟩
  obtain ⟨pairs, hpairs, rfl⟩ := Option.map_eq_some_iff.1 hm
  -- Each pair of the shuffled map with the number of its leaf; the rest is read off the numbers.
  obtain ⟨sources, hround, hfor, hsignatures⟩ := exists_sources hpairs (shuffle_perm r.draw pairs)
  have hsize : (shuffle r.draw pairs).length = count := by
    rw [← hfor.length_eq, hround.length_eq, List.length_map, List.length_range]
  have hcounts : ∀ j < leaves.length, sources.count j =
      count / leaves.length + if j < count % leaves.length then 1 else 0 := fun j hj => by
    rw [hround.count_eq, count_map_mod count hj]
  have hcuts : ((shuffle r.draw pairs).map fun q => some (q.algorithm, q.keyPrefix)).Perm
      ((List.range count).map fun i => leaves[i % leaves.length]?.map (cut prefixLength)) := by
    rw [map_cut_of_isFor hfor]
    exact (hround.map _).trans (.of_eq (List.map_map ..))
  refine ⟨hsize, hsignatures, hcuts, ⟨sources, hfor, hcounts⟩, fun d found hfound => ?_⟩
  -- The first round alone reaches as many leaves as there are pairs.
  have hcovered : ∀ k ∈ leaves.take (min count leaves.length),
      ResolvedSet.hasKey found k = true := by
    intro k hk
    obtain ⟨j, hj, rfl⟩ := List.getElem_of_mem hk
    rw [List.length_take, Nat.lt_min, Nat.lt_min] at hj
    have hsource : j ∈ sources := by
      rw [hround.mem_iff, List.mem_map]
      exact ⟨j, List.mem_range.2 hj.1.1, Nat.mod_eq_of_lt hj.2⟩
    obtain ⟨q, hq, hqfor⟩ := exists_isFor_of_mem hfor hsource
    rw [List.getElem_take]
    exact hasKey_of_isFor hfound hq hqfor hj.2
  refine ⟨hcovered, fun hle k hk => hcovered k ?_⟩
  rwa [Nat.min_eq_right hle, List.take_length]

/-- Three pairs for two leaves, with more leading bytes asked for than the keys have. -/
theorem signatureMap?_covers_three_for_two :
    let p : Policy := .allOf [.key (.ofByte 1), .key (.ofByte 2)]
    let r : Randomness := ⟨fun i => .replicate 64 (UInt8.ofNat i), fun _ => 0⟩
    ∃ m found, signatureMap? p 3 40 r = some m ∧ Expander.expand ⟨1⟩ p m = .ok found ∧
      m.size = 3 ∧ ResolvedSet.hasKey found (.ofByte 1) = true ∧
      ResolvedSet.hasKey found (.ofByte 2) = true := by
  intro p r
  have hleaves : (LeafCursor.start p).toList = [.ofByte 1, .ofByte 2] := LeafCursor.toList_start p
  obtain ⟨hnone, hcovers⟩ := signatureMap?_covers p 3 40 r
  have hsome : signatureMap? p 3 40 r ≠ none := by
    rw [Ne, hnone, hleaves]
    decide
  obtain ⟨m, hm⟩ := Option.ne_none_iff_exists'.1 hsome
  obtain ⟨found, hfound⟩ : ∃ found, Expander.expand ⟨1⟩ p m = .ok found := ⟨_, rfl⟩
  obtain ⟨hsize, -, -, -, hexpand⟩ := hcovers m hm
  have hall := (hexpand 1 found hfound).2 (by rw [hleaves]; decide)
  rw [hleaves] at hall
  exact ⟨m, found, hm, hfound, hsize, hall _ (.head _), hall _ (.tail _ (.head _))⟩

end KeyPolicy.Fixture
