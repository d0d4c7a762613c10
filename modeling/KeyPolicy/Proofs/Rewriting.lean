import KeyPolicy.Proofs.Authorization

/-!
# Policies changed at some of their nodes

`Rewrites change p q` says that `q` comes from `p` by changes at any nodes, any number of times,
where `change` says what may be done to a node. What each change keeps, and each parent keeps when
one of its children changes, is kept by all of them; so an induction over `Rewrites` has one case
for the change and one for each kind of parent.

**Same children.** A walk looks at the children of a node and not at its threshold. As long as a
change keeps the children as they are, every walk ends the same way, with the same error or the same
set (`Rewrites.expandInto_eq`).

**Other forms of one policy.** A node may list its children in another order, and "all of n" may be
said as "n of n". Then the leaves are the same up to order, the depth is the same, a policy without
unsupported nodes stays one, and the same sets satisfy it. So the service decides the same
(`authorize_rearranged`). The first offence on the way depends on the order of children, but whether
there is one does not.
-/

namespace KeyPolicy

open Policy

namespace Policy

variable {change : Policy → Policy → Prop} {p q c d : Policy} {before after : List Policy}

/-! ## Changes at any nodes -/

/-- The second policy comes from the first by changes at any nodes, any number of times. -/
inductive Rewrites (change : Policy → Policy → Prop) : Policy → Policy → Prop
  | refl (p : Policy) : Rewrites change p p
  | trans {p q r : Policy} : Rewrites change p q → Rewrites change q r → Rewrites change p r
  | here {p q : Policy} : change p q → Rewrites change p q
  | allOf {c d : Policy} (before after : List Policy) : Rewrites change c d →
      Rewrites change (.allOf (before ++ c :: after)) (.allOf (before ++ d :: after))
  | threshold {c d : Policy} (m : UInt32) (before after : List Policy) : Rewrites change c d →
      Rewrites change (.threshold m (before ++ c :: after)) (.threshold m (before ++ d :: after))

/-- All children of a node may change at once. -/
theorem Rewrites.of_forall₂ {parent : List Policy → Policy} {cs ds : List Policy}
    (hparent : ∀ {c d} before after, Rewrites change c d →
      Rewrites change (parent (before ++ c :: after)) (parent (before ++ d :: after)))
    (h : List.Forall₂ (Rewrites change) cs ds) : Rewrites change (parent cs) (parent ds) := by
  suffices hbehind : ∀ before, Rewrites change (parent (before ++ cs)) (parent (before ++ ds)) from
    hbehind []
  induction h with
  | nil => exact fun before => .refl _
  | @cons c d cs ds hc _ ih =>
    intro before
    have hrest := ih (before ++ [d])
    rw [List.append_assoc, List.append_assoc] at hrest
    exact (hparent before cs hc).trans hrest

/-- Both nodes are composite and have the same children in the same order. -/
def SameChildren (p q : Policy) : Prop := ∃ cs, p.children? = some cs ∧ q.children? = some cs

theorem expandAllInto_congr {limit level : Nat} {lookup : Lookup}
    (h : ∀ found, c.expandInto limit lookup level found = d.expandInto limit lookup level found)
    (before after : List Policy) (found : ResolvedSet) :
    expandAllInto limit lookup level found (before ++ c :: after) =
      expandAllInto limit lookup level found (before ++ d :: after) := by
  induction before generalizing found with
  | nil => simp only [List.nil_append, expandAllInto, h]
  | cons b before ih => simp only [List.cons_append, expandAllInto, ih]

/-- A walk does not notice changes that keep the children. -/
theorem Rewrites.expandInto_eq (hchange : ∀ p q, change p q → SameChildren p q)
    (h : Rewrites change p q) (limit : Nat) (lookup : Lookup) (level : Nat) (found : ResolvedSet) :
    p.expandInto limit lookup level found = q.expandInto limit lookup level found := by
  induction h generalizing level found with
  | refl p => rfl
  | trans _ _ ihp ihq => rw [ihp, ihq]
  | here hpq =>
    obtain ⟨cs, hp, hq⟩ := hchange _ _ hpq
    rw [expandInto_of_children hp, expandInto_of_children hq]
  | allOf before after _ ih | threshold m before after _ ih =>
    rw [expandInto_of_children rfl, expandInto_of_children rfl,
      expandAllInto_congr (ih (level + 1)) before after]

theorem Rewrites.run_eq (hchange : ∀ p q, change p q → SameChildren p q) (h : Rewrites change p q)
    (e : Expander) (lookup : Lookup) : e.run lookup [p] = e.run lookup [q] :=
  expandAllInto_congr (h.expandInto_eq hchange e.maxDepth lookup 0) [] [] ∅

/-! ## Other forms of one policy -/

/-- The same children in another order. -/
inductive Reorders : Policy → Policy → Prop
  | allOf {cs ds : List Policy} : cs.Perm ds → Reorders (.allOf cs) (.allOf ds)
  | threshold {m : UInt32} {cs ds : List Policy} : cs.Perm ds →
      Reorders (.threshold m cs) (.threshold m ds)

/-- "All of n" said as "n of n", or the other way round. -/
inductive Rephrases : Policy → Policy → Prop
  | allOf {cs : List Policy} : cs.length < UInt32.size →
      Rephrases (.allOf cs) (.threshold (UInt32.ofNat cs.length) cs)
  | threshold {cs : List Policy} : cs.length < UInt32.size →
      Rephrases (.threshold (UInt32.ofNat cs.length) cs) (.allOf cs)

/-- Another form of the same node. -/
def Rearranges (p q : Policy) : Prop := Reorders p q ∨ Rephrases p q

/-- The children stay, up to order. -/
theorem Rearranges.children (h : Rearranges p q) :
    ∃ cs ds, p.children? = some cs ∧ q.children? = some ds ∧ cs.Perm ds := by
  rcases h with h | h <;> cases h
  case inl.allOf h | inl.threshold h => exact ⟨_, _, rfl, rfl, h⟩
  case inr.allOf | inr.threshold => exact ⟨_, _, rfl, rfl, .refl _⟩

theorem Rephrases.sameChildren (h : Rephrases p q) : SameChildren p q := by
  cases h <;> exact ⟨_, rfl, rfl⟩

/-! ### Leaves and depth -/

theorem Rewrites.leaves_perm (h : Rewrites Rearranges p q) : p.leaves.Perm q.leaves := by
  induction h with
  | refl p => exact .refl _
  | trans _ _ ihp ihq => exact ihp.trans ihq
  | here hpq =>
    obtain ⟨cs, ds, hp, hq, hperm⟩ := hpq.children
    rw [leaves_of_children hp, leaves_of_children hq, leavesOf_eq_flatMap, leavesOf_eq_flatMap]
    exact hperm.flatMap_right leaves
  | allOf before after _ ih | threshold m before after _ ih =>
    simp only [leaves, leavesOf_append, leavesOf]
    exact (ih.append_right _).append_left _

theorem maxDepth_perm {cs ds : List Policy} (h : cs.Perm ds) : maxDepth cs = maxDepth ds := by
  apply Nat.le_antisymm <;> rw [maxDepth_le_iff]
  · exact fun c hc => depth_le_maxDepth (h.mem_iff.1 hc)
  · exact fun d hd => depth_le_maxDepth (h.mem_iff.2 hd)

theorem Rewrites.depth_eq (h : Rewrites Rearranges p q) : p.depth = q.depth := by
  induction h with
  | refl p => rfl
  | trans _ _ ihp ihq => rw [ihp, ihq]
  | here hpq =>
    obtain ⟨cs, ds, hp, hq, hperm⟩ := hpq.children
    rw [depth_of_children hp, depth_of_children hq, maxDepth_perm hperm]
  | @allOf c d before after _ ih | @threshold c d m before after _ ih =>
    have hmax : maxDepth (before ++ c :: after) = maxDepth (before ++ d :: after) := by
      induction before with
      | nil => simp only [List.nil_append, maxDepth, ih]
      | cons b before ihb => simp only [List.cons_append, maxDepth, ihb]
    rw [depth, depth, hmax]

/-! ### Supported policies -/

theorem supported_congr (hp : p.children? = some (before ++ c :: after))
    (hq : q.children? = some (before ++ d :: after)) (h : c.Supported ↔ d.Supported) :
    p.Supported ↔ q.Supported := by
  simp only [supported_of_children hp, supported_of_children hq, List.forall_mem_append,
    List.forall_mem_cons, h]

theorem Rewrites.supported_iff (h : Rewrites Rearranges p q) : p.Supported ↔ q.Supported := by
  induction h with
  | refl p => exact Iff.rfl
  | trans _ _ ihp ihq => exact ihp.trans ihq
  | here hpq =>
    obtain ⟨cs, ds, hp, hq, hperm⟩ := hpq.children
    rw [supported_of_children hp, supported_of_children hq]
    exact forall_congr' fun c => by rw [hperm.mem_iff]
  | allOf before after _ ih | threshold m before after _ ih => exact supported_congr rfl rfl ih

/-! ### Satisfaction -/

theorem Rearranges.satisfiedBy_eq (h : Rearranges p q) (verified : ResolvedSet) :
    p.satisfiedBy verified = q.satisfiedBy verified := by
  rcases h with h | h
  · cases h with
    | allOf hperm =>
      rw [satisfiedBy, satisfiedBy, allSatisfiedBy_eq_all, allSatisfiedBy_eq_all, hperm.all_eq]
    | threshold hperm =>
      rw [satisfiedBy, satisfiedBy, satisfiedCount_eq_countP, satisfiedCount_eq_countP,
        hperm.countP_eq]
  · have hall : ∀ cs : List Policy, cs.length < UInt32.size → (allOf cs).satisfiedBy verified =
        (threshold (UInt32.ofNat cs.length) cs).satisfiedBy verified := by
      intro cs hlen
      rw [satisfiedBy, satisfiedBy, allSatisfiedBy_eq_all, satisfiedCount_eq_countP,
        UInt32.toNat_ofNat_of_lt' hlen, Bool.eq_iff_iff, List.all_eq_true, decide_eq_true_iff,
        ← List.countP_eq_length]
      exact ⟨Nat.le_of_eq ∘ Eq.symm, Nat.le_antisymm List.countP_le_length⟩
    cases h with
    | allOf hlen => exact hall _ hlen
    | threshold hlen => exact (hall _ hlen).symm

theorem Rewrites.satisfiedBy_eq (h : Rewrites Rearranges p q) (verified : ResolvedSet) :
    p.satisfiedBy verified = q.satisfiedBy verified := by
  induction h with
  | refl p => rfl
  | trans _ _ ihp ihq => rw [ihp, ihq]
  | here hpq => exact hpq.satisfiedBy_eq verified
  | allOf before after _ ih =>
    simp only [satisfiedBy, allSatisfiedBy_eq_all, List.all_append, List.all_cons, ih]
  | threshold m before after _ ih =>
    simp only [satisfiedBy, satisfiedCount_eq_countP, List.countP_append, List.countP_cons, ih]

end Policy

/-! ## The service -/

namespace Service

variable (s : Service) {m m' : SignatureMap} {p q : Policy}

/-- Two outcomes of an expansion, both an error or both the same set. -/
theorem expand_rearranged (h : Rewrites Rearranges p q) (hm : ∀ x, x ∈ m.pairs ↔ x ∈ m'.pairs)
    (e : Expander) :
    (∃ err err', e.expand p m = .error err ∧ e.expand q m' = .error err') ∨
      ∃ found, e.expand p m = .ok found ∧ e.expand q m' = .ok found := by
  -- Which node offends first may change, but not whether one does.
  have hnone : firstOffence? e.maxDepth [p] = none ↔ firstOffence? e.maxDepth [q] = none := by
    rw [firstOffence?_singleton_eq_none_iff, firstOffence?_singleton_eq_none_iff, h.supported_iff,
      h.depth_eq]
  by_cases hp : firstOffence? e.maxDepth [p] = none
  · obtain ⟨found, hfound⟩ : ∃ found, e.expand p m = .ok found :=
      Expander.exists_run_eq_ok_iff.2 hp
    obtain ⟨found', hfound'⟩ : ∃ found, e.expand q m' = .ok found :=
      Expander.exists_run_eq_ok_iff.2 (hnone.1 hp)
    have heq : found = found' := by
      ext r
      rw [Expander.mem_of_expandAll_eq_ok hfound, Expander.mem_of_expandAll_eq_ok hfound']
      simp only [leavesOf, List.append_nil, h.leaves_perm.mem_iff, hm]
    exact .inr ⟨found, hfound, heq ▸ hfound'⟩
  · obtain ⟨err, herr⟩ : ∃ err, e.expand p m = .error err :=
      Expander.exists_run_eq_error_iff.2 hp
    obtain ⟨err', herr'⟩ : ∃ err, e.expand q m' = .error err :=
      Expander.exists_run_eq_error_iff.2 fun hq => hp (hnone.2 hq)
    exact .inl ⟨err, err', herr, herr'⟩

/-- Without reordering the outcome is the same, and so is the error. -/
theorem expand_rephrased (h : Rewrites Rephrases p q) (hm : ∀ x, x ∈ m.pairs ↔ x ∈ m'.pairs)
    (e : Expander) : e.expand p m = e.expand q m' := by
  have hlookup : ∀ k x, x ∈ m.candidates k ↔ x ∈ m'.candidates k := by
    intro k x
    rw [SignatureMap.mem_candidates, SignatureMap.mem_candidates, hm]
  calc e.run m.candidates [p] = e.run m.candidates [q] :=
        h.run_eq (fun _ _ => Rephrases.sameChildren) e m.candidates
    _ = e.run m'.candidates [q] := Expander.run_congr hlookup

/-- **The form of a policy does not matter.** Let the children of some nodes stand in another order,
or "all of n" be said as "n of n", and let the map list the same pairs in another order or number.
Then an expansion fails in both cases or finds the same set, an authorization fails in both or gives
the same answer, and depth and number of leaves agree. If no children changed places, a failure has
the same error. -/
theorem authorize_rearranged (h : Rewrites Rearranges p q)
    (hm : ∀ x, x ∈ m.pairs ↔ x ∈ m'.pairs) (verify : ResolvedPair → Bytes → Bool) :
    let env := Transcript.surroundings verify fun p verified => p.satisfiedBy verified
    let outcome := fun p m => (s.expandKey env p m).value
    let answer := fun p m digest => (s.authorize env p m digest).value
    ((∃ err err', outcome p m = .error err ∧ outcome q m' = .error err') ∨
      ∃ found, outcome p m = .ok found ∧ outcome q m' = .ok found) ∧
    (∀ digest,
      (∃ err err', answer p m digest = .error err ∧ answer q m' digest = .error err') ∨
        ∃ b, answer p m digest = .ok b ∧ answer q m' digest = .ok b) ∧
    p.depth = q.depth ∧ p.leafCount = q.leafCount ∧
    (Rewrites Rephrases p q →
      outcome p m = outcome q m' ∧ ∀ digest, answer p m digest = answer q m' digest) := by
  intro env outcome answer
  have hsatisfied : ∀ found digest, p.satisfiedBy (OrderedSet.filter (verify · digest) found) =
      q.satisfiedBy (OrderedSet.filter (verify · digest) found) :=
    fun found digest => h.satisfiedBy_eq _
  have hleaves : p.leafCount = q.leafCount := by
    rw [leafCount_eq_length.1, leafCount_eq_length.1, h.leaves_perm.length_eq]
  have hexpand := expand_rearranged h hm s.expander
  simp only [outcome, answer, env, value_expandKey, value_authorize, hsatisfied]
  refine ⟨hexpand, fun digest => ?_, h.depth_eq, hleaves, fun hq => ?_⟩
  · rcases hexpand with ⟨err, err', hp, hq⟩ | ⟨found, hp, hq⟩
    · exact .inl ⟨err, err', by rw [hp]; rfl, by rw [hq]; rfl⟩
    · exact .inr ⟨_, by rw [hp]; rfl, by rw [hq]; rfl⟩
  · have heq := expand_rephrased hq hm s.expander
    exact ⟨heq, fun digest => by rw [heq]⟩

/-- Under a limit of two both forms are authorized. Under a limit of one, two forms with the
children in one order are refused alike. -/
theorem authorize_rearranged_two_of_two :
    let choice := fun k l => Policy.threshold 1 [.key (.ofByte k), .key (.ofByte l)]
    let p : Policy := .allOf [.key (.ofByte 1), choice 2 3]
    let p' : Policy := .threshold 2 [.key (.ofByte 1), choice 2 3]
    let q : Policy := .threshold 2 [choice 3 2, .key (.ofByte 1)]
    let x : SignaturePair := ⟨.ed25519, [1], [7]⟩
    let y : SignaturePair := ⟨.ed25519, [], [8]⟩
    let env := Transcript.surroundings (fun r digest => r.signature == [7] || digest == [9])
      fun p verified => p.satisfiedBy verified
    Rewrites Rearranges p q ∧ Rewrites Rephrases p p' ∧ (∀ z, z ∈ [x, y] ↔ z ∈ [y, x, y]) ∧
      (authorize ⟨⟨2, 32⟩⟩ env p ⟨[x, y]⟩ [9]).value = .ok true ∧
      (authorize ⟨⟨2, 32⟩⟩ env q ⟨[y, x, y]⟩ [9]).value = .ok true ∧
      (expandKey ⟨⟨1, 32⟩⟩ env p ⟨[x, y]⟩).value = .error (.depthExceeded 1) ∧
      (expandKey ⟨⟨1, 32⟩⟩ env p' ⟨[y, x, y]⟩).value = .error (.depthExceeded 1) := by
  intro choice p p' q x y env
  have hphrase : Rewrites Rephrases p p' := .here (.allOf (by decide))
  have hphrase' : Rewrites Rearranges p p' := .here (.inr (.allOf (by decide)))
  have hswap : ∀ k l, Rewrites Rearranges (choice k l) (choice l k) := fun k l =>
    .here (.inl (.threshold (.swap _ _ _)))
  have horder : Rewrites Rearranges p' q :=
    (Rewrites.threshold 2 [.key (.ofByte 1)] [] (hswap 2 3)).trans
      (.here (.inl (.threshold (.swap _ _ _))))
  have hm : ∀ z, z ∈ [x, y] ↔ z ∈ [y, x, y] := by grind
  have hp : (authorize ⟨⟨2, 32⟩⟩ env p ⟨[x, y]⟩ [9]).value = .ok true := by rfl
  have he : (expandKey ⟨⟨1, 32⟩⟩ env p ⟨[x, y]⟩).value = .error (.depthExceeded 1) := by rfl
  obtain ⟨-, hanswer, -⟩ := authorize_rearranged ⟨⟨2, 32⟩⟩ (hphrase'.trans horder) hm
    fun r digest => r.signature == [7] || digest == [9]
  obtain ⟨-, -, -, -, hsame⟩ := authorize_rearranged ⟨⟨1, 32⟩⟩ hphrase' hm
    fun r digest => r.signature == [7] || digest == [9]
  have hq : (authorize ⟨⟨2, 32⟩⟩ env q ⟨[y, x, y]⟩ [9]).value = .ok true := by
    rcases hanswer [9] with ⟨err, _, herr, -⟩ | ⟨b, hb, hb'⟩
    · exact absurd (herr.symm.trans hp) nofun
    · exact hb'.trans (hb.symm.trans hp)
  exact ⟨hphrase'.trans horder, hphrase, hm, hp, hq, he, (hsame hphrase).1.symm.trans he⟩

end Service

end KeyPolicy
