import KeyPolicy.Proofs.Rewriting

/-!
# More signatures and lower thresholds take nothing away

Let some thresholds of a policy be lowered, let a second map have a counterpart for each pair of a
first one that says no more about its key, and let a second verifier accept whatever a first one
accepts. Then the second expansion fails exactly as the first one does, or else finds all that the
first one finds; and what was authorized stays authorized.

The walk does not see thresholds, so the change of the policy leaves the expansion alone, and the
shorter leading bytes can only add pairs. What is verified in the first run is then verified in the
second, and satisfaction is monotone in both: in the set (`satisfiedBy_of_subset`) and in the
thresholds (`Rewrites.satisfiedBy_of_lowers`).
-/

namespace KeyPolicy

open Policy

namespace Policy

/-- A lower threshold over the same children. -/
inductive Lowers : Policy → Policy → Prop
  | threshold {m n : UInt32} {cs : List Policy} : n ≤ m →
      Lowers (.threshold m cs) (.threshold n cs)

theorem Lowers.sameChildren {p q : Policy} (h : Lowers p q) : SameChildren p q := by
  cases h
  exact ⟨_, rfl, rfl⟩

/-! ## Satisfaction -/

/-- More verified pairs satisfy what fewer do. -/
theorem satisfiedBy_of_subset {verified verified' : ResolvedSet}
    (hsub : ∀ r ∈ verified, r ∈ verified') {p : Policy} (h : p.satisfiedBy verified = true) :
    p.satisfiedBy verified' = true := by
  induction p using Policy.induction with
  | key k =>
    obtain ⟨r, hr, hk⟩ := ResolvedSet.hasKey_iff.1 h
    exact ResolvedSet.hasKey_iff.2 ⟨r, hsub r hr, hk⟩
  | allOf cs ih =>
    rw [satisfiedBy, allSatisfiedBy_eq_all, List.all_eq_true] at h ⊢
    exact fun c hc => ih c hc (h c hc)
  | threshold m cs ih =>
    rw [satisfiedBy, decide_eq_true_iff, satisfiedCount_eq_countP] at h ⊢
    exact Nat.le_trans h (List.countP_mono_left ih)
  | contract _ | delegatableContract _ | rsa3072 _ | ecdsaP384 _ => cases h

/-- Lower thresholds are met by whatever meets higher ones. -/
theorem Rewrites.satisfiedBy_of_lowers {verified : ResolvedSet} {p q : Policy}
    (h : Rewrites Lowers p q) (hp : p.satisfiedBy verified = true) :
    q.satisfiedBy verified = true := by
  induction h with
  | refl p => exact hp
  | trans _ _ ihp ihq => exact ihq (ihp hp)
  | here hpq =>
    cases hpq with
    | threshold hle =>
      rw [satisfiedBy, decide_eq_true_iff] at hp ⊢
      exact Nat.le_trans hle hp
  | allOf before after _ ih =>
    simp only [satisfiedBy, allSatisfiedBy_eq_all, List.all_append, List.all_cons,
      Bool.and_eq_true] at hp ⊢
    exact ⟨hp.1, ih hp.2.1, hp.2.2⟩
  | @threshold c d m before after _ ih =>
    simp only [satisfiedBy, decide_eq_true_iff, satisfiedCount_eq_countP, List.countP_append,
      List.countP_cons] at hp ⊢
    -- Only this child has changed, and it counts no less than before.
    have hchild : (if c.satisfiedBy verified = true then 1 else 0) ≤
        if d.satisfiedBy verified = true then 1 else 0 := by
      by_cases hc : c.satisfiedBy verified = true
      · rw [if_pos hc, if_pos (ih hc)]
      · rw [if_neg hc]
        exact Nat.zero_le _
    omega

end Policy

/-! ## The service -/

/-- Each pair of the other map has a counterpart here with the same signature, and with leading
bytes that are no longer and no different. -/
def SignatureMap.Covers (m' m : SignatureMap) : Prop :=
  ∀ x ∈ m.pairs, ∃ y ∈ m'.pairs,
    y.algorithm = x.algorithm ∧ y.signature = x.signature ∧ y.keyPrefix <+: x.keyPrefix

instance (m' m : SignatureMap) : Decidable (m'.Covers m) :=
  inferInstanceAs (Decidable (∀ x ∈ m.pairs, ∃ y ∈ m'.pairs, _))

namespace Service

variable (s : Service) {m m' : SignatureMap} {p q : Policy}

theorem expand_mono (h : Rewrites Lowers p q) (hm : m'.Covers m) (e : Expander) :
    (∃ err, e.expand p m = .error err ∧ e.expand q m' = .error err) ∨
      ∃ found found', e.expand p m = .ok found ∧ e.expand q m' = .ok found' ∧
        ∀ r ∈ found, r ∈ found' := by
  have hrun : e.expand q m' = e.expand p m' :=
    (h.run_eq (fun _ _ => Lowers.sameChildren) e m'.candidates).symm
  rw [hrun]
  cases hp : e.expand p m with
  | error err =>
    have herr : e.expand p m' = .error err :=
      Expander.run_eq_error_iff.2 (Expander.run_eq_error_iff.1 hp)
    exact .inl ⟨err, rfl, herr⟩
  | ok found =>
    obtain ⟨found', hfound'⟩ : ∃ found', e.expand p m' = .ok found' :=
      Expander.exists_run_eq_ok_iff.2 (Expander.exists_run_eq_ok_iff.1 ⟨found, hp⟩)
    refine .inr ⟨found, found', rfl, hfound', fun r hr => ?_⟩
    obtain ⟨hleaf, x, hx, ha, hstart, hsig⟩ := (Expander.mem_of_expandAll_eq_ok hp).1 hr
    obtain ⟨y, hy, ha', hsig', hstart'⟩ := hm x hx
    exact (Expander.mem_of_expandAll_eq_ok hfound').2
      ⟨hleaf, y, hy, ha'.trans ha, hstart'.trans hstart, hsig'.trans hsig⟩

/-- **Nothing is taken away.** With lower thresholds, a map that covers the first one and a verifier
that accepts no less, an expansion fails with the same error or finds at least the same pairs, and
an authorization that was given is given again. -/
theorem authorize_mono (h : Rewrites Lowers p q) (hm : m'.Covers m)
    {verify verify' : ResolvedPair → Bytes → Bool}
    (hverify : ∀ r digest, verify r digest = true → verify' r digest = true) :
    let env := Transcript.surroundings verify fun p verified => p.satisfiedBy verified
    let env' := Transcript.surroundings verify' fun p verified => p.satisfiedBy verified
    ((∃ err, (s.expandKey env p m).value = .error err ∧
        (s.expandKey env' q m').value = .error err) ∨
      ∃ found found', (s.expandKey env p m).value = .ok found ∧
        (s.expandKey env' q m').value = .ok found' ∧ ∀ r ∈ found, r ∈ found') ∧
    ∀ digest, (s.authorize env p m digest).value = .ok true →
      (s.authorize env' q m' digest).value = .ok true := by
  intro env env'
  have hexpand := expand_mono h hm s.expander
  simp only [env, env', value_expandKey, value_authorize]
  refine ⟨hexpand, fun digest hp => ?_⟩
  rcases hexpand with ⟨err, herr, -⟩ | ⟨found, found', hfound, hfound', hsub⟩
  · rw [herr] at hp
    cases hp
  · rw [hfound] at hp
    have hsatisfied : p.satisfiedBy (OrderedSet.filter (verify · digest) found) = true :=
      Except.ok.inj hp
    have hverified : ∀ r ∈ OrderedSet.filter (verify · digest) found,
        r ∈ OrderedSet.filter (verify' · digest) found' := by
      intro r hr
      obtain ⟨hr, haccept⟩ := OrderedSet.mem_filter.1 hr
      exact OrderedSet.mem_filter.2 ⟨hsub r hr, hverify r digest haccept⟩
    rw [hfound']
    exact congrArg Except.ok (h.satisfiedBy_of_lowers (satisfiedBy_of_subset hverified hsatisfied))

/-- A pair is added and the other loses its leading bytes, the thresholds of two children are
lowered, and the second verifier accepts everything. -/
theorem authorize_mono_added_pair :
    let choice := fun m k => Policy.threshold m [.key (.ofByte k), .allOf []]
    let p : Policy := .allOf [choice 2 1, choice 1 2]
    let q : Policy := .allOf [choice 1 1, choice 0 2]
    let m : SignatureMap := ⟨[⟨.ed25519, [1, 1], [7]⟩]⟩
    let m' : SignatureMap := ⟨[⟨.ed25519, [2], [8]⟩, ⟨.ed25519, [], [7]⟩]⟩
    let verify := fun (r : ResolvedPair) digest => r.signature == [7] && digest == [9]
    let verify' := fun (_ : ResolvedPair) (_ : Bytes) => true
    let sat := fun (p : Policy) verified => p.satisfiedBy verified
    Rewrites Lowers p q ∧ m'.Covers m ∧
      (∀ r digest, verify r digest = true → verify' r digest = true) ∧
      (authorize ⟨⟨3, 32⟩⟩ (Transcript.surroundings verify sat) p m [9]).value = .ok true ∧
      (authorize ⟨⟨3, 32⟩⟩ (Transcript.surroundings verify' sat) q m' [9]).value = .ok true := by
  intro choice p q m m' verify verify' sat
  have hlower : Rewrites Lowers p q := .of_forall₂ .allOf
    (.cons (.here (.threshold (by decide))) (.cons (.here (.threshold (by decide))) .nil))
  have hcovers : m'.Covers m := by decide
  have hverify : ∀ r digest, verify r digest = true → verify' r digest = true := fun _ _ _ => rfl
  have hp : (authorize ⟨⟨3, 32⟩⟩ (Transcript.surroundings verify sat) p m [9]).value = .ok true :=
    rfl
  exact ⟨hlower, hcovers, hverify, hp, (authorize_mono ⟨⟨3, 32⟩⟩ hlower hcovers hverify).2 [9] hp⟩

end Service

end KeyPolicy
