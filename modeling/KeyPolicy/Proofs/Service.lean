import KeyPolicy.Proofs.Index
import KeyPolicy.Transcript

/-!
# What the service does, call by call

When the verifier and the evaluator are plain functions, a run of the service is a transcript. Here
each operation has its transcript written out: the answer, and every call that led to it.

The configuration decides whether a map is searched through an index, but the outcome of an
expansion does not depend on that (`Service.expansion_eq`). All operations go through one expansion,
so none of them shows which way it took.
-/

namespace KeyPolicy

namespace Service

/-- Whatever the configuration says about the index, expansion is expansion with the whole map. -/
theorem expansion_eq (s : Service) (ps : List Policy) (m : SignatureMap) :
    s.expansion ps m = s.expander.expandAll ps m := by
  by_cases h : s.config.prefixIndexMinPairs.toNat ≤ m.size
  · rw [expansion, if_pos h, Expander.expandIndexed_build]
  · rw [expansion, if_neg h]

/-! ## Services that differ in their use of the index -/

section Congruence

variable {m : Type → Type} [Monad m] {s t : Service}

theorem expandKeys_congr (h : s.config.maxKeyDepth = t.config.maxKeyDepth) (env : Surroundings m)
    (ps : List Policy) (sigs : SignatureMap) :
    s.expandKeys env ps sigs = t.expandKeys env ps sigs := by
  have hexp : s.expansion ps sigs = t.expansion ps sigs := by
    rw [expansion_eq, expansion_eq, expander, expander, h]
  rw [expandKeys, expandKeys, hexp]

theorem expandKey_congr (h : s.config.maxKeyDepth = t.config.maxKeyDepth) (env : Surroundings m)
    (p : Policy) (sigs : SignatureMap) : s.expandKey env p sigs = t.expandKey env p sigs :=
  expandKeys_congr h env [p] sigs

theorem expandBatch_congr (h : s.config.maxKeyDepth = t.config.maxKeyDepth) (env : Surroundings m)
    (rs : List ExpansionRequest) : s.expandBatch env rs = t.expandBatch env rs := by
  induction rs with
  | nil => rfl
  | cons r rs ih => rw [expandBatch, expandBatch, expandKeys_congr h, ih]

theorem authorize_congr (h : s.config.maxKeyDepth = t.config.maxKeyDepth) (env : Surroundings m)
    (p : Policy) (sigs : SignatureMap) (digest : Bytes) :
    s.authorize env p sigs digest = t.authorize env p sigs digest := by
  rw [authorize, authorize, expandKey_congr h]

end Congruence

/-! ## Transcripts -/

section Transcripts

variable (verify : ResolvedPair → Bytes → Bool) (evaluate : Policy → ResolvedSet → Bool)
  (s : Service)

theorem expandKeys_eq (ps : List Policy) (m : SignatureMap) :
    s.expandKeys (Transcript.surroundings verify evaluate) ps m =
      ⟨s.expander.expandAll ps m, [.emit (.ofExpansion ps m (s.expander.expandAll ps m))]⟩ := by
  rw [expandKeys, expansion_eq]
  rfl

/-- A batch has the outcomes of its requests, each taken by itself. -/
theorem value_expandBatch (rs : List ExpansionRequest) :
    (s.expandBatch (Transcript.surroundings verify evaluate) rs).value =
      rs.map fun r => s.expander.expandAll r.policies r.signatures := by
  induction rs with
  | nil => rfl
  | cons r rs ih =>
    rw [List.map_cons, ← ih, expandBatch, Transcript.value_bind, Transcript.value_bind,
      expandKeys_eq]
    rfl

theorem acceptedPairs_eq (digest : Bytes) (rs : List ResolvedPair) :
    acceptedPairs (Transcript.surroundings verify evaluate) digest rs =
      ⟨rs.filter (verify · digest), rs.map (.verify · digest)⟩ := by
  induction rs with
  | nil => rfl
  | cons r rs ih =>
    rw [acceptedPairs, ih, List.filter_cons, List.map_cons]
    ext : 1
    · rfl
    · show [Call.verify r digest] ++ (rs.map (.verify · digest) ++ []) = _
      rw [List.append_nil, List.singleton_append]

theorem authorize_of_error {p : Policy} {m : SignatureMap} {err : ExpansionError}
    (h : s.expander.expand p m = .error err) (digest : Bytes) :
    s.authorize (Transcript.surroundings verify evaluate) p m digest =
      ⟨.error err, [.emit (.refused 1 m.size err)]⟩ := by
  have hall : s.expander.expandAll [p] m = .error err := h
  rw [authorize, expandKey, expandKeys_eq, hall]
  rfl

/-- An authorization whose expansion succeeds verifies the pairs that were found, and evaluates the
policy with those that the verifier accepts. -/
theorem authorize_of_ok {p : Policy} {m : SignatureMap} {found : ResolvedSet}
    (h : s.expander.expand p m = .ok found) (digest : Bytes) :
    s.authorize (Transcript.surroundings verify evaluate) p m digest =
      let verified := found.filter (verify · digest)
      ⟨.ok (evaluate p verified),
        .emit (.expanded 1 m.size found.size) :: found.toList.map (.verify · digest) ++
          [.evaluate p verified, .emit (.authorizationEvaluated found.size verified.size
            (evaluate p verified))]⟩ := by
  have hall : s.expander.expandAll [p] m = .ok found := h
  have hset : OrderedSet.ofList (found.toList.filter (verify · digest)) =
      found.filter (verify · digest) := OrderedSet.ofList_filter_toList _ _
  rw [authorize, expandKey, expandKeys_eq, hall]
  ext : 1
  · simp only [Transcript.value_bind, acceptedPairs_eq, hset]
    rfl
  · simp only [Transcript.calls_bind, acceptedPairs_eq, hset]
    rfl

theorem value_expandKey (p : Policy) (m : SignatureMap) :
    (s.expandKey (Transcript.surroundings verify evaluate) p m).value = s.expander.expand p m := by
  rw [expandKey, expandKeys_eq]
  rfl

theorem value_authorize (p : Policy) (m : SignatureMap) (digest : Bytes) :
    (s.authorize (Transcript.surroundings verify evaluate) p m digest).value =
      (s.expander.expand p m).map fun found => evaluate p (found.filter (verify · digest)) := by
  cases h : s.expander.expand p m with
  | error err => rw [authorize_of_error verify evaluate s h]; rfl
  | ok found => rw [authorize_of_ok verify evaluate s h]; rfl

end Transcripts

end Service

/-! ## The index cannot be observed -/

/-- **The index makes no difference.** Expanding with the index of a map is expanding with the map.
So services that agree on the depth give equal transcripts, which are equal answers and equal
reports, however many signatures each wants before it builds an index. -/
theorem prefixIndex_unobservable :
    (∀ (d : Nat) (ps : List Policy) (m : SignatureMap),
      Expander.expandIndexed ⟨d⟩ ps (.build m) = Expander.expandAll ⟨d⟩ ps m) ∧
    ∀ (depth minPairs minPairs' : UInt64) (verify : ResolvedPair → Bytes → Bool)
      (evaluate : Policy → ResolvedSet → Bool),
      let s : Service := ⟨⟨depth, minPairs⟩⟩
      let t : Service := ⟨⟨depth, minPairs'⟩⟩
      let env := Transcript.surroundings verify evaluate
      (∀ p m, s.expandKey env p m = t.expandKey env p m) ∧
      (∀ ps m, s.expandKeys env ps m = t.expandKeys env ps m) ∧
      (∀ rs, s.expandBatch env rs = t.expandBatch env rs ∧
        (s.expandBatch env rs).value =
          rs.map fun r => (t.expandKeys env r.policies r.signatures).value) ∧
      (∀ p m digest, s.authorize env p m digest = t.authorize env p m digest) := by
  refine ⟨fun d => Expander.expandIndexed_build ⟨d⟩, ?_⟩
  intro depth minPairs minPairs' verify evaluate s t env
  have h : s.config.maxKeyDepth = t.config.maxKeyDepth := rfl
  refine ⟨Service.expandKey_congr h env, Service.expandKeys_congr h env,
    fun rs => ⟨Service.expandBatch_congr h env rs, ?_⟩, Service.authorize_congr h env⟩
  simp only [Service.expandBatch_congr h, env, Service.value_expandBatch, Service.expandKeys_eq]

end KeyPolicy
