import KeyPolicy.Policy.Satisfaction
import KeyPolicy.Proofs.Service

/-!
# What an authorization asks of its surroundings

**Theorem (`Service.authorize_calls`).** An authorization whose expansion fails asks nobody anything
and leaves one warning. Otherwise it asks the verifier about each pair that was found, once and with
the digest that it was given, then the evaluator once about the policy and the pairs that the
verifier accepted, and it leaves one report of the expansion and one of the outcome.

The transcript of an authorization is known in full (`Service.authorize_of_ok`). What is left is to
sort its calls by whom they went to: those to the verifier stand together in the middle, and have no
part in what the evaluator was asked or in what was reported.
-/

namespace KeyPolicy

/-- What a log shows of an event: how serious it is, what it says and the values that it names. -/
def Event.entry (e : Event) : Severity × String × List (String × EventValue) :=
  (e.severity, e.message, e.values)

/-! ## Sorting calls by whom they went to -/

/-- Calls to the verifier have no part in what others were asked. -/
theorem filterMap_verify_eq_nil {β : Type} {f : Call → Option β}
    (hf : ∀ r digest, f (.verify r digest) = none) (rs : List ResolvedPair) (digest : Bytes) :
    (rs.map (Call.verify · digest)).filterMap f = [] := by
  rw [List.filterMap_map]
  exact List.filterMap_eq_nil_iff.2 fun r _ => hf r digest

theorem filterMap_verified?_verify (rs : List ResolvedPair) (digest : Bytes) :
    (rs.map (Call.verify · digest)).filterMap Call.verified? = rs.map (·, digest) := by
  rw [List.filterMap_map]
  exact congrFun List.filterMap_eq_map' rs

theorem Transcript.sorted_of_calls {α : Type} {t : Transcript α} {rs : List ResolvedPair}
    {digest : Bytes} {first last : Event} {p : Policy} {verified : ResolvedSet}
    (h : t.calls = .emit first :: rs.map (.verify · digest) ++
      [.evaluate p verified, .emit last]) :
    t.events = [first, last] ∧ t.verifications = rs.map (·, digest) ∧
      t.evaluations = [(p, verified)] := by
  have hevent := filterMap_verify_eq_nil (f := Call.event?) (fun _ _ => rfl) rs digest
  have hevaluated := filterMap_verify_eq_nil (f := Call.evaluated?) (fun _ _ => rfl) rs digest
  simp only [events, verifications, evaluations, h, List.cons_append, List.filterMap_cons,
    List.filterMap_append, hevent, hevaluated, filterMap_verified?_verify]
  exact ⟨rfl, List.append_nil _, rfl⟩

/-! ## Authorizations -/

namespace Service

/-- **What an authorization asks and reports.** If the expansion of the policy fails, its error is
the answer, neither the verifier nor the evaluator is asked, and there is one warning with the text
of the error. If it finds a set of pairs, the verifier is asked about each pair of the set exactly
once, always with the given digest. The evaluator is asked once, about the policy and the pairs that
were accepted, and its answer is the answer. There are two reports, of the expansion and then of the
outcome. All of this holds whether the map is searched through an index or not. -/
theorem authorize_calls (s : Service) (verify : ResolvedPair → Bytes → Bool)
    (evaluate : Policy → ResolvedSet → Bool) (p : Policy) (m : SignatureMap) (digest : Bytes) :
    let run := s.authorize (Transcript.surroundings verify evaluate) p m digest
    (∀ err, s.expansion [p] m = .error err →
      run.value = .error err ∧ run.verifications = [] ∧ run.evaluations = [] ∧
      run.events.map Event.entry = [(.warn, "Signature expansion rejected key structure",
        [("keys", .count 1), ("signature_pairs", .count m.size),
          ("error", .text err.message)])]) ∧
    ∀ found, s.expansion [p] m = .ok found →
      let verified := found.filter (verify · digest)
      let authorized := evaluate p verified
      run.value = .ok authorized ∧
      (run.verifications.length = found.size ∧ run.verifications.Nodup ∧
        ∀ r d, (r, d) ∈ run.verifications ↔ r ∈ found ∧ d = digest) ∧
      run.evaluations = [(p, verified)] ∧
      verified.size ≤ found.size ∧
      run.events.map Event.entry = [
        (.debug, "Signature pairs expanded",
          [("keys", .count 1), ("signature_pairs", .count m.size),
            ("expanded", .count found.size)]),
        (.debug, "Key authorization evaluated",
          [("candidates", .count found.size), ("verified", .count verified.size),
            ("authorized", .flag authorized)])] := by
  intro run
  constructor
  -- The expansion fails: the run is its one warning.
  · intro err h
    have hexpand : s.expander.expand p m = .error err := (s.expansion_eq [p] m).symm.trans h
    have hrun : run = _ := authorize_of_error verify evaluate s hexpand digest
    rw [hrun]
    exact ⟨rfl, rfl, rfl, rfl⟩
  -- The expansion succeeds: the calls of the run, sorted by whom they went to.
  · intro found h verified authorized
    have hexpand : s.expander.expand p m = .ok found := (s.expansion_eq [p] m).symm.trans h
    have hrun : run = _ := authorize_of_ok verify evaluate s hexpand digest
    obtain ⟨hevents, hverifications, hevaluations⟩ :=
      Transcript.sorted_of_calls (congrArg Transcript.calls hrun)
    refine ⟨congrArg Transcript.value hrun, ⟨?_, ?_, fun r d => ?_⟩, hevaluations,
      List.length_filter_le .., ?_⟩
    · rw [hverifications, List.length_map, OrderedSet.size]
    -- Two verifications are of different pairs, since the digest is always the same.
    · rw [hverifications]
      exact found.nodup_toList.map fun _ _ hsame => (Prod.mk.inj hsame).1
    · rw [hverifications, List.mem_map]
      constructor
      · rintro ⟨r, hr, hsame⟩
        cases hsame
        exact ⟨hr, rfl⟩
      · rintro ⟨hr, rfl⟩
        exact ⟨r, hr, rfl⟩
    · rw [hevents]
      rfl

/-- A contract is refused on the way through the index. On the other way two signatures match two
keys each, and one of the four pairs is accepted. -/
theorem authorize_calls_one_of_four :
    let one := PublicKey.ofByte 1
    let two := PublicKey.ofByte 2
    let m : SignatureMap := ⟨[⟨.ed25519, [], [7]⟩, ⟨.ed25519, [], [8]⟩]⟩
    let verify := fun (r : ResolvedPair) (digest : Bytes) =>
      r.key.bytes.head? == some 1 && r.signature == [8] && digest == [9]
    let env := Transcript.surroundings verify fun p verified => p.satisfiedBy verified
    let refused := authorize ⟨⟨1, 0⟩⟩ env (.allOf [.key one, .contract 5]) m [9]
    let evaluated := authorize ⟨⟨1, 32⟩⟩ env (.threshold 1 [.key one, .key two]) m [9]
    (refused.value = .error (.unsupportedKind .contractId) ∧ refused.verifications = [] ∧
      refused.evaluations = [] ∧ refused.events.length = 1) ∧
    evaluated.value = .ok true ∧ evaluated.verifications.length = 4 ∧
      evaluated.evaluations.length = 1 ∧ (evaluated.events.map Event.entry).getLast? =
        some (.debug, "Key authorization evaluated",
          [("candidates", .count 4), ("verified", .count 1), ("authorized", .flag true)]) := by
  intro one two m verify env refused evaluated
  constructor
  · obtain ⟨hvalue, hverifications, hevaluations, hevents⟩ :=
      (authorize_calls ⟨⟨1, 0⟩⟩ verify (fun p verified => p.satisfiedBy verified)
        (.allOf [.key one, .contract 5]) m [9]).1 (.unsupportedKind .contractId) rfl
    have hlength := congrArg List.length hevents
    rw [List.length_map] at hlength
    exact ⟨hvalue, hverifications, hevaluations, hlength⟩
  · obtain ⟨hvalue, ⟨hlength, -⟩, hevaluations, -, hevents⟩ :=
      (authorize_calls ⟨⟨1, 32⟩⟩ verify (fun p verified => p.satisfiedBy verified)
        (.threshold 1 [.key one, .key two]) m [9]).2
        (.ofList [one.resolve [7], one.resolve [8], two.resolve [7], two.resolve [8]]) rfl
    exact ⟨hvalue, hlength, congrArg List.length hevaluations, congrArg List.getLast? hevents⟩

end Service

end KeyPolicy
