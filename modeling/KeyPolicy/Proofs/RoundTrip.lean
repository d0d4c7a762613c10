import KeyPolicy.Proofs.Presentation

/-!
# Reading back what was written

**Theorem (`Format.decode_encode`).** The text of a value is read back as that value when its
brackets nest at most 127 deep, and is refused when they nest deeper. This holds of all formats.

For a format it is enough to be *lawful*: the writer puts a value of known height in front of what
follows, and the reader takes it with checkpoints at which the brackets are all that can be wrong.
The compact text is one presentation of the document of a value, and the readers take all of them,
so every format with documents is lawful (`Lawful.of_conveys`).
-/

namespace KeyPolicy

open Json

namespace Format

variable {α : Type}

/-- What is written has the given nesting, and it is read back where there is room for that. -/
structure Lawful (f : Format α) (height : α → Nat) : Prop where
  writes : ∀ a, Writes (f.write a) (height a)
  reads : ∀ a, ∃ cps, OnlyNests (height a) cps ∧ Reads maxNesting f.read (f.write a) cps (· = a)

/-- Values are read back up to a nesting of 127, and refused beyond. -/
def RoundTrips (f : Format α) : Prop :=
  ∀ a, (nesting (f.encode a) ≤ 127 ↔ f.decode (f.encode a) = .ok a) ∧
    (128 ≤ nesting (f.encode a) ↔ ∃ e, f.decode (f.encode a) = .error e)

namespace Lawful

variable {f : Format α} {height : α → Nat}

theorem nesting_encode (h : Lawful f height) (a : α) : nesting (f.encode a) = height a :=
  (h.writes a).nesting_toText

theorem carries (h : Lawful f height) (a : α) :
    Carries maxNesting f.read (f.write a) (height a) a :=
  ⟨h.writes a, h.reads a⟩

theorem roundTrips (h : Lawful f height) : RoundTrips f := fun a =>
  (h.carries a).parse (f.write a).spaced_toText

theorem of_conveys {document : α → Document} (hdocuments : Documents f document)
    (h : ∀ a, Conveys maxNesting f.read (document a) (height a) a) : Lawful f height := by
  have hcarries : ∀ a, Carries maxNesting f.read (f.write a) (height a) a := fun a =>
    hdocuments a ▸ h a _ (presents_write (document a))
  exact ⟨fun a => (hcarries a).writes, fun a => (hcarries a).reads⟩

theorem algorithm : Lawful Format.algorithm fun _ => 0 :=
  of_conveys (fun _ => rfl) (conveys_algorithm maxNesting)

theorem publicKey : Lawful Format.publicKey fun _ => 2 :=
  of_conveys documents_publicKey (conveys_publicKey maxNesting)

theorem signaturePair : Lawful Format.signaturePair fun _ => 2 :=
  of_conveys documents_signaturePair (conveys_signaturePair maxNesting)

theorem signatureMap :
    Lawful Format.signatureMap fun m => 1 + tallest [1 + tallest (m.pairs.map fun _ => 2)] :=
  of_conveys documents_signatureMap (conveys_signatureMap maxNesting)

theorem config : Lawful Config.format fun _ => 1 :=
  of_conveys documents_config (conveys_config maxNesting)

theorem policy : Lawful Format.policy fun p => p.sketch.height :=
  of_conveys documents_policy (conveys_policy · maxNesting)

theorem children : Lawful Format.children fun cs => 2 + Sketch.maxHeight (Policy.sketches cs) :=
  of_conveys documents_children fun _ => conveys_children fun c _ => conveys_policy c maxNesting

theorem threshold :
    Lawful Format.threshold fun t => 3 + Sketch.maxHeight (Policy.sketches t.2) :=
  of_conveys documents_threshold fun t =>
    conveys_threshold t.1 fun c _ => conveys_policy c maxNesting

end Lawful

/-! ## All formats -/

theorem maxHeight_sketches (cs : List Policy) :
    Sketch.maxHeight (Policy.sketches cs) =
      tallest (cs.map fun c => nesting (policy.encode c)) := by
  simp only [Sketch.maxHeight_eq, Policy.sketches_eq_map, List.map_map,
    Lawful.policy.nesting_encode]
  rfl

/-- All formats read back what they write up to a nesting of 127 and refuse it beyond, and the
nesting of a policy is that of its deepest child and what its own brackets add. -/
theorem decode_encode :
    (RoundTrips policy ∧ RoundTrips publicKey ∧ RoundTrips children ∧ RoundTrips threshold ∧
      RoundTrips algorithm ∧ RoundTrips signaturePair ∧ RoundTrips signatureMap ∧
      RoundTrips Config.format) ∧
    (∀ k, nesting (policy.encode (.key k)) = 3) ∧
    (∀ n, nesting (policy.encode (.contract n)) = 1) ∧
    (∀ n, nesting (policy.encode (.delegatableContract n)) = 1) ∧
    (∀ bs, nesting (policy.encode (.rsa3072 bs)) = 2) ∧
    (∀ bs, nesting (policy.encode (.ecdsaP384 bs)) = 2) ∧
    (∀ cs, nesting (policy.encode (.allOf cs)) =
      3 + tallest (cs.map fun c => nesting (policy.encode c))) ∧
    ∀ m cs, nesting (policy.encode (.threshold m cs)) =
      4 + tallest (cs.map fun c => nesting (policy.encode c)) := by
  have hnesting := Lawful.policy.nesting_encode
  refine ⟨⟨Lawful.policy.roundTrips, Lawful.publicKey.roundTrips, Lawful.children.roundTrips,
    Lawful.threshold.roundTrips, Lawful.algorithm.roundTrips, Lawful.signaturePair.roundTrips,
    Lawful.signatureMap.roundTrips, Lawful.config.roundTrips⟩, ?_, ?_, ?_, ?_, ?_, ?_, ?_⟩
  · exact fun k => hnesting (.key k)
  · exact fun n => hnesting (.contract n)
  · exact fun n => hnesting (.delegatableContract n)
  · exact fun bs => hnesting (.rsa3072 bs)
  · exact fun bs => hnesting (.ecdsaP384 bs)
  · intro cs
    rw [hnesting, Policy.sketch, Sketch.height, maxHeight_sketches]
  · intro m cs
    rw [hnesting, Policy.sketch, Sketch.height, maxHeight_sketches]

end Format

end KeyPolicy
