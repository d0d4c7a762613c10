import KeyPolicy.Proofs.Service
import KeyPolicy.Proofs.Values

/-!
# What a document of settings says

A document names settings, and what it does not name has its default. As an object it may hold
anything besides, under other names, and none of that matters; as an array it gives the settings in
their declared order.

**Theorem (`Config.decode_document`).** For every text that spells an object or an array, in any
way: which settings come of it, and when there are none.

Names are another matter than what stands under them. A string with half of a surrogate pair denotes
no text. As a value that is passed over it does no harm, but a name has to be compared with the
names of the settings, so an object with such a name is refused (`Config.decode_unpaired_name`).

A service that is made with the settings keeps to their depth. `Enforced` says what that means for
one outcome: policies are accepted exactly when nothing is wrong with them under this limit, and a
refusal for depth names the limit and is given where some policy is deeper.
-/

namespace KeyPolicy

open Json Policy

/-! ## Keeping to a limit on the depth -/

/-- The outcome is the one that the limit demands for the policies. -/
structure Enforced {α : Type} (limit : Nat) (ps : List Policy) (outcome : Except ExpansionError α) :
    Prop where
  ok_iff : (∃ a, outcome = .ok a) ↔ ∀ p ∈ ps, p.Supported ∧ p.depth ≤ limit
  depth_of_error : ∀ l, outcome = .error (.depthExceeded l) → l = limit ∧ ∃ p ∈ ps, limit < p.depth
  error_of_depth : (∀ p ∈ ps, p.Supported) → (∃ p ∈ ps, limit < p.depth) →
    outcome = .error (.depthExceeded limit)

/-- Every operation of the service keeps to the limit, whatever the verifier and the evaluator. -/
structure Service.Enforces (s : Service) (limit : Nat) : Prop where
  expandKey : ∀ verify evaluate p m,
    Enforced limit [p] (s.expandKey (Transcript.surroundings verify evaluate) p m).value
  expandKeys : ∀ verify evaluate ps m,
    Enforced limit ps (s.expandKeys (Transcript.surroundings verify evaluate) ps m).value
  expandBatch : ∀ verify evaluate rs,
    List.Forall₂ (fun r outcome => Enforced limit r.policies outcome) rs
      (s.expandBatch (Transcript.surroundings verify evaluate) rs).value
  authorize : ∀ verify evaluate p m digest,
    Enforced limit [p] (s.authorize (Transcript.surroundings verify evaluate) p m digest).value

theorem firstOffence?_eq_none_iff_forall {limit : Nat} {ps : List Policy} :
    firstOffence? limit ps = none ↔ ∀ p ∈ ps, p.Supported ∧ p.depth ≤ limit := by
  have hsingle : ∀ p : Policy, p.Supported ∧ p.depth ≤ limit ↔
      ∀ n ∈ p.nodes, ¬ n.TooDeep limit ∧ ¬ n.Unsupported := fun p => by
    rw [← firstOffence?_singleton_eq_none_iff, firstOffence?_eq_none_iff, nodesOf,
      List.flatMap_singleton]
  simp only [firstOffence?_eq_none_iff, mem_nodesOf, hsingle]
  refine ⟨fun h p hp n hn => h n ⟨p, hp, hn⟩, fun h n hn => ?_⟩
  obtain ⟨p, hp, hn⟩ := hn
  exact h p hp n hn

theorem firstOffence?_depthExceeded {limit l : Nat} {ps : List Policy}
    (h : firstOffence? limit ps = some (.depthExceeded l)) :
    l = limit ∧ ∃ p ∈ ps, limit < p.depth := by
  obtain ⟨before, n, after, hnodes, -, hoffence⟩ := firstOffence?_eq_some_iff.1 h
  rcases hoffence with ⟨hdeep, herr⟩ | ⟨-, herr⟩
  · have hn : n ∈ nodesOf ps := hnodes ▸ List.mem_append_right _ List.mem_cons_self
    obtain ⟨p, hp, hnp⟩ := mem_nodesOf.1 hn
    cases herr
    exact ⟨rfl, p, hp, exists_tooDeep_iff.1 ⟨n, hnp, hdeep⟩⟩
  · cases herr

/-- Among supported policies, the first thing that is wrong is the depth of one of them. -/
theorem firstOffence?_eq_depthExceeded {limit : Nat} {ps : List Policy}
    (hsupported : ∀ p ∈ ps, p.Supported) (hdeep : ∃ p ∈ ps, limit < p.depth) :
    firstOffence? limit ps = some (.depthExceeded limit) := by
  have hnodes : ∀ n ∈ nodesOf ps, ¬ n.Unsupported := fun n hn => by
    obtain ⟨p, hp, hnp⟩ := mem_nodesOf.1 hn
    exact hsupported p hp n hnp
  obtain ⟨err, herr⟩ := Option.ne_none_iff_exists'.1
    ((firstOffence?_ne_none_iff_of_supported hnodes).2 hdeep)
  obtain ⟨before, n, after, hsplit, -, ⟨-, rfl⟩ | ⟨hn, -⟩⟩ := firstOffence?_eq_some_iff.1 herr
  · exact herr
  · exact absurd hn (hnodes n (hsplit ▸ List.mem_append_right _ List.mem_cons_self))

section Enforced

variable {α β : Type} {limit : Nat} {ps : List Policy} {outcome : Except ExpansionError α}

theorem enforced_of_firstOffence?
    (h : ∀ err, outcome = .error err ↔ firstOffence? limit ps = some err) :
    Enforced limit ps outcome where
  ok_iff := by
    rw [← firstOffence?_eq_none_iff_forall, Option.eq_none_iff_forall_ne_some]
    simp only [Ne, ← h]
    cases outcome <;> simp
  depth_of_error l hl := firstOffence?_depthExceeded ((h _).1 hl)
  error_of_depth hsupported hdeep := (h _).2 (firstOffence?_eq_depthExceeded hsupported hdeep)

theorem Enforced.map (f : α → β) (h : Enforced limit ps outcome) :
    Enforced limit ps (outcome.map f) := by
  have hok : (∃ b, outcome.map f = .ok b) ↔ ∃ a, outcome = .ok a := by
    cases outcome <;> simp [Except.map]
  have herror : ∀ err, outcome.map f = .error err ↔ outcome = .error err := by
    cases outcome <;> simp [Except.map]
  exact ⟨hok.trans h.ok_iff, fun l hl => h.depth_of_error l ((herror _).1 hl),
    fun hsupported hdeep => (herror _).2 (h.error_of_depth hsupported hdeep)⟩

end Enforced

theorem enforced_expandAll (s : Service) (ps : List Policy) (m : SignatureMap) :
    Enforced s.config.maxKeyDepth.toNat ps (s.expander.expandAll ps m) :=
  enforced_of_firstOffence? fun _ => Expander.run_eq_error_iff

/-- A service keeps to the depth of its configuration. -/
theorem Service.enforces (s : Service) : s.Enforces s.config.maxKeyDepth.toNat where
  expandKey verify evaluate p m := by
    rw [value_expandKey]
    exact enforced_expandAll s [p] m
  expandKeys verify evaluate ps m := by
    rw [expandKeys_eq]
    exact enforced_expandAll s ps m
  expandBatch verify evaluate rs := by
    rw [value_expandBatch]
    exact List.forall₂_map_right_iff.2 (List.forall₂_same.2 fun r _ =>
      enforced_expandAll s r.policies r.signatures)
  authorize verify evaluate p m digest := by
    rw [value_authorize]
    exact (enforced_expandAll s [p] m).map _

/-! ## Reading settings -/

namespace Json.Value

/-- The value that spells a number of 64 bits. -/
def ofUInt64 (n : UInt64) : Value := .natural n.toNat

/-- The number of 64 bits that a value is, if it is one. -/
def uint64? (v : Value) : Option UInt64 := (v.natural? UInt64.size).map UInt64.ofNat

theorem uint64?_ofUInt64 (n : UInt64) : (ofUInt64 n).uint64? = some n := by
  rw [uint64?, ofUInt64, natural?, if_pos n.toNat_lt_size, Option.map_some, UInt64.ofNat_toNat]

theorem eq_ofUInt64_of_uint64? {v : Value} {n : UInt64} (h : v.uint64? = some n) :
    v = ofUInt64 n := by
  cases v with
  | natural k =>
    rw [uint64?, natural?] at h
    by_cases hk : k < UInt64.size
    · rw [if_pos hk] at h
      cases h
      rw [ofUInt64, UInt64.toNat_ofNat_of_lt' hk]
    · rw [if_neg hk] at h
      cases h
  | _ => cases h

theorem uint64?_eq_none {v : Value} (h : ∀ n, v ≠ ofUInt64 n) : v.uint64? = none := by
  rw [Option.eq_none_iff_forall_ne_some]
  exact fun n hn => h n (eq_ofUInt64_of_uint64? hn)

theorem takes_uint64 (room : Nat) (v : Value) : Takes Format.uint64.read room v v.uint64? :=
  (takes_natural UInt64.size room v).map UInt64.ofNat

end Json.Value

namespace Config

/-- The settings, in declared order, as places in what a document gives. -/
def slots : List (Slot Fields UInt64) := [
  ⟨"max_key_depth", (·.maxKeyDepth), fun s n => { s with maxKeyDepth := some n }⟩,
  ⟨"prefix_index_min_pairs", (·.prefixIndexMinPairs),
    fun s n => { s with prefixIndexMinPairs := some n }⟩]

theorem layout_slots : Slot.Layout slots where
  nodup := by decide
  get_set := by simp [slots]
  get_set_of_ne := by simp [slots]
  ext s t h := by
    have hdepth : s.maxKeyDepth = t.maxKeyDepth := h _ List.mem_cons_self
    have hpairs : s.prefixIndexMinPairs = t.prefixIndexMinPairs :=
      h _ (List.mem_cons_of_mem _ List.mem_cons_self)
    cases s
    cases t
    cases hdepth
    cases hpairs
    rfl

theorem decode_object {ms : List (Option String × Value)} {text : String}
    (h : (Value.object ms).SpelledBy text) : format.decode text =
      Reader.need ((ms.foldlM (give slots Value.uint64?) ⟨none, none⟩).map ofFields) :=
  ((takes_object slots Value.takes_uint64 ⟨none, none⟩ _ ms).map ofFields).parse h

theorem decode_array {vs : List Value} {text : String} (h : (Value.array vs).SpelledBy text) :
    format.decode text =
      Reader.need ((giveInOrder Value.uint64? slots ⟨none, none⟩ vs).map ofFields) :=
  ((takes_array slots Value.takes_uint64 ⟨none, none⟩ _ vs).map ofFields).parse h

/-- An object that gives each setting at most one number gives these settings. -/
theorem foldlM_give_of_valuesOf {ms : List (Option String × Value)}
    {depth? minPairs? : Option UInt64} (hnames : ∀ m ∈ ms, m.1 ≠ none)
    (hdepth : valuesOf "max_key_depth" ms = depth?.toList.map .ofUInt64)
    (hpairs : valuesOf "prefix_index_min_pairs" ms = minPairs?.toList.map .ofUInt64) :
    ms.foldlM (give slots Value.uint64?) ⟨none, none⟩ = some ⟨depth?, minPairs?⟩ := by
  have htaken : ∀ n? : Option UInt64,
      (n?.toList.map Value.ofUInt64).map Value.uint64? = n?.toList.map some := by
    rintro (_ | n)
    · rfl
    · exact congrArg (· :: []) (Value.uint64?_ofUInt64 n)
  refine (foldlM_give_eq_some_iff layout_slots).2 ⟨hnames, ?_⟩
  refine List.forall_mem_cons.2 ⟨?_, List.forall_mem_singleton.2 ?_⟩
  · rw [hdepth, htaken]; rfl
  · rw [hpairs, htaken]; rfl

/-- An array of at most two numbers gives the settings in their declared order. -/
theorem giveInOrder_of_length_le {ns : List UInt64} (h : ns.length ≤ 2) :
    giveInOrder Value.uint64? slots ⟨none, none⟩ (ns.map .ofUInt64) = some ⟨ns[0]?, ns[1]?⟩ := by
  rcases ns with _ | ⟨n, _ | ⟨n', _ | ⟨_, ns⟩⟩⟩
  · rfl
  · simp [slots, giveInOrder, Value.uint64?_ofUInt64]
  · simp [slots, giveInOrder, Value.uint64?_ofUInt64]
  · simp only [List.length_cons] at h
    omega

/-- The text is read as the settings, and a service that is made with them keeps to their depth. -/
structure Configures (text : String) (c : Config) : Prop where
  decode_eq : format.decode text = .ok c
  enforces : Service.Enforces ⟨c⟩ c.maxKeyDepth.toNat

theorem configures_of_decode {text : String} {c : Config} (h : format.decode text = .ok c) :
    Configures text c := ⟨h, Service.enforces ⟨c⟩⟩

/-- An object that names no setting and is refused: its only name is an escape for one half of a
surrogate pair. So it is not true of every object that what stands under other names does not
matter. -/
theorem decode_unpaired_name :
    let members : List (Option String × Value) := [(none, .natural 0)]
    let text := "\x7b\"\\ud800\":0\x7d"
    (Value.object members).SpelledBy text ∧
      valuesOf "max_key_depth" members = [] ∧ valuesOf "prefix_index_min_pairs" members = [] ∧
      format.decode text = .error .malformed ∧ ¬ Configures text ⟨5, 32⟩ := by
  intro members text
  have hspelled : (Value.object members).SpelledBy text := .of_spaced (by decide +kernel)
  have hrefused : format.decode text = .error .malformed := (decode_object hspelled).trans rfl
  refine ⟨hspelled, rfl, rfl, hrefused, fun h => ?_⟩
  cases hrefused.symm.trans h.decode_eq

/-- **A document gives exactly the settings that it names.** An object whose names are texts, and
that names each setting at most once, with a number of 64 bits, gives these numbers and the defaults
for the others, whatever it holds under other names and in whatever order. A name with half of a
surrogate pair is no text: an object with such a name is refused. So is an object that names a
setting twice or gives it anything else. An array gives up to two numbers to the settings in
declared order, and is refused if it is longer. -/
theorem decode_document (text : String) :
    (∀ members : List (Option String × Value), (Value.object members).SpelledBy text →
      (∀ depth? minPairs? : Option UInt64, (∀ m ∈ members, m.1 ≠ none) →
        valuesOf "max_key_depth" members = depth?.toList.map .ofUInt64 →
        valuesOf "prefix_index_min_pairs" members = minPairs?.toList.map .ofUInt64 →
        Configures text ⟨depth?.getD 5, minPairs?.getD 32⟩) ∧
      ((∃ m ∈ members, m.1 = none) → format.decode text = .error .malformed) ∧
      ∀ name ∈ ["max_key_depth", "prefix_index_min_pairs"],
        1 < (valuesOf name members).length ∨ (∃ v ∈ valuesOf name members, ∀ n, v ≠ .ofUInt64 n) →
        format.decode text = .error .malformed) ∧
    (∀ elements : List Value, (Value.array elements).SpelledBy text →
      (∀ ns : List UInt64, ns.length ≤ 2 → elements = ns.map .ofUInt64 →
        Configures text ⟨ns[0]?.getD 5, ns[1]?.getD 32⟩) ∧
      (2 < elements.length → format.decode text = .error .malformed)) := by
  refine ⟨fun members hspelled => ⟨fun depth? minPairs? hnames hdepth hpairs => ?_,
    fun hunpaired => ?_, fun name hname hbad => ?_⟩,
    fun elements hspelled => ⟨fun ns hlength helements => ?_, fun hlength => ?_⟩⟩
  · refine configures_of_decode ?_
    rw [decode_object hspelled, foldlM_give_of_valuesOf hnames hdepth hpairs]
    rfl
  · rw [decode_object hspelled, foldlM_give_eq_none_of_unpaired layout_slots _ hunpaired]
    rfl
  · -- Both settings are known to the reader, and neither has a value before the object is read.
    obtain ⟨f, hf, hfname, hblank⟩ : ∃ f ∈ slots, f.name = name ∧ f.get ⟨none, none⟩ = none := by
      rcases List.mem_pair.1 hname with rfl | rfl
      · exact ⟨_, List.mem_cons_self, rfl, rfl⟩
      · exact ⟨_, List.mem_cons_of_mem _ List.mem_cons_self, rfl, rfl⟩
    subst hfname
    have hnone : members.foldlM (give slots Value.uint64?) ⟨none, none⟩ = none := by
      refine foldlM_give_eq_none layout_slots hf hblank (hbad.imp_right fun hvalue => ?_)
      obtain ⟨v, hv, hne⟩ := hvalue
      exact ⟨v, hv, Value.uint64?_eq_none hne⟩
    rw [decode_object hspelled, hnone]
    rfl
  · refine configures_of_decode ?_
    rw [decode_array hspelled, helements, giveInOrder_of_length_le hlength]
    rfl
  · have hmany : slots.length < elements.length := hlength
    rw [decode_array hspelled, giveInOrder_eq_none hmany]
    rfl

/-- A name with an escape, beside an object under a name that is not known; a name that is given
twice; a name with half of a surrogate pair behind a setting; arrays of one and of three numbers. -/
theorem decode_document_texts :
    Configures "\x7b\"\\u006Dax_key_depth\":7, \"note\":[\x7b\"max_key_depth\":-0\x7d]\x7d"
      ⟨7, 32⟩ ∧
    format.decode "\x7b\"max_key_depth\":1, \"max_key_depth\":1\x7d" = .error .malformed ∧
    format.decode "\x7b\"max_key_depth\":1, \"\\ud800\":null\x7d" = .error .malformed ∧
    Configures "[ 9 ]" ⟨9, 32⟩ ∧
    format.decode "[1,2,3]" = .error .malformed := by
  refine ⟨?_, ?_, ?_, ?_, ?_⟩
  · let members : List (Option String × Value) := [(some "max_key_depth", .ofUInt64 7),
      (some "note", .array [.object [(some "max_key_depth", .otherNumber)]])]
    -- The first name is not spelled as a writer would spell it, so its spelling is given.
    have hm : SpellsUnit 'm'.toNat ['\\', 'u', '0', '0', '6', 'D'] :=
      .hex (i := 0) (j := 0) (k := 6) (l := 13) ⟨by decide, by decide⟩ ⟨by decide, by decide⟩
        ⟨by decide, by decide⟩ ⟨by decide, by decide⟩
    have hunits :
        SpellsUnits ("max_key_depth".toList.map Char.toNat) "\\u006Dax_key_depth".toList :=
      .cons hm (spellsUnits_spellChars "ax_key_depth".toList)
    have hname : Spelling (.text "max_key_depth") "\"\\u006Dax_key_depth\"".toList :=
      .text hunits (denotes_toNat _)
    have hspelled : (Value.object members).SpelledBy
        "\x7b\"\\u006Dax_key_depth\":7, \"note\":[\x7b\"max_key_depth\":-0\x7d]\x7d" :=
      .cons blank_nil (.fixed rfl) (.cons blank_nil hname
        (Spaced.written (by decide +kernel) (Value.legible_write (.object members)).2.2.2.2))
    exact ((decode_document _).1 members hspelled).1 (some 7) none (by simp [members]) rfl rfl
  · have hspelled : (Value.object [(some "max_key_depth", .ofUInt64 1),
        (some "max_key_depth", .ofUInt64 1)]).SpelledBy
        "\x7b\"max_key_depth\":1, \"max_key_depth\":1\x7d" := .of_spaced (by decide +kernel)
    exact ((decode_document _).1 _ hspelled).2.2 "max_key_depth" (by decide) (.inl (by decide))
  · have hspelled : (Value.object [(some "max_key_depth", .ofUInt64 1), (none, .null)]).SpelledBy
        "\x7b\"max_key_depth\":1, \"\\ud800\":null\x7d" := .of_spaced (by decide +kernel)
    exact ((decode_document _).1 _ hspelled).2.1 ⟨(none, .null), by simp, rfl⟩
  · have hspelled : (Value.array [.ofUInt64 9]).SpelledBy "[ 9 ]" := .of_spaced (by decide +kernel)
    exact ((decode_document _).2 _ hspelled).1 [9] (by decide) rfl
  · have hspelled : (Value.array [.ofUInt64 1, .ofUInt64 2, .ofUInt64 3]).SpelledBy "[1,2,3]" :=
      .of_spaced (by decide +kernel)
    exact ((decode_document _).2 _ hspelled).2 (by decide)

end Config

end KeyPolicy
