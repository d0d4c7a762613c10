import KeyPolicy.Config
import KeyPolicy.Format.Signature
import KeyPolicy.Proofs.Documents
import KeyPolicy.Proofs.Sketch

/-!
# Reading values from any presentation

Each format writes a value as one compact text. The document of a value is that text without its
layout, and the texts that spell this document are exactly those that differ from the compact text
in layout alone: in the order of the fields of a record, in whether a record is an object or an
array of its values in declared order, and in blanks between tokens.

**Theorem (`Format.decode_spelling`).** Every text that spells the document of a value is read as
that value when its brackets nest at most 127 deep, and is refused when they nest deeper.

A key is checked once its record has been read in full, so it makes no difference in which order its
algorithm and its bytes were given. For policies the induction is on the policy. The reader counts
levels on its own, and every level of a policy opens a bracket, so a reader without levels has no
room for the first bracket either.
-/

namespace KeyPolicy

open Json

/-! ## The documents of values -/

def Bytes.document (bs : Bytes) : Document := .list (bs.map fun b => .natural b.toNat)

def PublicKey.document (k : PublicKey) : Document :=
  .record [("algorithm", .text k.algorithm.name), ("public_key", k.bytes.document)]

def SignaturePair.document (p : SignaturePair) : Document :=
  .record [("algorithm", .text p.algorithm.name), ("prefix", p.keyPrefix.document),
    ("signature", p.signature.document)]

def SignatureMap.document (m : SignatureMap) : Document :=
  .record [("pairs", .list (m.pairs.map SignaturePair.document))]

def Config.document (c : Config) : Document :=
  .record [("max_key_depth", .natural c.maxKeyDepth.toNat),
    ("prefix_index_min_pairs", .natural c.prefixIndexMinPairs.toNat)]

namespace Policy

/-- The document of the children of a composite node, given that of each child. -/
def childrenDocument (ds : List Document) : Document := .record [("keys", .list ds)]

def thresholdDocument (m : UInt32) (ds : List Document) : Document :=
  .record [("threshold", .natural m.toNat), ("keys", childrenDocument ds)]

mutual

def document : Policy → Document
  | key k => .variant "Simple" k.document
  | allOf cs => .variant "KeyList" (childrenDocument (documents cs))
  | threshold m cs => .variant "Threshold" (thresholdDocument m (documents cs))
  | contract n => .variant "ContractId" (.natural n.toNat)
  | delegatableContract n => .variant "DelegatableContractId" (.natural n.toNat)
  | rsa3072 bs => .variant "Rsa3072" bs.document
  | ecdsaP384 bs => .variant "EcdsaP384" bs.document

def documents : List Policy → List Document
  | [] => []
  | c :: cs => c.document :: documents cs

end

theorem documents_eq_map (cs : List Policy) : documents cs = cs.map document := by
  induction cs with
  | nil => rfl
  | cons c cs ih => rw [documents, ih, List.map_cons]

end Policy

namespace Format

/-! ## Compact texts -/

/-- The document is what the format writes. -/
def Documents {α : Type} (f : Format α) (document : α → Document) : Prop :=
  ∀ a, (document a).write = f.write a

theorem write_list {α : Type} {f : Format α} {document : α → Document} (h : Documents f document)
    (as : List α) : (Document.list (as.map document)).write = f.list.write as := by
  rw [Document.write, Document.writeAll_eq_map, List.map_map]
  exact congrArg Writer.list (List.map_congr_left fun a _ => h a)

theorem documents_bytes : Documents bytes Bytes.document := write_list fun _ => rfl

theorem documents_publicKey : Documents publicKey PublicKey.document := by
  intro k
  have hbytes := documents_bytes k.bytes
  rw [PublicKey.document, Document.write, Document.writeFields, Document.writeFields, hbytes]
  rfl

theorem documents_signaturePair : Documents signaturePair SignaturePair.document := by
  intro p
  have hstart := documents_bytes p.keyPrefix
  have hsignature := documents_bytes p.signature
  rw [SignaturePair.document, Document.write, Document.writeFields, Document.writeFields,
    Document.writeFields, hstart, hsignature]
  rfl

theorem documents_signatureMap : Documents signatureMap SignatureMap.document := by
  intro m
  have hpairs := write_list documents_signaturePair m.pairs
  rw [SignatureMap.document, Document.write, Document.writeFields, hpairs]
  rfl

theorem documents_config : Documents Config.format Config.document := fun _ => rfl

theorem writeAll_documents {cs : List Policy} (h : ∀ c ∈ cs, c.document.write = writePolicy c) :
    Document.writeAll (Policy.documents cs) = writePolicies cs := by
  induction cs with
  | nil => rfl
  | cons c cs ih =>
    obtain ⟨hc, hcs⟩ := List.forall_mem_cons.1 h
    rw [Policy.documents, Document.writeAll, writePolicies, hc, ih hcs]

theorem write_childrenDocument (ds : List Document) :
    (Policy.childrenDocument ds).write = writeChildren (Document.writeAll ds) := rfl

theorem write_thresholdDocument (m : UInt32) (ds : List Document) :
    (Policy.thresholdDocument m ds).write = writeThreshold m (Document.writeAll ds) := rfl

theorem documents_policy : Documents policy Policy.document := by
  intro p
  show p.document.write = writePolicy p
  induction p using Policy.induction with
  | key k =>
    rw [Policy.document, Document.write, documents_publicKey k]
    rfl
  | allOf cs ih =>
    rw [Policy.document, Document.write, write_childrenDocument, writeAll_documents ih]
    rfl
  | threshold m cs ih =>
    rw [Policy.document, Document.write, write_thresholdDocument, writeAll_documents ih]
    rfl
  | contract n | delegatableContract n => rfl
  | rsa3072 bs | ecdsaP384 bs =>
    rw [Policy.document, Document.write, documents_bytes bs]
    rfl

theorem documents_children :
    Documents children fun cs => Policy.childrenDocument (Policy.documents cs) := fun _ =>
  congrArg writeChildren (writeAll_documents fun c _ => documents_policy c)

theorem documents_threshold :
    Documents threshold fun t => Policy.thresholdDocument t.1 (Policy.documents t.2) := fun t =>
  congrArg (writeThreshold t.1) (writeAll_documents fun c _ => documents_policy c)

/-! ## Leaves -/

section Leaves

variable (most : Nat)

theorem conveys_byte (b : UInt8) : Conveys most byte.read (.natural b.toNat) 0 b :=
  .natural ⟨.natural _, _, .number b.toNat_lt,
    (Sketch.reads_byte most b.toNat).imp fun _ => UInt8.toNat_inj.1⟩

theorem conveys_uint32 (n : UInt32) : Conveys most uint32.read (.natural n.toNat) 0 n :=
  .natural ⟨.natural _, _, .number n.toNat_lt,
    (Sketch.reads_uint32 most n.toNat).imp fun _ => UInt32.toNat_inj.1⟩

theorem conveys_uint64 (n : UInt64) : Conveys most uint64.read (.natural n.toNat) 0 n :=
  .natural ⟨.natural _, _, .number n.toNat_lt,
    (Sketch.reads_uint64 most n.toNat).imp fun _ => UInt64.toNat_inj.1⟩

theorem conveys_algorithm (a : Algorithm) : Conveys most algorithm.read (.text a.name) 0 a :=
  .text ⟨.text (Sketch.bracketless_name a), _, .nil, Sketch.reads_algorithm most a⟩

theorem conveys_bytes (bs : Bytes) : Conveys most bytes.read bs.document 1 bs := by
  have h := Conveys.list fun b (_ : b ∈ bs) => conveys_byte most b
  rwa [tallest_zeros] at h

end Leaves

/-! ## Records -/

section Records

variable (most : Nat)

def publicKeyEntries (k : PublicKey) : List (Entry most PublicKeyFields) := [
  ⟨"algorithm", (·.algorithm), fun s a => { s with algorithm := some a },
    conveys_algorithm most k.algorithm, by decide⟩,
  ⟨"public_key", (·.bytes), fun s bs => { s with bytes := some bs },
    conveys_bytes most k.bytes, by decide⟩]

theorem conveys_publicKey (k : PublicKey) : Conveys most publicKey.read k.document 2 k := by
  have hapart : (publicKeyEntries most k).Pairwise Entry.Apart :=
    List.pairwise_pair.2 ⟨by simp, fun _ => rfl, fun _ => rfl, fun _ => rfl⟩
  have hblank : ∀ e ∈ publicKeyEntries most k, e.get ⟨none, none⟩ = none := by
    simp [publicKeyEntries]
  have hkey : publicKeyOfFields ⟨some k.algorithm, some k.bytes⟩ = .ok k := by
    show (PublicKey.ofBytes k.algorithm k.bytes).mapError ReadError.key = .ok k
    rw [PublicKey.ofBytes_self]
    rfl
  exact (Conveys.record hapart hblank (List.cons_ne_nil _ _)).check hkey

def signaturePairEntries (p : SignaturePair) : List (Entry most SignaturePairFields) := [
  ⟨"algorithm", (·.algorithm), fun s a => { s with algorithm := some a },
    conveys_algorithm most p.algorithm, by decide⟩,
  ⟨"prefix", (·.keyPrefix), fun s bs => { s with keyPrefix := some bs },
    conveys_bytes most p.keyPrefix, by decide⟩,
  ⟨"signature", (·.signature), fun s bs => { s with signature := some bs },
    conveys_bytes most p.signature, by decide⟩]

theorem conveys_signaturePair (p : SignaturePair) :
    Conveys most signaturePair.read p.document 2 p := by
  have hapart : (signaturePairEntries most p).Pairwise Entry.Apart :=
    .cons (List.forall_mem_cons.2 ⟨⟨by simp, fun _ => rfl, fun _ => rfl, fun _ => rfl⟩,
        List.forall_mem_singleton.2 ⟨by simp, fun _ => rfl, fun _ => rfl, fun _ => rfl⟩⟩)
      (List.pairwise_pair.2 ⟨by simp, fun _ => rfl, fun _ => rfl, fun _ => rfl⟩)
  have hblank : ∀ e ∈ signaturePairEntries most p, e.get ⟨none, none, none⟩ = none := by
    simp [signaturePairEntries]
  exact (Conveys.record hapart hblank (List.cons_ne_nil _ _)).check rfl

/-- A record of one field conveys the value of that field. -/
theorem conveys_single {α : Type} {read : Reader α} {name : String} {d : Document} {height : Nat}
    {a : α} (hname : Bracketless (Token.text name).spell) (h : Conveys most read d height a) :
    Conveys most ((Reader.record [.of name id (fun _ a => some a) read] none).check Reader.need)
      (.record [(name, d)]) (1 + height) a := by
  have hrecord := Conveys.record
    (List.pairwise_singleton Entry.Apart ⟨name, id, fun _ a => some a, h, hname⟩)
    (List.forall_mem_singleton.2 rfl) (List.cons_ne_nil _ _)
  rw [← tallest_singleton height]
  exact hrecord.check rfl

theorem conveys_signatureMap (m : SignatureMap) :
    Conveys most signatureMap.read m.document (1 + tallest [1 + tallest (m.pairs.map fun _ => 2)])
      m := by
  have hpairs := Conveys.list fun p (_ : p ∈ m.pairs) => conveys_signaturePair most p
  rw [tallest_singleton]
  exact (conveys_single most (by decide) hpairs).map SignatureMap.mk

def configEntries (c : Config) : List (Entry most Config.Fields) := [
  ⟨"max_key_depth", (·.maxKeyDepth), fun s n => { s with maxKeyDepth := some n },
    conveys_uint64 most c.maxKeyDepth, by decide⟩,
  ⟨"prefix_index_min_pairs", (·.prefixIndexMinPairs),
    fun s n => { s with prefixIndexMinPairs := some n },
    conveys_uint64 most c.prefixIndexMinPairs, by decide⟩]

theorem conveys_config (c : Config) : Conveys most Config.format.read c.document 1 c := by
  have hapart : (configEntries most c).Pairwise Entry.Apart :=
    List.pairwise_pair.2 ⟨by simp, fun _ => rfl, fun _ => rfl, fun _ => rfl⟩
  have hblank : ∀ e ∈ configEntries most c, e.get ⟨none, none⟩ = none := by
    simp [configEntries]
  exact (Conveys.record hapart hblank (List.cons_ne_nil _ _)).map Config.ofFields

end Records

/-! ## Policies -/

section Policies

variable {most : Nat} {child : Reader Policy} {cs : List Policy}

theorem conveys_children
    (h : ∀ c ∈ cs, Conveys most child c.document c.sketch.height c) :
    Conveys most (readChildren child) (Policy.childrenDocument (Policy.documents cs))
      (2 + Sketch.maxHeight (Policy.sketches cs)) cs := by
  have hlist := Conveys.list h
  have hheights : cs.map (fun c => c.sketch.height) = (Policy.sketches cs).map Sketch.height := by
    rw [Policy.sketches_eq_map, List.map_map]
    rfl
  rw [hheights, ← Sketch.maxHeight_eq, ← Policy.documents_eq_map] at hlist
  have hrecord := conveys_single most (by decide : Bracketless (Token.text "keys").spell) hlist
  rw [← Nat.add_assoc] at hrecord
  exact hrecord

def thresholdEntries (m : UInt32)
    (h : ∀ c ∈ cs, Conveys most child c.document c.sketch.height c) :
    List (Entry most ThresholdFields) := [
  ⟨"threshold", (·.threshold), fun s m => { s with threshold := some m },
    conveys_uint32 most m, by decide⟩,
  ⟨"keys", (·.children), fun s cs => { s with children := some cs },
    conveys_children h, by decide⟩]

theorem conveys_threshold (m : UInt32)
    (h : ∀ c ∈ cs, Conveys most child c.document c.sketch.height c) :
    Conveys most (readThreshold child) (Policy.thresholdDocument m (Policy.documents cs))
      (3 + Sketch.maxHeight (Policy.sketches cs)) (m, cs) := by
  have hapart : (thresholdEntries m h).Pairwise Entry.Apart :=
    List.pairwise_pair.2 ⟨by simp, fun _ => rfl, fun _ => rfl, fun _ => rfl⟩
  have hblank : ∀ e ∈ thresholdEntries m h, e.get ⟨none, none⟩ = none := by
    simp [thresholdEntries]
  have hheight : 3 + Sketch.maxHeight (Policy.sketches cs) =
      1 + tallest ((thresholdEntries m h).map Entry.height) := by
    simp only [thresholdEntries, tallest, List.map_cons, List.map_nil, List.foldr_cons,
      List.foldr_nil]
    omega
  rw [hheight]
  exact (Conveys.record hapart hblank (List.cons_ne_nil _ _)).check rfl

/-- A policy is a variant. It opens a bracket, so a reader without levels has no room for it. -/
theorem conveys_variant {name : String} {payload : Nat → Reader Policy} {d : Document}
    {height : Nat} {p : Policy} (hname : Bracketless (Token.text name).spell)
    (hpayload : ∀ levels, readVariant (readPolicyWithin levels) name = some (payload levels))
    (h : ∀ levels, Conveys levels (payload levels) d height p) (levels : Nat) :
    Conveys levels (readPolicyWithin levels) (.variant name d) (1 + height) p := by
  have hsucc : ∀ levels, Conveys (levels + 1) (readPolicyWithin (levels + 1)) (.variant name d)
      (1 + height) p := fun levels => .variant hname (hpayload levels) (h levels)
  cases levels with
  | zero =>
    -- There is no room at all, so the first bracket is already one too many.
    intro w hw
    refine ⟨(hsucc 0 w hw).writes, fun level => [.bracket (level + (1 + height))], ?_, ?_⟩
    · intro limit level _
      rw [clean_cons, violation?_bracket_iff, clean_nil, and_true]
    · intro level room rest hroom
      obtain rfl := Nat.le_zero.1 hroom
      have hlt : level + 0 < level + (1 + height) := by omega
      exact firstViolation?_bracket_of_lt hlt []
  | succ levels => exact hsucc levels

theorem conveys_policy (p : Policy) (levels : Nat) :
    Conveys levels (readPolicyWithin levels) p.document p.sketch.height p := by
  induction p using Policy.induction generalizing levels with
  | key k =>
    have h := fun levels => (conveys_publicKey levels k).map Policy.key
    exact conveys_variant (by decide) (fun _ => rfl) h levels
  | allOf cs ih =>
    have hname : Bracketless (Token.text "KeyList").spell := by decide
    have h := fun levels => (conveys_children fun c hc => ih c hc levels).map Policy.allOf
    have hpolicy := conveys_variant hname (fun _ => rfl) h levels
    rwa [← Nat.add_assoc] at hpolicy
  | threshold m cs ih =>
    have hname : Bracketless (Token.text "Threshold").spell := by decide
    have h := fun levels => (conveys_threshold m fun c hc => ih c hc levels).map
      fun (t : UInt32 × List Policy) => Policy.threshold t.1 t.2
    have hpolicy := conveys_variant hname (fun _ => rfl) h levels
    rwa [← Nat.add_assoc] at hpolicy
  | contract n =>
    have h := fun levels => (conveys_uint64 levels n).map Policy.contract
    exact conveys_variant (by decide) (fun _ => rfl) h levels
  | delegatableContract n =>
    have h := fun levels => (conveys_uint64 levels n).map Policy.delegatableContract
    exact conveys_variant (by decide) (fun _ => rfl) h levels
  | rsa3072 bs =>
    have h := fun levels => (conveys_bytes levels bs).map Policy.rsa3072
    exact conveys_variant (by decide) (fun _ => rfl) h levels
  | ecdsaP384 bs =>
    have h := fun levels => (conveys_bytes levels bs).map Policy.ecdsaP384
    exact conveys_variant (by decide) (fun _ => rfl) h levels

end Policies

/-! ## All presentations -/

/-- Every text that spells the document of a value is read as the value up to a nesting of 127, and
refused beyond. The document is that of the compact text, which is one of these spellings. -/
def ReadsAnySpelling {α : Type} (f : Format α) (document : α → Document) : Prop :=
  ∀ a, (document a).write.toText = f.encode a ∧ Spells (f.encode a) (document a) ∧
    ∀ text, Spells text (document a) → nesting text = nesting (f.encode a) ∧
      (nesting text ≤ 127 ↔ f.decode text = .ok a) ∧
      (128 ≤ nesting text ↔ ∃ e, f.decode text = .error e)

theorem readsAnySpelling {α : Type} {f : Format α} {document : α → Document} {height : α → Nat}
    (hdocuments : Documents f document)
    (h : ∀ a, Conveys maxNesting f.read (document a) (height a) a) :
    ReadsAnySpelling f document := by
  intro a
  have htext : (document a).write.toText = f.encode a := congrArg Writer.toText (hdocuments a)
  have hcompact : Spells (f.encode a) (document a) := htext ▸ spells_toText (document a)
  refine ⟨htext, hcompact, fun text hspells => ?_⟩
  obtain ⟨hnesting, hparse⟩ := (h a).parse hspells
  exact ⟨hnesting.trans ((h a).parse hcompact).1.symm, hparse⟩

/-- **The reader is insensitive to presentation.** Whatever the order of fields, with records as
objects or as arrays and with any blanks between tokens, the value of the compact text comes out, up
to the same nesting of 127. -/
theorem decode_spelling :
    ReadsAnySpelling policy Policy.document ∧
    ReadsAnySpelling signatureMap SignatureMap.document ∧
    ReadsAnySpelling publicKey PublicKey.document ∧
    ReadsAnySpelling children (fun cs => Policy.childrenDocument (Policy.documents cs)) ∧
    ReadsAnySpelling threshold
      (fun t => Policy.thresholdDocument t.1 (Policy.documents t.2)) ∧
    ReadsAnySpelling signaturePair SignaturePair.document ∧
    ReadsAnySpelling Config.format Config.document := by
  have hchild : ∀ c : Policy, Conveys maxNesting readPolicy c.document c.sketch.height c :=
    fun c => conveys_policy c maxNesting
  exact ⟨readsAnySpelling documents_policy hchild,
    readsAnySpelling documents_signatureMap (conveys_signatureMap maxNesting),
    readsAnySpelling documents_publicKey (conveys_publicKey maxNesting),
    readsAnySpelling documents_children fun _ => conveys_children fun c _ => hchild c,
    readsAnySpelling documents_threshold fun t => conveys_threshold t.1 fun c _ => hchild c,
    readsAnySpelling documents_signaturePair (conveys_signaturePair maxNesting),
    readsAnySpelling documents_config (conveys_config maxNesting)⟩

/-- A threshold with its fields the other way round, its children in an array, and blanks. -/
theorem decode_spelling_rearranged :
    let text := "\n\x7b\"Threshold\": \x7b \"keys\" : [[\x7b\"ContractId\":7\x7d]],
      \"threshold\":1\x7d\x7d "
    let p : Policy := .threshold 1 [.contract 7]
    Spells text p.document ∧ nesting text ≤ 127 ∧ policy.decode text = .ok p := by
  intro text p
  have hchild : Presents (Policy.contract 7).document (.variant "ContractId" (.natural 7)) :=
    .variant (.natural 7)
  have hchildren : Presents (Policy.childrenDocument [(Policy.contract 7).document])
      (.list [.list [.variant "ContractId" (.natural 7)]]) :=
    .array (.cons (.list (.cons hchild .nil)) .nil)
  have hspells : Spells text p.document :=
    ⟨_, .variant (.object (.cons (.natural 1) (.cons hchildren .nil)) (.swap _ _ _)),
      by decide +kernel⟩
  obtain ⟨-, hok, -⟩ := (decode_spelling.1 p).2.2 text hspells
  have hnesting : nesting text ≤ 127 := by decide +kernel
  exact ⟨hspells, hnesting, hok.1 hnesting⟩

end Format

end KeyPolicy
