import Mathlib.Tactic.SplitIfs
import KeyPolicy.Policy.Leaves
import KeyPolicy.Proofs.RoundTrip

/-!
# What any text can be read as

The readers take many spellings of a value: fields in any order, blanks, unknown fields, arrays in
place of objects. Nothing is known of such a text, so the argument runs on the result alone.

**Theorem (`Format.decode_canonical`).** Whatever text a value was read from, its keys fit their
algorithms, and its own written form is read back as the same value.

The invariant is that a reader with `room` for further brackets yields only values that are written
with at most `room` brackets inside each other: a reader that asks for a bracket spends one, in the
object form and in the array form alike, and the written form has no bracket that the reader did not
ask for. Brackets inside fields that are passed over do not count on either side.
-/

namespace KeyPolicy

open Json

namespace Json

variable {α β σ : Type}

/-- Values that the reader takes where it has so much room have the property. -/
def Yields (read : Reader α) (Q : Nat → α → Prop) : Prop :=
  ∀ room ts a rest, read room ts = .ok (a, rest) → Q room a

namespace Yields

variable {read : Reader α} {Q : Nat → α → Prop}

theorem map {Q : Nat → β → Prop} {f : α → β} (h : Yields read fun room a => Q room (f a)) :
    Yields (read.map f) Q := by
  intro room ts b rest hres
  rw [Reader.map] at hres
  split at hres
  · next a rest' hread =>
    cases hres
    exact h room ts a rest hread
  · cases hres

theorem check {Q' : Nat → β → Prop} {f : α → Except ReadError β} (h : Yields read Q)
    (hf : ∀ room a b, Q room a → f a = .ok b → Q' room b) : Yields (read.check f) Q' := by
  intro room ts b rest hres
  rw [Reader.check] at hres
  split at hres
  · next a rest' hread =>
    split at hres
    · next b' hb =>
      cases hres
      exact hf room a b (h room ts a rest hread) hb
    · cases hres
  · cases hres

/-! ## Arrays -/

theorem items (h : Yields read Q) {room fuel : Nat} {ts : List Token} {as : List α}
    {rest : List Token} (hres : Reader.items read room fuel ts = .ok (as, rest)) :
    ∀ a ∈ as, Q room a := by
  induction fuel generalizing ts as with
  | zero => cases hres
  | succ fuel ih =>
    rw [Reader.items] at hres
    split at hres
    · cases hres
    · next a _ hread =>
      cases hres
      exact List.forall_mem_singleton.2 (h _ _ _ _ hread)
    · next a _ hread =>
      split at hres
      · next hmore =>
        cases hres
        exact List.forall_mem_cons.2 ⟨h _ _ _ _ hread, ih hmore⟩
      · cases hres
    · cases hres

theorem list (h : Yields read Q) :
    Yields (Reader.list read) fun room as => 0 < room ∧ ∀ a ∈ as, Q (room - 1) a := by
  intro room ts as rest hres
  rw [Reader.list.eq_def] at hres
  split at hres
  · cases hres
    exact ⟨Nat.succ_pos _, nofun⟩
  · exact ⟨Nat.succ_pos _, h.items hres⟩
  · cases hres

/-! ## Records -/

section Record

variable {I : Nat → σ → Prop} {fields : List (Reader.Field σ)}

/-- Reading the field keeps the invariant of the record. -/
def Keeps (I : Nat → σ → Prop) (f : Reader.Field σ) : Prop :=
  ∀ s, Yields (f.read s) fun room s' => I room s → I room s'

theorem keeps_of {name : String} {get : σ → Option α} {set : σ → α → σ} (h : Yields read Q)
    (hset : ∀ room s a, I room s → Q room a → I room (set s a)) :
    Keeps I (.of name get set read) := by
  intro s
  have hmap : Yields read fun room a => I room s → I room (set s a) :=
    fun room ts a rest hread hI => hset room s a hI (h room ts a rest hread)
  exact hmap.map

theorem fieldValue (h : ∀ f ∈ fields, Keeps I f) (s : σ) (name : String) :
    Yields (Reader.fieldValue fields s name) fun room s' => I room s → I room s' := by
  intro room ts s' rest hres
  rw [Reader.fieldValue] at hres
  split at hres
  · next f hf =>
    split at hres
    · cases hres
    · exact h f (List.mem_of_find?_eq_some hf) s room ts s' rest hres
  · split at hres
    · cases hres
      exact id
    · cases hres

theorem objectFields (h : ∀ f ∈ fields, Keeps I f) {room fuel : Nat} {s s' : σ}
    {ts rest : List Token} (hres : Reader.objectFields fields room fuel s ts = .ok (s', rest))
    (hI : I room s) : I room s' := by
  induction fuel generalizing s ts with
  | zero => cases hres
  | succ fuel ih =>
    rw [Reader.objectFields.eq_def] at hres
    split at hres
    · next heq =>
      obtain rfl := Nat.succ.inj heq
      split at hres
      · cases hres
      · next hvalue =>
        cases hres
        exact fieldValue h _ _ _ _ _ _ hvalue hI
      · next hvalue => exact ih hres (fieldValue h _ _ _ _ _ _ hvalue hI)
      · cases hres
    · cases hres

theorem arrayFields (h : ∀ f ∈ fields, Keeps I f) {room : Nat} {s s' : σ} {ts rest : List Token}
    (hres : Reader.arrayFields room fields s ts = .ok (s', rest)) (hI : I room s) : I room s' := by
  induction fields generalizing s ts with
  | nil => cases hres
  | cons f fields ih =>
    obtain ⟨hf, hfields⟩ := List.forall_mem_cons.1 h
    rw [Reader.arrayFields] at hres
    split at hres
    · cases hres
    · next hvalue =>
      cases hres
      exact hf _ _ _ _ _ hvalue hI
    · next hvalue => exact ih hfields hres (hf _ _ _ _ _ hvalue hI)
    · cases hres

/-- A record keeps its invariant in both forms, and either takes one bracket. -/
theorem record {blank : σ} (hblank : ∀ room, I room blank) (h : ∀ f ∈ fields, Keeps I f) :
    Yields (Reader.record fields blank) fun room s => 0 < room ∧ I (room - 1) s := by
  intro room ts s rest hres
  rw [Reader.record.eq_def] at hres
  split at hres
  · cases hres
    exact ⟨Nat.succ_pos _, hblank _⟩
  · exact ⟨Nat.succ_pos _, objectFields h hres (hblank _)⟩
  · cases hres
    exact ⟨Nat.succ_pos _, hblank _⟩
  · exact ⟨Nat.succ_pos _, arrayFields h hres (hblank _)⟩
  · cases hres

end Record

/-! ## Variants -/

theorem variant {payload : String → Option (Reader α)}
    (h : ∀ name read, payload name = some read → Yields read Q) :
    Yields (Reader.variant payload) fun room a => 0 < room ∧ Q (room - 1) a := by
  intro room ts a rest hres
  rw [Reader.variant.eq_def] at hres
  split at hres
  · split at hres
    · cases hres
    · next read hread =>
      split at hres
      · cases hres
      · next hvalue =>
        cases hres
        exact ⟨Nat.succ_pos _, h _ _ hread _ _ _ _ hvalue⟩
      · cases hres
  · cases hres

end Yields

end Json

namespace Format

variable {α β σ : Type}

/-! ## Room for what was read -/

/-- Values that the reader takes are written with no more brackets than there was room for. -/
def Fitting (read : Reader α) (height : α → Nat) : Prop :=
  Yields read fun room a => height a ≤ room

theorem fitting_zero (read : Reader α) : Fitting read fun _ => 0 := fun _ _ _ _ _ => Nat.zero_le _

theorem fitting_list {read : Reader α} {height : α → Nat} (h : Fitting read height) :
    Fitting (Reader.list read) fun as => 1 + tallest (as.map height) := by
  intro room ts as rest hres
  obtain ⟨hroom, has⟩ := Yields.list h room ts as rest hres
  have hall : tallest (as.map height) ≤ room - 1 := tallest_le_iff.2 (List.forall_mem_map.2 has)
  show 1 + tallest (as.map height) ≤ room
  omega

section Record

variable {get : σ → Option α} {set : σ → α → σ} {height : α → Nat} {name : String}

/-- There is room for this part of a record, if it was read yet. -/
def RoomFor (get : σ → Option α) (height : α → Nat) (room : Nat) (s : σ) : Prop :=
  ∀ a, get s = some a → height a ≤ room

theorem keeps_roomFor {read : Reader α} (h : Fitting read height)
    (hget : ∀ s a, get (set s a) = some a) :
    Yields.Keeps (RoomFor get height) (.of name get set read) :=
  Yields.keeps_of h fun _ s a _ hroom b hb => by
    obtain rfl := Option.some.inj ((hget s a).symm.trans hb)
    exact hroom

/-- Another field of the record does not touch the part. -/
theorem keeps_roomFor_of_eq {get' : σ → Option β} {set' : σ → β → σ} {read : Reader β}
    (hget : ∀ s b, get (set' s b) = get s) :
    Yields.Keeps (RoomFor get height) (.of name get' set' read) :=
  Yields.keeps_of (fitting_zero read) fun _ s b hI _ a ha => hI a ((hget s b).symm.trans ha)

/-- A record whose deepest part is needed has the bracket of the record and those of the part. -/
theorem fitting_record {fields : List (Reader.Field σ)} {blank : σ} {height' : β → Nat}
    {f : σ → Except ReadError β} (hblank : get blank = none)
    (hfields : ∀ field ∈ fields, Yields.Keeps (RoomFor get height) field)
    (hf : ∀ s b, f s = .ok b → ∃ a, get s = some a ∧ height' b = 1 + height a) :
    Fitting ((Reader.record fields blank).check f) height' := by
  have hnone : ∀ room, RoomFor get height room blank := fun room a ha => by
    rw [hblank] at ha
    cases ha
  refine (Yields.record hnone hfields).check fun room s b h hb => ?_
  obtain ⟨hroom, hinside⟩ := h
  obtain ⟨a, ha, hheight⟩ := hf s b hb
  have hle := hinside a ha
  omega

end Record

theorem need_eq_ok {o : Option α} {a : α} (h : Reader.need o = .ok a) : o = some a := by
  cases o with
  | none => cases h
  | some b => cases h; rfl

/-! ## Keys, signatures and settings -/

theorem fitting_bytes : Fitting bytes.read fun _ => 1 := fun room ts bs rest hres =>
  Nat.le_trans (Nat.le_add_right 1 _) (fitting_list (fitting_zero byte.read) room ts bs rest hres)

theorem fitting_publicKey : Fitting publicKey.read fun _ => 2 := by
  have hfields : ∀ f ∈ publicKeyFields, Yields.Keeps (RoomFor (·.bytes) fun _ => 1) f := by
    rw [publicKeyFields, List.forall_mem_cons, List.forall_mem_singleton]
    exact ⟨keeps_roomFor_of_eq fun _ _ => rfl, keeps_roomFor fitting_bytes fun _ _ => rfl⟩
  refine fitting_record rfl hfields fun s k hk => ?_
  obtain ⟨a, _ | bs⟩ := s
  · cases a <;> cases hk
  · exact ⟨bs, rfl, rfl⟩

theorem fitting_signaturePair : Fitting signaturePair.read fun _ => 2 := by
  have hfields : ∀ f ∈ signaturePairFields, Yields.Keeps (RoomFor (·.signature) fun _ => 1) f := by
    rw [signaturePairFields, List.forall_mem_cons, List.forall_mem_cons,
      List.forall_mem_singleton]
    exact ⟨keeps_roomFor_of_eq fun _ _ => rfl, keeps_roomFor_of_eq fun _ _ => rfl,
      keeps_roomFor fitting_bytes fun _ _ => rfl⟩
  refine fitting_record rfl hfields fun s p hp => ?_
  obtain ⟨a, start, _ | sig⟩ := s
  · cases a <;> cases start <;> cases hp
  · exact ⟨sig, rfl, rfl⟩

theorem fitting_signatureMap :
    Fitting signatureMap.read fun m => 1 + tallest [1 + tallest (m.pairs.map fun _ => 2)] := by
  have hfields : ∀ f ∈ signatureMapFields,
      Yields.Keeps (RoomFor id fun ps => 1 + tallest (ps.map fun _ => 2)) f := by
    rw [signatureMapFields, List.forall_mem_singleton]
    exact keeps_roomFor (fitting_list fitting_signaturePair) fun _ _ => rfl
  have hpairs : Fitting ((Reader.record signatureMapFields none).check Reader.need)
      fun ps => 1 + tallest [1 + tallest (ps.map fun _ => 2)] :=
    fitting_record rfl hfields fun s ps hps =>
      ⟨ps, need_eq_ok hps, congrArg (1 + ·) (tallest_singleton _)⟩
  exact Yields.map hpairs

theorem fitting_config : Fitting Config.format.read fun _ => 1 := by
  have hfields : ∀ f ∈ Config.fields, Yields.Keeps (fun _ _ => True) f := by
    rw [Config.fields, List.forall_mem_cons, List.forall_mem_singleton]
    exact ⟨Yields.keeps_of (fitting_zero _) fun _ _ _ _ _ => trivial,
      Yields.keeps_of (fitting_zero _) fun _ _ _ _ _ => trivial⟩
  exact Yields.map fun _ ts s rest hres =>
    (Yields.record (fun _ => trivial) hfields _ ts s rest hres).1

/-! ## Policies -/

section Children

variable {child : Reader Policy}

theorem fitting_readChildren (h : Fitting child (·.sketch.height)) :
    Fitting (readChildren child) fun cs => 2 + Sketch.maxHeight (Policy.sketches cs) := by
  have hfields : ∀ f ∈ childrenFields child,
      Yields.Keeps (RoomFor id fun cs => 1 + tallest (cs.map (·.sketch.height))) f := by
    rw [childrenFields, List.forall_mem_singleton]
    exact keeps_roomFor (fitting_list h) fun _ _ => rfl
  refine fitting_record rfl hfields fun s cs hcs => ⟨cs, need_eq_ok hcs, ?_⟩
  rw [Sketch.maxHeight_eq, Policy.sketches_eq_map, List.map_map, ← Nat.add_assoc]
  rfl

theorem fitting_readThreshold (h : Fitting child (·.sketch.height)) :
    Fitting (readThreshold child) fun t => 3 + Sketch.maxHeight (Policy.sketches t.2) := by
  have hfields : ∀ f ∈ thresholdFields child, Yields.Keeps
      (RoomFor (·.children) fun cs => 2 + Sketch.maxHeight (Policy.sketches cs)) f := by
    rw [thresholdFields, List.forall_mem_cons, List.forall_mem_singleton]
    exact ⟨keeps_roomFor_of_eq fun _ _ => rfl,
      keeps_roomFor (fitting_readChildren h) fun _ _ => rfl⟩
  refine fitting_record rfl hfields fun s t ht => ?_
  obtain ⟨_ | m, _ | cs⟩ := s <;> cases ht
  exact ⟨cs, rfl, by rw [← Nat.add_assoc]⟩

end Children

/-- The contents of a variant leave one bracket for the variant itself. -/
theorem yields_payload {read : Reader α} {height : α → Nat} {f : α → Policy}
    (h : Fitting read height) (hf : ∀ a, (f a).sketch.height = 1 + height a) :
    Yields (read.map f) fun room p => p.sketch.height ≤ 1 + room :=
  Yields.map fun room ts a rest hres => by
    have hroom : height a ≤ room := h room ts a rest hres
    show (f a).sketch.height ≤ 1 + room
    rw [hf]
    omega

theorem yields_readVariant {child read : Reader Policy} {name : String}
    (h : Fitting child (·.sketch.height)) (hread : readVariant child name = some read) :
    Yields read fun room p => p.sketch.height ≤ 1 + room := by
  rw [readVariant] at hread
  split_ifs at hread <;> cases hread
  · exact yields_payload fitting_publicKey fun _ => rfl
  · refine yields_payload (fitting_readChildren h) fun cs => ?_
    rw [← Nat.add_assoc]
    rfl
  · refine yields_payload (fitting_readThreshold h) fun t => ?_
    rw [← Nat.add_assoc]
    rfl
  · exact yields_payload (fitting_zero _) fun _ => rfl
  · exact yields_payload (fitting_zero _) fun _ => rfl
  · exact yields_payload fitting_bytes fun _ => rfl
  · exact yields_payload fitting_bytes fun _ => rfl

/-- The induction is on the levels that the reader may still descend. -/
theorem fitting_readPolicyWithin (levels : Nat) :
    Fitting (readPolicyWithin levels) (·.sketch.height) := by
  induction levels with
  | zero => exact fun _ _ _ _ hres => nomatch hres
  | succ levels ih =>
    intro room ts p rest hres
    have hpayload : ∀ name read, readVariant (readPolicyWithin levels) name = some read →
        Yields read fun room p => p.sketch.height ≤ 1 + room :=
      fun _ _ hread => yields_readVariant ih hread
    obtain ⟨hroom, hp⟩ := Yields.variant hpayload room ts p rest hres
    show p.sketch.height ≤ room
    omega

/-! ## Texts of any spelling -/

/-- Whatever text a value was read from, its keys fit their algorithms, and its written form is read
back as the same value within the limit on brackets. -/
def Canonical (f : Format α) (keys : α → List PublicKey) : Prop :=
  ∀ text a, f.decode text = .ok a →
    (∀ k ∈ keys a, k.bytes.length = k.algorithm.keyLength ∧
      (k.algorithm = .ecdsaSecp256k1 → k.bytes.head? = some 2 ∨ k.bytes.head? = some 3) ∧
      PublicKey.ofBytes k.algorithm k.bytes = .ok k) ∧
    f.decode (f.encode a) = .ok a ∧ nesting (f.encode a) ≤ 127

theorem canonical {f : Format α} {height : α → Nat} {keys : α → List PublicKey}
    (hlawful : Lawful f height) (hfitting : Fitting f.read height) : Canonical f keys := by
  intro text a htext
  have hle : height a ≤ 127 := by
    rw [decode, Reader.parse] at htext
    split at htext
    · next hres =>
      cases htext
      exact hfitting _ _ _ _ hres
    · cases htext
    · cases htext
  have hnesting : nesting (f.encode a) ≤ 127 := by rwa [hlawful.nesting_encode]
  exact ⟨fun k _ => ⟨k.admissible.1, k.admissible.2, k.ofBytes_self⟩,
    (hlawful.roundTrips a).1.1 hnesting, hnesting⟩

/-- What any format takes has sound keys and a written form that is read back. -/
theorem decode_canonical :
    Canonical policy Policy.leaves ∧ Canonical publicKey (fun k => [k]) ∧
    Canonical children Policy.leavesOf ∧ Canonical threshold (fun t => Policy.leavesOf t.2) ∧
    Canonical algorithm (fun _ => []) ∧ Canonical signaturePair (fun _ => []) ∧
    Canonical signatureMap (fun _ => []) ∧ Canonical Config.format (fun _ => []) := by
  have hpolicy := fitting_readPolicyWithin maxNesting
  exact ⟨canonical .policy hpolicy, canonical .publicKey fitting_publicKey,
    canonical .children (fitting_readChildren hpolicy),
    canonical .threshold (fitting_readThreshold hpolicy),
    canonical .algorithm (fitting_zero _), canonical .signaturePair fitting_signaturePair,
    canonical .signatureMap fitting_signatureMap, canonical .config fitting_config⟩

/-- A key that is spelled as an array, with blanks. -/
theorem decode_canonical_array :
    let text := " [ \"Ed25519\",
      [7,7,7,7,7,7,7,7,7,7,7,7,7,7,7,7,7,7,7,7,7,7,7,7,7,7,7,7,7,7,7,7]\t] "
    let k := PublicKey.ed25519 (.replicate 32 7)
    publicKey.decode text = .ok k ∧ publicKey.decode (publicKey.encode k) = .ok k ∧
      nesting (publicKey.encode k) ≤ 127 := by
  intro text k
  have hread : publicKey.decode text = .ok k := by decide +kernel
  exact ⟨hread, (decode_canonical.2.1 text k hread).2⟩

end Format

end KeyPolicy
