import KeyPolicy.Proofs.RoundTrip

/-!
# No text stands for two policies

**Theorem (`Format.encode_unambiguous`).** Two policies have the same text only if they are equal,
and no text of a policy goes on to be the text of another. This holds at any nesting.

A reader would show it for the texts that it takes, but it refuses those that are nested too deeply.
So it is shown for the writers. What is written for a value, whatever follows it, is written for no
other value (`Tells`). There is one rule for each way of making a writer, and each says as well that
what follows is the same; so an array can be told element by element although nothing says how many
there are. Only the first token of an element has to be looked at: it must not be the bracket that
closes the array.

All this is about tokens. They are read off the text one at a time (`scan_spell`), also where the
text goes on, as long as what was spelled does not end with a number.
-/

namespace KeyPolicy

namespace Json

/-! ## One way to cut a text -/

/-- A token and what follows it can be told from the text. -/
theorem spell_append_inj {t u : Token} {cs ds : List Char} (ht : t ≠ .invalid) (hu : u ≠ .invalid)
    (hcs : t.isNumber = true → EndsNumber cs) (hds : u.isNumber = true → EndsNumber ds)
    (h : t.spell ++ cs = u.spell ++ ds) : t = u ∧ cs = ds := by
  have hscan : scan (t.spell ++ cs) = some (t, cs) := scan_spell ht hcs
  rw [h, scan_spell hu hds] at hscan
  cases hscan
  exact ⟨rfl, rfl⟩

/-- The tokens do not end with a number. -/
def EndsApart (ts : List Token) : Prop := ∀ t ∈ ts.getLast?, t.isNumber = false

theorem EndsApart.of_cons {t : Token} {ts : List Token} (h : EndsApart (t :: ts)) :
    EndsApart ts := by
  cases ts with
  | nil => nofun
  | cons u us => rwa [EndsApart, List.getLast?_cons_cons] at h

/-- A number among such tokens is ended by the token behind it, whatever the text goes on with. -/
theorem endsNumber_of_endsApart {t : Token} {ts : List Token} (hend : EndsApart (t :: ts))
    (hnumber : ∀ u ∈ ts.head?, u.isNumber = false) (ht : t.isNumber = true) (cs : List Char) :
    EndsNumber (spellAll ts ++ cs) := by
  cases ts with
  | nil => exact absurd (hend t rfl) (ne_true_of_eq_false · ht)
  | cons u us =>
    rw [spellAll, List.flatMap_cons, List.append_assoc]
    exact Token.endsNumber_spell (hnumber u rfl) _

/-- A text that starts as some tokens are spelled is spelled by tokens that start with them. -/
theorem exists_append_of_spellAll {ts us : List Token} {cs : List Char} (hts : Legible ts)
    (hend : EndsApart ts) (hus : Legible us) (h : spellAll ts ++ cs = spellAll us) :
    ∃ vs, us = ts ++ vs ∧ cs = spellAll vs := by
  induction ts generalizing us with
  | nil => exact ⟨us, rfl, h⟩
  | cons t ts ih =>
    obtain ⟨hvalid, hnumber, hts⟩ := hts
    rw [spellAll, List.flatMap_cons, List.append_assoc] at h
    cases us with
    | nil => exact absurd (List.append_eq_nil_iff.1 h).1 t.spell_ne_nil
    | cons u us =>
      obtain ⟨hvalid', hnumber', hus⟩ := hus
      obtain ⟨rfl, hrest⟩ := spell_append_inj hvalid hvalid'
        (fun ht => endsNumber_of_endsApart hend (hnumber ht) ht cs)
        (fun hu => ((spaced_spellAll us).written hus).endsNumber (hnumber' hu)) h
      obtain ⟨vs, rfl, hvs⟩ := ih hts hend.of_cons hus hrest
      exact ⟨vs, rfl, hvs⟩

/-! ## Tokens in front of what follows -/

/-- The writer puts tokens in front of what follows and leaves that as it is. -/
def Writer.InFront (w : Writer) : Prop := ∀ rest rest', w (rest ++ rest') = w rest ++ rest'

namespace Writer.InFront

variable {w w' : Writer} {ws : List Writer}

theorem token (t : Token) : InFront fun rest => t :: rest := fun _ _ => rfl

theorem comp (hw : w.InFront) (hw' : w'.InFront) : InFront fun rest => w (w' rest) := by
  intro rest rest'
  show w (w' (rest ++ rest')) = w (w' rest) ++ rest'
  rw [hw', hw]

theorem cons (t : Token) (hw : w.InFront) : InFront fun rest => t :: w rest := (token t).comp hw

theorem more (closing : Token) (h : ∀ w ∈ ws, InFront w) : InFront (Writer.more closing ws) := by
  induction ws with
  | nil => exact token closing
  | cons w ws ih =>
    obtain ⟨hw, hws⟩ := List.forall_mem_cons.1 h
    exact (hw.comp (ih hws)).cons .comma

theorem enclosed (opening closing : Token) (h : ∀ w ∈ ws, InFront w) :
    InFront (.enclosed opening closing ws) := by
  cases ws with
  | nil => exact (token closing).cons opening
  | cons w ws =>
    obtain ⟨hw, hws⟩ := List.forall_mem_cons.1 h
    exact (hw.comp (more closing hws)).cons opening

theorem list (h : ∀ w ∈ ws, InFront w) : InFront (.list ws) :=
  Writer.list_eq ws ▸ enclosed .openBracket .closeBracket h

theorem record {fields : List (String × Writer)} (h : ∀ f ∈ fields, InFront f.2) :
    InFront (.record fields) := by
  have hfields := List.forall_mem_map.2 fun f hf => ((h f hf).cons .colon).cons (.text f.1)
  exact Writer.record_eq fields ▸ enclosed .openBrace .closeBrace hfields

theorem variant (name : String) (hw : w.InFront) : InFront (.variant name w) := by
  refine record fun f hf => ?_
  rw [List.mem_singleton.1 hf]
  exact hw

end Writer.InFront

theorem Document.inFront (d : Document) : d.write.InFront := by
  induction d using Document.induction with
  | natural n => exact .token (.natural n)
  | text s => exact .token (.text s)
  | list ds ih =>
    rw [write, writeAll_eq_map]
    exact .list (List.forall_mem_map.2 ih)
  | record fields ih =>
    rw [write, writeFields_eq_map]
    exact .record (List.forall_mem_map.2 ih)
  | variant name d ih =>
    rw [write]
    exact .variant name ih

/-- What follows a variant follows a bracket. -/
theorem endsApart_variant {name : String} {w : Writer} (hw : w.InFront) :
    EndsApart (Writer.variant name w []) := by
  have hlast : Writer.variant name w [] =
      (.openBrace :: .text name :: .colon :: w []) ++ [.closeBrace] := by
    show _ :: _ :: _ :: w ([] ++ [.closeBrace]) = _
    rw [hw]
    rfl
  rw [hlast, EndsApart, List.getLast?_concat]
  rintro t ⟨⟩
  rfl

/-! ## Telling values apart -/

/-- What is written for the value, whatever follows it, is written for no other value. -/
def Tells {α : Type} (write : α → Writer) (a : α) : Prop :=
  ∀ ⦃b rest rest'⦄, write a rest = write b rest' → a = b ∧ rest = rest'

namespace Tells

variable {α β : Type} {write : α → Writer} {write' : β → Writer} {a : α} {b : β}

theorem token {f : α → Token} (hf : Function.Injective f) (a : α) :
    Tells (fun a rest => f a :: rest) a := by
  intro b rest rest' h
  obtain ⟨htoken, hrest⟩ := List.cons.inj h
  exact ⟨hf htoken, hrest⟩

theorem natural {f : α → Nat} (hf : Function.Injective f) (a : α) :
    Tells (fun a => .natural (f a)) a :=
  token (fun _ _ h => hf (Token.natural.inj h)) a

theorem text {f : α → String} (hf : Function.Injective f) (a : α) :
    Tells (fun a => .text (f a)) a :=
  token (fun _ _ h => hf (Token.text.inj h)) a

theorem moreItems {as : List α} (h : ∀ a ∈ as, Tells write a) :
    Tells (fun as => .moreItems (as.map write)) as := by
  induction as with
  | nil =>
    intro bs rest rest' heq
    cases bs with
    | nil => exact ⟨rfl, (List.cons.inj heq).2⟩
    | cons b bs => cases heq
  | cons a as ih =>
    obtain ⟨ha, has⟩ := List.forall_mem_cons.1 h
    intro bs rest rest' heq
    cases bs with
    | nil => cases heq
    | cons b bs =>
      obtain ⟨rfl, hmore⟩ := ha (List.cons.inj heq).2
      obtain ⟨rfl, hrest⟩ := ih has hmore
      exact ⟨rfl, hrest⟩

/-- Elements that do not start with the closing bracket can be told until it comes. -/
theorem list {as : List α} (hhead : ∀ a rest, (write a rest).head? ≠ some .closeBracket)
    (h : ∀ a ∈ as, Tells write a) : Tells (fun as => .list (as.map write)) as := by
  intro bs rest rest' heq
  cases as with
  | nil =>
    cases bs with
    | nil => exact ⟨rfl, (List.cons.inj (List.cons.inj heq).2).2⟩
    | cons b bs => exact absurd (congrArg List.head? (List.cons.inj heq).2).symm (hhead b _)
  | cons a as =>
    obtain ⟨ha, has⟩ := List.forall_mem_cons.1 h
    cases bs with
    | nil => exact absurd (congrArg List.head? (List.cons.inj heq).2) (hhead a _)
    | cons b bs =>
      obtain ⟨rfl, hmore⟩ := ha (List.cons.inj heq).2
      obtain ⟨rfl, hrest⟩ := moreItems has hmore
      exact ⟨rfl, hrest⟩

theorem variant {name : String} (h : Tells write a) :
    Tells (fun a => .variant name (write a)) a := by
  intro b rest rest' heq
  simp only [Writer.variant, Writer.record, Writer.moreFields, List.cons.injEq, true_and] at heq
  obtain ⟨rfl, hrest⟩ := h heq
  exact ⟨rfl, (List.cons.inj hrest).2⟩

/-- The values of a record of two fields can be told one after the other. -/
theorem record {name name' : String} (ha : Tells write a) (hb : Tells write' b) :
    Tells (fun x : α × β => .record [(name, write x.1), (name', write' x.2)]) (a, b) := by
  rintro ⟨a', b'⟩ rest rest' heq
  simp only [Writer.record, Writer.moreFields, List.cons.injEq, true_and] at heq
  obtain ⟨rfl, hmore⟩ := ha heq
  simp only [List.cons.injEq, true_and] at hmore
  obtain ⟨rfl, hrest⟩ := hb hmore
  exact ⟨rfl, (List.cons.inj hrest).2⟩

end Tells

theorem variant_name_inj {name name' : String} {w w' : Writer} {rest rest' : List Token}
    (h : Writer.variant name w rest = Writer.variant name' w' rest') : name = name' :=
  Token.text.inj (List.cons.inj (List.cons.inj h).2).1

end Json

open Json

namespace Format

/-! ## Policies -/

theorem tells_bytes (bs : Bytes) : Tells bytes.write bs :=
  Tells.list (fun b rest => (Writes.natural b.toNat).head?_ne rest) fun b _ =>
    Tells.natural (fun _ _ h => UInt8.toNat_inj.1 h) b

theorem tells_uint32 (n : UInt32) : Tells uint32.write n :=
  Tells.natural (fun _ _ h => UInt32.toNat_inj.1 h) n

theorem tells_uint64 (n : UInt64) : Tells uint64.write n :=
  Tells.natural (fun _ _ h => UInt64.toNat_inj.1 h) n

theorem tells_publicKey (k : PublicKey) : Tells publicKey.write k := by
  have halgorithm : Tells algorithm.write k.algorithm :=
    Tells.text (fun _ _ h => Algorithm.name_injective h) k.algorithm
  intro l rest rest' h
  obtain ⟨hsame, hrest⟩ :=
    (halgorithm.record (tells_bytes k.bytes)) (b := (l.algorithm, l.bytes)) h
  obtain ⟨ha, hb⟩ := Prod.mk.inj hsame
  exact ⟨PublicKey.ext ha hb, hrest⟩

theorem writePolicies_eq_map (cs : List Policy) : writePolicies cs = cs.map writePolicy := by
  induction cs with
  | nil => rfl
  | cons c cs ih => rw [writePolicies, ih, List.map_cons]

theorem tells_children {cs : List Policy} (h : ∀ c ∈ cs, Tells writePolicy c) :
    Tells (fun cs => writeChildren (writePolicies cs)) cs := by
  have hhead : ∀ c rest, (writePolicy c rest).head? ≠ some .closeBracket := fun c =>
    (Lawful.policy.writes c).head?_ne
  simp only [writePolicies_eq_map]
  exact (Tells.list hhead h).variant

/-- Variants are told apart by their names, and policies of one variant by what they hold. -/
theorem tells_policy (p : Policy) : Tells writePolicy p := by
  induction p using Policy.induction with
  | key k =>
    intro q rest rest' h
    cases q with
    | key l => exact ((tells_publicKey k).variant h).imp_left (congrArg Policy.key)
    -- Equal texts have equal names, and these are the names of two variants.
    | _ => exact absurd (variant_name_inj h) (by decide)
  | allOf cs ih =>
    intro q rest rest' h
    cases q with
    | allOf ds => exact ((tells_children ih).variant h).imp_left (congrArg Policy.allOf)
    | _ => exact absurd (variant_name_inj h) (by decide)
  | threshold m cs ih =>
    intro q rest rest' h
    cases q with
    | threshold n ds =>
      obtain ⟨⟨⟩, hrest⟩ :=
        ((tells_uint32 m).record (tells_children ih)).variant (b := (n, ds)) h
      exact ⟨rfl, hrest⟩
    | _ => exact absurd (variant_name_inj h) (by decide)
  | contract n =>
    intro q rest rest' h
    cases q with
    | contract n' => exact ((tells_uint64 n).variant h).imp_left (congrArg Policy.contract)
    | _ => exact absurd (variant_name_inj h) (by decide)
  | delegatableContract n =>
    intro q rest rest' h
    cases q with
    | delegatableContract n' =>
      exact ((tells_uint64 n).variant h).imp_left (congrArg Policy.delegatableContract)
    | _ => exact absurd (variant_name_inj h) (by decide)
  | rsa3072 bs =>
    intro q rest rest' h
    cases q with
    | rsa3072 bs' => exact ((tells_bytes bs).variant h).imp_left (congrArg Policy.rsa3072)
    | _ => exact absurd (variant_name_inj h) (by decide)
  | ecdsaP384 bs =>
    intro q rest rest' h
    cases q with
    | ecdsaP384 bs' => exact ((tells_bytes bs).variant h).imp_left (congrArg Policy.ecdsaP384)
    | _ => exact absurd (variant_name_inj h) (by decide)

/-! ## Texts of policies -/

theorem write_document (p : Policy) : p.document.write = writePolicy p := documents_policy p

theorem inFront_policy (p : Policy) : (writePolicy p).InFront :=
  write_document p ▸ p.document.inFront

theorem endsApart_policy (p : Policy) : EndsApart (writePolicy p []) := by
  obtain ⟨name, d, hd⟩ : ∃ name d, p.document = .variant name d := by
    cases p <;> exact ⟨_, _, rfl⟩
  rw [← write_document p, hd, Document.write]
  exact endsApart_variant d.inFront

theorem legible_policy (p : Policy) : Legible (writePolicy p []) :=
  (Lawful.policy.writes p).legible nofun trivial

/-- A text of a policy does not go on to be the text of another. -/
theorem eq_of_encode_append {p q : Policy} {rest : String}
    (h : policy.encode p ++ rest = policy.encode q) : p = q ∧ rest = "" := by
  have htext : spellAll (writePolicy p []) ++ rest.toList = spellAll (writePolicy q []) := by
    simpa [encode, policy, Writer.toText] using congrArg String.toList h
  obtain ⟨vs, hvs, hrest⟩ :=
    exists_append_of_spellAll (legible_policy p) (endsApart_policy p) (legible_policy q) htext
  have hbehind : writePolicy p vs = writePolicy q [] := by
    rw [hvs, ← inFront_policy p, List.nil_append]
  obtain ⟨rfl, rfl⟩ := tells_policy p hbehind
  exact ⟨rfl, String.toList_eq_nil_iff.1 hrest⟩

/-- **The text of a policy says which policy it is**, however deeply it is nested. Two policies are
equal, as the walk over both trees decides, exactly if their texts are the same string. No text of a
policy is the start of the text of another, and it is the start of its own text only as a whole. -/
theorem encode_unambiguous (p q : Policy) :
    (p.same q = true ↔ policy.encode p = policy.encode q) ∧
    ∀ rest, policy.encode p ++ rest = policy.encode q ↔ p = q ∧ rest = "" := by
  have happend : ∀ rest, policy.encode p ++ rest = policy.encode q ↔ p = q ∧ rest = "" := by
    refine fun rest => ⟨eq_of_encode_append, ?_⟩
    rintro ⟨rfl, rfl⟩
    exact String.append_empty
  refine ⟨?_, happend⟩
  have hempty := happend ""
  rw [String.append_empty] at hempty
  rw [Policy.same_iff, hempty]
  exact (and_iff_left rfl).symm

end Format

end KeyPolicy
