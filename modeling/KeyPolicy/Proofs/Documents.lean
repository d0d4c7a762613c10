import Mathlib.Data.List.Pairwise
import Mathlib.Data.List.Perm.Basic
import KeyPolicy.Proofs.Reading

/-!
# Documents and their presentations

A document is what a text says, apart from how it is laid out. One document has many presentations:
the fields of a record may come in any order, a record may be written as the array of its values
in their declared order, and blanks may stand anywhere between the tokens. All of these choices can
be made anew at every record of the text.

`Carries most read w height a` says that the reader takes what the writer writes as the value `a`
wherever there is room for `height` brackets, and `Conveys most read d height a` that this holds of
every presentation of the document. There is one rule for each kind of document, so a reader that is
put together from parts inherits it from them. Only records need care. Each field is described by an
`Entry`; the entries of a record have different names and fill different parts of it, so the order
in which they are filled does not matter (`Apart`).

**Theorem (`Conveys.parse`).** A text that spells a document in any way is read as the value that
the document conveys, up to a nesting of 127, and refused beyond.
-/

namespace KeyPolicy.Json

/-! ## Writers that carry a value -/

/-- At these places nothing can be wrong but the nesting of brackets, and it is as deep as `height`
says. -/
def OnlyNests (height : Nat) (cps : Nat → List Checkpoint) : Prop :=
  ∀ limit level, level ≤ limit → (Clean limit (cps level) ↔ level + height ≤ limit)

namespace OnlyNests

variable {height height' : Nat} {cps cps' : Nat → List Checkpoint}

theorem nil : OnlyNests 0 fun _ => [] := fun limit level hle => by simp [clean_nil, hle]

theorem number {n bound : Nat} (h : n < bound) : OnlyNests 0 fun _ => [.number n bound] :=
  fun limit level hle => by simp [clean_cons, clean_nil, violation?_number_iff, h, hle]

theorem append (h : OnlyNests height cps) (h' : OnlyNests height' cps') :
    OnlyNests (max height height') fun level => cps level ++ cps' level := by
  intro limit level hle
  rw [clean_append, h limit level hle, h' limit level hle]
  omega

theorem bracket (h : OnlyNests height cps) :
    OnlyNests (1 + height) fun level => .bracket (level + 1) :: cps (level + 1) := by
  intro limit level hle
  rw [clean_cons, violation?_bracket_iff]
  have hinside := fun hle => h limit (level + 1) hle
  rw [and_congr_right hinside]
  omega

end OnlyNests

section Carries

variable {α β : Type} {most height : Nat} {read : Reader α} {w : Writer} {a : α}

/-- What is written is read as the value where there is room for its brackets. -/
structure Carries (most : Nat) (read : Reader α) (w : Writer) (height : Nat) (a : α) :
    Prop where
  writes : Writes w height
  reads : ∃ cps, OnlyNests height cps ∧ Reads most read w cps (· = a)

/-- A whole text is read as the value up to a nesting of 127, and refused beyond. -/
theorem Carries.parse (h : Carries maxNesting read w height a) {text : String}
    (hspaced : Spaced (w []) text.toList) :
    (nesting text ≤ 127 ↔ read.parse text.toList = .ok a) ∧
      (128 ≤ nesting text ↔ ∃ e, read.parse text.toList = .error e) := by
  obtain ⟨cps, hnests, hreads⟩ := h.reads
  obtain ⟨herror, hok⟩ := Reads.parse_of_spaced h.writes hreads hspaced
  have hclean : firstViolation? maxNesting (cps 0) = none ↔ height ≤ 127 := by
    rw [firstViolation?_eq_none_iff, hnests maxNesting 0 (Nat.zero_le _), Nat.zero_add, maxNesting]
  have hdeep : (128 ≤ height) ↔ ¬ height ≤ 127 := Nat.not_le.symm
  rw [h.writes.nesting_of_spaced hspaced, hdeep, ← hclean]
  cases hres : read.parse text.toList with
  | error e => simp [(herror e).1 hres]
  | ok b =>
    have hnone : firstViolation? maxNesting (cps 0) = none := by
      rw [Option.eq_none_iff_forall_ne_some]
      intro e he
      exact absurd (hres.symm.trans ((herror e).2 he)) (by simp)
    simp [hnone, hok b hres]

theorem Carries.map (f : α → β) (h : Carries most read w height a) :
    Carries most (read.map f) w height (f a) := by
  obtain ⟨cps, hnests, hreads⟩ := h.reads
  exact ⟨h.writes, cps, hnests, hreads.map fun b hb => congrArg f hb⟩

theorem Carries.check {f : α → Except ReadError β} {b : β} (h : Carries most read w height a)
    (hf : f a = .ok b) : Carries most (read.check f) w height b := by
  obtain ⟨cps, hnests, hreads⟩ := h.reads
  refine ⟨h.writes, cps, hnests, hreads.check_of_ok fun c hc => ⟨b, ?_, rfl⟩⟩
  rw [hc, hf]

theorem Carries.variant {payload : String → Option (Reader α)} {name : String}
    (hname : Bracketless (Token.text name).spell) (hpayload : payload name = some read)
    (h : Carries most read w height a) :
    Carries (most + 1) (Reader.variant payload) (.variant name w) (1 + height) a := by
  obtain ⟨cps, hnests, hreads⟩ := h.reads
  exact ⟨h.writes.variant hname, _, hnests.bracket, .variant hpayload hreads⟩

end Carries

/-! ## Documents -/

/-- What a text says. The fields of a record are in their declared order. -/
inductive Document where
  | natural (n : Nat)
  | text (s : String)
  | list (elements : List Document)
  | record (fields : List (String × Document))
  | variant (name : String) (contents : Document)

namespace Document

/-- Prove a property of all documents from their parts up. -/
theorem induction {P : Document → Prop} (natural : ∀ n, P (.natural n)) (text : ∀ s, P (.text s))
    (list : ∀ ds, (∀ d ∈ ds, P d) → P (.list ds))
    (record : ∀ fields, (∀ f ∈ fields, P f.2) → P (.record fields))
    (variant : ∀ name d, P d → P (.variant name d)) (d : Document) : P d :=
  @Document.rec P (fun ds => ∀ d ∈ ds, P d) (fun fields => ∀ f ∈ fields, P f.2) (fun f => P f.2)
    natural text list record variant
    (fun _ h => absurd h List.not_mem_nil)
    (fun _ _ hd hds d h => (List.mem_cons.1 h).elim (fun e => e ▸ hd) (hds d))
    (fun _ h => absurd h List.not_mem_nil)
    (fun _ _ hf hfs f h => (List.mem_cons.1 h).elim (fun e => e ▸ hf) (hfs f))
    (fun _ _ hd => hd) d

mutual

/-- The compact presentation: all records are objects with their fields in declared order. -/
def write : Document → Writer
  | natural n => .natural n
  | text s => .text s
  | list ds => .list (writeAll ds)
  | record fields => .record (writeFields fields)
  | variant name d => .variant name d.write

def writeAll : List Document → List Writer
  | [] => []
  | d :: ds => d.write :: writeAll ds

def writeFields : List (String × Document) → List (String × Writer)
  | [] => []
  | (name, d) :: fields => (name, d.write) :: writeFields fields

end

theorem writeAll_eq_map (ds : List Document) : writeAll ds = ds.map write := by
  induction ds with
  | nil => rfl
  | cons d ds ih => rw [writeAll, ih, List.map_cons]

theorem writeFields_eq_map (fields : List (String × Document)) :
    writeFields fields = fields.map fun f => (f.1, f.2.write) := by
  induction fields with
  | nil => rfl
  | cons f fields ih => rw [writeFields, ih, List.map_cons]

end Document

/-! ## Presentations -/

/-- The writer presents the document: each record is an object with its fields in any order, or the
array of its values in declared order. -/
inductive Presents : Document → Writer → Prop
  | natural (n : Nat) : Presents (.natural n) (.natural n)
  | text (s : String) : Presents (.text s) (.text s)
  | list {ds : List Document} {ws : List Writer} :
      List.Forall₂ Presents ds ws → Presents (.list ds) (.list ws)
  | object {fields : List (String × Document)} {ws : List Writer}
      {written : List (String × Writer)} :
      List.Forall₂ Presents (fields.map Prod.snd) ws →
      ((fields.map Prod.fst).zip ws).Perm written → Presents (.record fields) (.record written)
  | array {fields : List (String × Document)} {ws : List Writer} :
      List.Forall₂ Presents (fields.map Prod.snd) ws → Presents (.record fields) (.list ws)
  | variant {name : String} {d : Document} {w : Writer} :
      Presents d w → Presents (.variant name d) (.variant name w)

/-- The text spells the document: it is some presentation of it, with any blanks between the
tokens. -/
def Spells (text : String) (d : Document) : Prop := ∃ w, Presents d w ∧ Spaced (w []) text.toList

theorem presents_write (d : Document) : Presents d d.write := by
  induction d using Document.induction with
  | natural n => exact .natural n
  | text s => exact .text s
  | list ds ih =>
    rw [Document.write, Document.writeAll_eq_map]
    exact .list (List.forall₂_map_right_iff.2 (List.forall₂_same.2 ih))
  | record fields ih =>
    have hvalues : List.Forall₂ Presents (fields.map Prod.snd) (fields.map fun f => f.2.write) :=
      List.forall₂_map_left_iff.2 (List.forall₂_map_right_iff.2 (List.forall₂_same.2 ih))
    rw [Document.write, Document.writeFields_eq_map]
    refine .object hvalues ?_
    rw [List.zip_map']
  | variant name d ih => exact .variant ih

/-- The compact text is one way to spell a document. -/
theorem spells_toText (d : Document) : Spells d.write.toText d :=
  ⟨d.write, presents_write d, d.write.spaced_toText⟩

/-! ## Conveying a value -/

/-- However the document is presented, it is read as the value. -/
def Conveys {α : Type} (most : Nat) (read : Reader α) (d : Document) (height : Nat) (a : α) :
    Prop :=
  ∀ w, Presents d w → Carries most read w height a

namespace Conveys

variable {α β : Type} {most height : Nat} {read : Reader α} {d : Document} {a : α}

theorem map (f : α → β) (h : Conveys most read d height a) :
    Conveys most (read.map f) d height (f a) := fun w hw => (h w hw).map f

theorem check {f : α → Except ReadError β} {b : β} (h : Conveys most read d height a)
    (hf : f a = .ok b) : Conveys most (read.check f) d height b := fun w hw => (h w hw).check hf

theorem natural {n : Nat} (h : Carries most read (.natural n) height a) :
    Conveys most read (.natural n) height a := by
  rintro w ⟨⟩
  exact h

theorem text {s : String} (h : Carries most read (.text s) height a) :
    Conveys most read (.text s) height a := by
  rintro w ⟨⟩
  exact h

theorem variant {payload : String → Option (Reader α)} {name : String}
    (hname : Bracketless (Token.text name).spell) (hpayload : payload name = some read)
    (h : Conveys most read d height a) :
    Conveys (most + 1) (Reader.variant payload) (.variant name d) (1 + height) a := by
  intro w hw
  cases hw with
  | variant hw => exact (h _ hw).variant hname hpayload

/-! ### Lists -/

section List

variable {as : List α} {doc : α → Document} {heights : α → Nat} {ws : List Writer}

theorem writes_items (h : ∀ a ∈ as, Conveys most read (doc a) (heights a) a)
    (hws : List.Forall₂ Presents (as.map doc) ws) :
    List.Forall₂ Writes ws (as.map heights) := by
  induction as generalizing ws with
  | nil => cases hws; exact .nil
  | cons a as ih =>
    obtain ⟨ha, has⟩ := List.forall_mem_cons.1 h
    cases hws with
    | cons hw hws => exact .cons (ha _ hw).writes (ih has hws)

theorem reads_items (h : ∀ a ∈ as, Conveys most read (doc a) (heights a) a)
    (hws : List.Forall₂ Presents (as.map doc) ws) :
    ∃ cps, OnlyNests (tallest (as.map heights)) cps ∧ Reads.Items most read ws cps (· = as) := by
  induction as generalizing ws with
  | nil =>
    cases hws
    exact ⟨_, .nil, .nil rfl⟩
  | cons a as ih =>
    obtain ⟨ha, has⟩ := List.forall_mem_cons.1 h
    cases hws with
    | cons hw hws =>
      obtain ⟨cps, hnests, hreads⟩ := (ha _ hw).reads
      obtain ⟨cps', hnests', hitems⟩ := ih has hws
      refine ⟨_, hnests.append hnests', .cons (ha _ hw).writes hreads fun b hb => ?_⟩
      exact hitems.imp fun bs hbs => by rw [hb, hbs]

/-- A list conveys the values that its elements convey. -/
theorem list (h : ∀ a ∈ as, Conveys most read (doc a) (heights a) a) :
    Conveys most (Reader.list read) (.list (as.map doc)) (1 + tallest (as.map heights)) as := by
  intro w hw
  cases hw with
  | list hws =>
    obtain ⟨cps, hnests, hitems⟩ := reads_items h hws
    have hread := (Reads.items hitems).mono (Nat.le_succ most)
    exact ⟨.list (writes_items h hws), _, hnests.bracket, hread⟩

end List

end Conveys

/-! ## Records -/

/-- A field of a record, together with the value that it is to be given. -/
structure Entry (most : Nat) (σ : Type) where
  name : String
  {α : Type}
  get : σ → Option α
  set : σ → α → σ
  {read : Reader α}
  {document : Document}
  {height : Nat}
  {value : α}
  conveys : Conveys most read document height value
  bracketless : Bracketless (Token.text name).spell

namespace Entry

variable {most : Nat} {σ : Type}

def field (e : Entry most σ) : Reader.Field σ := .of e.name e.get e.set e.read

def fill (e : Entry most σ) (s : σ) : σ := e.set s e.value

/-- Give all the fields their values, one after the other. -/
def fillAll (es : List (Entry most σ)) (s : σ) : σ := es.foldl (fun s e => e.fill s) s

/-- Two fields have different names and are kept in different places. -/
structure Apart (e e' : Entry most σ) : Prop where
  name_ne : e.name ≠ e'.name
  get_fill_right : ∀ s, e.get (e'.fill s) = e.get s
  get_fill_left : ∀ s, e'.get (e.fill s) = e'.get s
  fill_comm : ∀ s, e.fill (e'.fill s) = e'.fill (e.fill s)

theorem Apart.symm {e e' : Entry most σ} (h : Apart e e') : Apart e' e :=
  ⟨h.name_ne.symm, h.get_fill_left, h.get_fill_right, fun s => (h.fill_comm s).symm⟩

instance : Std.Symm (@Apart most σ) := ⟨fun _ _ h => h.symm⟩

section

variable {es es' : List (Entry most σ)} {e : Entry most σ}

theorem find?_field (hapart : es.Pairwise Apart) (he : e ∈ es) :
    (es.map field).find? (·.name = e.name) = some e.field := by
  induction es with
  | nil => cases he
  | cons e' es ih =>
    obtain ⟨hhead, htail⟩ := List.pairwise_cons.1 hapart
    rw [List.map_cons]
    rcases List.mem_cons.1 he with rfl | he
    · exact List.find?_cons_of_pos (decide_eq_true rfl)
    · have hne : e'.field.name ≠ e.name := (hhead e he).name_ne
      rw [List.find?_cons_of_neg (by simpa using hne), ih htail he]

/-- The order in which fields are given their values does not matter. -/
theorem fillAll_perm (h : es.Perm es') (hapart : es.Pairwise Apart) (s : σ) :
    fillAll es s = fillAll es' s := by
  refine h.foldl_eq' (fun e he e' he' s => ?_) s
  rcases eq_or_ne e e' with rfl | hne
  · rfl
  · exact ((hapart.forall he he' hne).fill_comm s).symm

end

/-! ### Objects -/

section Object

variable {all es : List (Entry most σ)} {written : List (String × Writer)} {s : σ}

/-- The field is written under its name, and its value in some presentation. -/
def WrittenAs (e : Entry most σ) (f : String × Writer) : Prop :=
  f.1 = e.name ∧ Presents e.document f.2

/-- Declared names and presented values make fields in declared order. -/
theorem writtenAs_zip {ws : List Writer}
    (h : List.Forall₂ (fun e w => Presents (document e) w) es ws) :
    List.Forall₂ WrittenAs es ((es.map name).zip ws) := by
  induction h with
  | nil => exact .nil
  | cons hw _ ih => exact .cons ⟨rfl, hw⟩ ih

theorem writes_fields (h : List.Forall₂ WrittenAs es written) :
    List.Forall₂ (fun f height => Bracketless (Token.text f.1).spell ∧ Writes f.2 height) written
      (es.map height) := by
  refine List.forall₂_map_right_iff.2 (h.flip.imp fun f e hf => ?_)
  exact ⟨hf.1 ▸ e.bracketless, (e.conveys _ hf.2).writes⟩

/-- Fields in any order are read one after the other. -/
theorem reads_fields (hapart : all.Pairwise Apart) (hall : ∀ e ∈ es, e ∈ all)
    (hes : es.Pairwise Apart) (hblank : ∀ e ∈ es, e.get s = none)
    (h : List.Forall₂ WrittenAs es written) :
    ∃ cps, OnlyNests (tallest (es.map height)) cps ∧
      Reads.Fields most (all.map field) s written cps (· = fillAll es s) := by
  -- Names are looked up among all fields, while the ones still to come get fewer.
  induction h generalizing s with
  | nil => exact ⟨_, .nil, .nil rfl⟩
  | @cons e f es written hf _ ih =>
    obtain ⟨name, w⟩ := f
    obtain ⟨rfl, hw⟩ := hf
    obtain ⟨he, hes'⟩ := List.pairwise_cons.1 hes
    obtain ⟨hmem, hall'⟩ := List.forall_mem_cons.1 hall
    obtain ⟨hnone, hblank'⟩ := List.forall_mem_cons.1 hblank
    have hstill : ∀ e' ∈ es, e'.get (e.fill s) = none := fun e' he' =>
      ((he e' he').get_fill_left s).trans (hblank' e' he')
    obtain ⟨cps, hnests, hread⟩ := (e.conveys w hw).reads
    obtain ⟨cps', hnests', hfields⟩ := ih hall' hes' hstill
    refine ⟨_, hnests.append hnests', ?_⟩
    refine .cons (find?_field hapart hmem) hnone (e.conveys w hw).writes hread fun a ha => ?_
    rw [ha]
    exact hfields

end Object

/-! ### Arrays -/

section Array

variable {es : List (Entry most σ)} {ws : List Writer} {s : σ}

theorem writes_elements
    (h : List.Forall₂ (fun e w => Presents (document e) w) es ws) :
    List.Forall₂ Writes ws (es.map height) :=
  List.forall₂_map_right_iff.2 (h.flip.imp fun w e hw => (e.conveys w hw).writes)

theorem reads_elements (h : List.Forall₂ (fun e w => Presents (document e) w) es ws) :
    ∃ cps, OnlyNests (tallest (es.map height)) cps ∧
      Reads.Elements most (es.map field) s ws cps (· = fillAll es s) := by
  induction h generalizing s with
  | nil => exact ⟨_, .nil, .nil rfl⟩
  | @cons e w es ws hw _ ih =>
    obtain ⟨cps, hnests, hread⟩ := (e.conveys w hw).reads
    obtain ⟨cps', hnests', helements⟩ := ih (s := e.fill s)
    have hfill : Reads most (e.field.read s) w cps (· = e.fill s) :=
      hread.map fun a ha => congrArg (e.set s) ha
    refine ⟨_, hnests.append hnests', .cons (e.conveys w hw).writes hfill fun s' hs' => ?_⟩
    rw [hs']
    exact helements

end Array

end Entry

/-- **A record conveys its fields**, in whatever order they are written and with or without their
names. -/
theorem Conveys.record {most : Nat} {σ : Type} {es : List (Entry most σ)} {blank : σ}
    (hapart : es.Pairwise Entry.Apart) (hblank : ∀ e ∈ es, e.get blank = none) (hne : es ≠ []) :
    Conveys most (Reader.record (es.map Entry.field) blank)
      (.record (es.map fun e => (e.name, e.document))) (1 + tallest (es.map Entry.height))
      (Entry.fillAll es blank) := by
  intro w hw
  have hnames : (es.map fun e => (e.name, e.document)).map Prod.fst = es.map Entry.name := by
    rw [List.map_map]
    rfl
  have hvalues : (es.map fun e => (e.name, e.document)).map Prod.snd = es.map Entry.document := by
    rw [List.map_map]
    rfl
  cases hw with
  | @object _ ws written hws hperm =>
    rw [hvalues, List.forall₂_map_left_iff] at hws
    rw [hnames] at hperm
    -- The entries in the order in which they are written.
    have hcomp : Relation.Comp (List.Forall₂ Entry.WrittenAs) List.Perm es written :=
      ⟨_, Entry.writtenAs_zip hws, hperm⟩
    rw [List.forall₂_comp_perm_eq_perm_comp_forall₂] at hcomp
    obtain ⟨es', hes, hwritten⟩ := hcomp
    have hapart' : es'.Pairwise Entry.Apart := (hes.pairwise_iff fun h => h.symm).1 hapart
    obtain ⟨cps, hnests, hfields⟩ := Entry.reads_fields hapart (fun e he => hes.mem_iff.2 he)
      hapart' (fun e he => hblank e (hes.mem_iff.2 he)) hwritten
    rw [tallest_perm (hes.map Entry.height), Entry.fillAll_perm hes hapart]
    refine ⟨.record (Entry.writes_fields hwritten), _, hnests.bracket, ?_⟩
    cases hwritten with
    | nil => exact absurd hes.eq_nil hne
    | cons _ _ => exact (Reads.record hfields).mono (Nat.le_succ most)
  -- Without names the entries stand in their own order.
  | array hws =>
    rw [hvalues, List.forall₂_map_left_iff] at hws
    obtain ⟨cps, hnests, helements⟩ := Entry.reads_elements hws
    refine ⟨.list (Entry.writes_elements hws), _, hnests.bracket, ?_⟩
    cases hws with
    | nil => exact absurd rfl hne
    | cons _ _ => exact (Reads.elements helements).mono (Nat.le_succ most)

/-! ## Whole texts -/

/-- A text that spells a document in any way is read as the value that the document conveys, up to a
nesting of 127, and refused beyond. -/
theorem Conveys.parse {α : Type} {read : Reader α} {d : Document} {height : Nat} {a : α}
    (h : Conveys maxNesting read d height a) {text : String} (hspells : Spells text d) :
    nesting text = height ∧ (nesting text ≤ 127 ↔ read.parse text.toList = .ok a) ∧
      (128 ≤ nesting text ↔ ∃ e, read.parse text.toList = .error e) := by
  obtain ⟨w, hw, hspaced⟩ := hspells
  exact ⟨(h w hw).writes.nesting_of_spaced hspaced, (h w hw).parse hspaced⟩

end KeyPolicy.Json
