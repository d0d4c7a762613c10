import Mathlib.Data.List.Nodup
import KeyPolicy.Proofs.Reading

/-!
# Values of any form, and what a record takes from them

A reader of records meets values that nobody told it about: the fields whose names it does not know
may hold anything. `Value` is a JSON value in general, and a text spells it (`Value.SpelledBy`) with
any spelling of its tokens and any blanks between them.

Passing over a value (`skipValue_write`) takes exactly the tokens of that value, whatever follows
and however deeply the value is nested. The proof is under any stack of open brackets: a value in
the middle of others is passed over as it is alone, and leaves the stack as it was.

A record whose fields are all read in the same way is then a matter of its members alone. Each
member is given to the field of its name, if there is one (`give`).

**Theorem (`takes_object`).** An object is read as what comes of giving its members one after the
other. **Theorem (`foldlM_give_eq_some_iff`).** This gives a record exactly when all names are
texts and the values of each known name are at most one, and taken; the record holds these values.
Members with other names have no part in it.
-/

namespace KeyPolicy.Json

/-! ## Values and their texts -/

/-- A JSON value. A number that is not written with digits alone is not told apart from others, and
a string is known by the text that it denotes, if it denotes one. -/
inductive Value where
  | null
  | boolean (value : Bool)
  | natural (value : Nat)
  | otherNumber
  | string (text? : Option String)
  | array (elements : List Value)
  | object (members : List (Option String × Value))

/-- The token of a string that denotes the given text, or none. -/
def Token.string : Option String → Token
  | some s => .text s
  | none => .unpaired

/-- The token that opens a bracket. -/
def Frame.opening : Frame → Token
  | array => .openBracket
  | object => .openBrace

def Frame.closing : Frame → Token
  | array => .closeBracket
  | object => .closeBrace

/-- Write the parts of an array or of an object in their brackets. -/
def Frame.write (f : Frame) : List Writer → Writer := .enclosed f.opening f.closing

namespace Value

/-- The token of a value that has no parts. -/
def token? : Value → Option Token
  | null => some .null
  | boolean b => some (.boolean b)
  | natural n => some (.natural n)
  | otherNumber => some .otherNumber
  | string text? => some (.string text?)
  | array _ | object _ => none

/-- Prove a property of all values from their parts up. -/
theorem induction {P : Value → Prop} (scalar : ∀ v t, v.token? = some t → P v)
    (array : ∀ vs, (∀ v ∈ vs, P v) → P (.array vs))
    (object : ∀ ms, (∀ m ∈ ms, P m.2) → P (.object ms)) (v : Value) : P v :=
  @Value.rec P (fun vs => ∀ v ∈ vs, P v) (fun ms => ∀ m ∈ ms, P m.2) (fun m => P m.2)
    (scalar _ _ rfl) (fun _ => scalar _ _ rfl) (fun _ => scalar _ _ rfl) (scalar _ _ rfl)
    (fun _ => scalar _ _ rfl) array object
    (fun _ h => absurd h List.not_mem_nil)
    (fun _ _ hv hvs v h => (List.mem_cons.1 h).elim (fun e => e ▸ hv) (hvs v))
    (fun _ h => absurd h List.not_mem_nil)
    (fun _ _ hm hms m h => (List.mem_cons.1 h).elim (fun e => e ▸ hm) (hms m))
    (fun _ _ hv => hv) v

mutual

/-- The tokens of a value, in front of those that follow. -/
def write : Value → Writer
  | null => fun rest => .null :: rest
  | boolean b => fun rest => .boolean b :: rest
  | natural n => fun rest => .natural n :: rest
  | otherNumber => fun rest => .otherNumber :: rest
  | string text? => fun rest => .string text? :: rest
  | array vs => Frame.array.write (writeAll vs)
  | object ms => Frame.object.write (writeMembers ms)

def writeAll : List Value → List Writer
  | [] => []
  | v :: vs => v.write :: writeAll vs

def writeMembers : List (Option String × Value) → List Writer
  | [] => []
  | (name, v) :: ms => (fun rest => .string name :: .colon :: v.write rest) :: writeMembers ms

end

/-- The tokens of a member of an object. -/
def writeMember (m : Option String × Value) : Writer := fun rest =>
  .string m.1 :: .colon :: m.2.write rest

theorem writeAll_eq_map (vs : List Value) : writeAll vs = vs.map write := by
  induction vs with
  | nil => rfl
  | cons v vs ih => rw [writeAll, ih, List.map_cons]

theorem writeMembers_eq_map (ms : List (Option String × Value)) :
    writeMembers ms = ms.map writeMember := by
  induction ms with
  | nil => rfl
  | cons m ms ih => rw [writeMembers, ih, List.map_cons]; rfl

theorem write_of_token? {v : Value} {t : Token} (h : v.token? = some t) (rest : List Token) :
    v.write rest = t :: rest := by
  cases v <;> cases h <;> rfl

theorem write_array (vs : List Value) : (array vs).write = Frame.array.write (vs.map write) := by
  rw [write, writeAll_eq_map]

theorem write_object (ms : List (Option String × Value)) :
    (object ms).write = Frame.object.write (ms.map writeMember) := by
  rw [write, writeMembers_eq_map]

/-- The text spells the value, with any spelling of each token and any blanks between the
tokens. -/
def SpelledBy (v : Value) (text : String) : Prop := Written (v.write []) text.toList

end Value

theorem Frame.isOpening (f : Frame) : IsOpening f.opening := by
  cases f
  · exact .inr rfl
  · exact .inl rfl

theorem Frame.isClosing (f : Frame) : IsClosing f.closing := by
  cases f
  · exact .inr rfl
  · exact .inl rfl

theorem Frame.writesValue (f : Frame) {ws : List Writer} (h : ∀ w ∈ ws, WritesValue w) :
    WritesValue (f.write ws) := .enclosed f.isOpening f.isClosing h

theorem Token.isName_string (text? : Option String) : (Token.string text?).isName = true := by
  cases text? <;> rfl

namespace Value

theorem writesValue_member {m : Option String × Value} (h : WritesValue m.2.write) :
    WritesValue (writeMember m) := h.field (Token.isName_string m.1)

theorem writesValue (v : Value) : WritesValue v.write := by
  induction v using Value.induction with
  | scalar v t ht =>
    have hwrite : v.write = fun rest => t :: rest := funext (write_of_token? ht)
    rw [hwrite]
    cases v with
    | string text? => cases ht; cases text? <;> exact .token Token.noConfusion Token.noConfusion
    | array | object => cases ht
    | _ => cases ht; exact .token Token.noConfusion Token.noConfusion
  | array vs ih =>
    rw [write_array]
    exact Frame.writesValue _ (List.forall_mem_map.2 ih)
  | object ms ih =>
    rw [write_object]
    exact Frame.writesValue _ (List.forall_mem_map.2 fun m hm => writesValue_member (ih m hm))

theorem legible_write (v : Value) : Legible (v.write []) := v.writesValue.legible nofun trivial

/-- A text that spells a value is cut into the tokens of that value. -/
theorem SpelledBy.tokenize_eq {v : Value} {text : String} (h : v.SpelledBy text) :
    tokenize text.toList = v.write [] := tokenize_of_written h v.legible_write

theorem SpelledBy.of_spaced {v : Value} {text : String} (h : Spaced (v.write []) text.toList) :
    v.SpelledBy text := h.written v.legible_write

end Value

/-! ## Passing over a value -/

/-- Whether a part of an array or of an object may come next. -/
def Frame.Expects : Frame → Expected → Prop
  | array, e => e = .value ∨ e = .valueOrEnd
  | object, e => e = .name ∨ e = .nameOrEnd

/-- Go on behind a value with the brackets that are still open. -/
def resume (frames : List Frame) (rest : List Token) : Option (List Token) :=
  if frames = [] then some rest else skipFrames rest frames .commaOrEnd

/-- What is written is passed over as one part of an array or of an object, under any open
brackets. -/
def Skips (f : Frame) (w : Writer) : Prop :=
  ∀ e, f.Expects e → ∀ frames rest, skipFrames (w rest) frames e = resume frames rest

section Skips

variable {f : Frame} {w : Writer} {ws : List Writer}

/-- Behind a part, the other parts are passed over up to the end of the bracket. -/
theorem skipFrames_more (h : ∀ w ∈ ws, Skips f w) (frames : List Frame) (rest : List Token) :
    skipFrames (Writer.more f.closing ws rest) (f :: frames) .commaOrEnd = resume frames rest := by
  induction ws with
  | nil => cases f <;> rfl
  | cons w ws ih =>
    obtain ⟨hw, hws⟩ := List.forall_mem_cons.1 h
    have hpart := fun e he => hw e he (f :: frames) (Writer.more f.closing ws rest)
    rw [resume, if_neg (List.cons_ne_nil _ _), ih hws] at hpart
    cases f with
    | array => exact hpart .value (.inl rfl)
    | object => exact hpart .name (.inl rfl)

/-- An array or an object is passed over if its parts are. -/
theorem Skips.frame (h : ∀ w ∈ ws, Skips f w) : Skips .array (f.write ws) := by
  intro e he frames rest
  have hopen : ∀ ts, ∃ e', f.Expects e' ∧
      skipFrames (f.opening :: ts) frames e = skipFrames ts (f :: frames) e' ∧
      skipFrames (f.closing :: rest) (f :: frames) e' = resume frames rest := by
    intro ts
    cases f with
    | array => exact ⟨.valueOrEnd, .inr rfl, by rcases he with rfl | rfl <;> rfl, rfl⟩
    | object => exact ⟨.nameOrEnd, .inr rfl, by rcases he with rfl | rfl <;> rfl, rfl⟩
  cases ws with
  | nil =>
    obtain ⟨e', -, hopening, hclosing⟩ := hopen (f.closing :: rest)
    rw [Frame.write, Writer.enclosed, hopening, hclosing]
  | cons w ws =>
    obtain ⟨hw, hws⟩ := List.forall_mem_cons.1 h
    obtain ⟨e', he', hopening, -⟩ := hopen (w (Writer.more f.closing ws rest))
    rw [Frame.write, Writer.enclosed, hopening, hw e' he', resume, if_neg (List.cons_ne_nil _ _),
      skipFrames_more hws]

/-- A member is passed over if its value is. -/
theorem Skips.member {m : Option String × Value} (h : Skips .array m.2.write) :
    Skips .object (Value.writeMember m) := by
  intro e he frames rest
  obtain ⟨name, v⟩ := m
  have hvalue := h .value (.inl rfl) frames rest
  rcases he with rfl | rfl <;> cases name <;> exact hvalue

end Skips

namespace Value

theorem skips (v : Value) : Skips .array v.write := by
  induction v using Value.induction with
  | scalar v t ht =>
    intro e he frames rest
    rw [write_of_token? ht]
    cases v with
    | string text? => cases ht; rcases he with rfl | rfl <;> cases text? <;> rfl
    | array | object => cases ht
    | _ => cases ht; rcases he with rfl | rfl <;> rfl
  | array vs ih =>
    rw [write_array]
    exact .frame (List.forall_mem_map.2 ih)
  | object ms ih =>
    rw [write_object]
    exact .frame (List.forall_mem_map.2 fun m hm => (ih m hm).member)

/-- **A value is passed over as a whole**, whatever it is and whatever follows. -/
theorem skipValue_write (v : Value) (rest : List Token) : skipValue (v.write rest) = some rest :=
  v.skips .value (.inl rfl) [] rest

end Value

/-! ## Readers of values -/

section Takes

variable {α β : Type} {read : Reader α} {room : Nat} {v : Value} {a? : Option α}

/-- The reader takes the value as `a?` and leaves what follows, or fails if that is nothing. -/
def Takes (read : Reader α) (room : Nat) (v : Value) (a? : Option α) : Prop :=
  ∀ rest, read room (v.write rest) = (Reader.need a?).map (·, rest)

theorem Takes.map (f : α → β) (h : Takes read room v a?) :
    Takes (read.map f) room v (a?.map f) := by
  intro rest
  rw [Reader.map, h rest]
  cases a? <;> rfl

theorem Takes.parse (h : Takes read maxNesting v a?) {text : String} (hspelled : v.SpelledBy text) :
    read.parse text.toList = Reader.need a? := by
  rw [Reader.parse, hspelled.tokenize_eq, h []]
  cases a? <;> rfl

/-- The number that a value is, if it is one below the bound and written with digits alone. -/
def Value.natural? (bound : Nat) : Value → Option Nat
  | natural n => if n < bound then some n else none
  | _ => none

theorem takes_natural (bound room : Nat) (v : Value) :
    Takes (Reader.natural bound) room v (v.natural? bound) := by
  intro rest
  cases v with
  | natural n =>
    show (if n < bound then _ else _) = _
    by_cases h : n < bound
    · rw [if_pos h, Value.natural?, if_pos h]; rfl
    · rw [if_neg h, Value.natural?, if_neg h]; rfl
  | string text? => cases text? <;> rfl
  | array vs => rw [Value.write_array]; cases vs <;> rfl
  | object ms => rw [Value.write_object]; cases ms <;> rfl
  | _ => rfl

end Takes

/-! ## Records of optional fields -/

/-- A field that is kept as an optional value. -/
structure Slot (σ α : Type) where
  name : String
  get : σ → Option α
  set : σ → α → σ

namespace Slot

variable {σ α : Type}

def field (f : Slot σ α) (read : Reader α) : Reader.Field σ := .of f.name f.get f.set read

/-- The fields have different names and are kept in different places, and a record consists of
them. -/
structure Layout (slots : List (Slot σ α)) : Prop where
  nodup : (slots.map Slot.name).Nodup
  get_set : ∀ f ∈ slots, ∀ s a, f.get (f.set s a) = some a
  get_set_of_ne : ∀ f ∈ slots, ∀ g ∈ slots, g.name ≠ f.name → ∀ s a, g.get (f.set s a) = g.get s
  ext : ∀ s t, (∀ f ∈ slots, f.get s = f.get t) → s = t

end Slot

section Record

variable {σ α : Type} {slots : List (Slot σ α)} {read : Reader α} {take : Value → Option α}

/-- Give a member to the field of its name. That fails if its name is no text, if the field already
has a value, or if the value is not taken. -/
def give (slots : List (Slot σ α)) (take : Value → Option α) (s : σ) :
    Option String × Value → Option σ
  | (none, _) => none
  | (some name, v) =>
    match slots.find? (·.name = name) with
    | some f => if (f.get s).isSome then none else (take v).map (f.set s)
    | none => some s

/-- Give values to the fields in their declared order. That fails if there are more values than
fields. -/
def giveInOrder (take : Value → Option α) : List (Slot σ α) → σ → List Value → Option σ
  | _, s, [] => some s
  | [], _, _ :: _ => none
  | f :: slots, s, v :: vs => (take v).bind fun a => giveInOrder take slots (f.set s a) vs

/-! ### Objects -/

theorem fieldValue_write (htake : ∀ room v, Takes read room v (take v)) (s : σ) (name : String)
    (v : Value) (room : Nat) (rest : List Token) :
    Reader.fieldValue (slots.map (·.field read)) s name room (v.write rest) =
      (Reader.need (give slots take s (some name, v))).map (·, rest) := by
  have hfind : (slots.map (·.field read)).find? (·.name = name) =
      (slots.find? (·.name = name)).map (·.field read) := List.find?_map ..
  rw [Reader.fieldValue, give, hfind]
  cases slots.find? (·.name = name) with
  | none => rw [Option.map_none, Value.skipValue_write]; rfl
  | some f =>
    show (if (f.get s).isSome = true then _ else (read.map (f.set s)) room (v.write rest)) = _
    by_cases hgiven : (f.get s).isSome = true
    · rw [if_pos hgiven]
      simp only [hgiven, if_true]
      rfl
    · rw [if_neg hgiven, (htake room v).map (f.set s) rest]
      simp only [hgiven]
      rfl

/-- Behind a member, the other members are given one after the other. -/
theorem afterField_more (slots : List (Slot σ α)) (htake : ∀ room v, Takes read room v (take v))
    (ms : List (Option String × Value)) (s : σ) (room : Nat) (rest : List Token) {fuel : Nat}
    (hfuel : (Writer.more .closeBrace (ms.map Value.writeMember) rest).length ≤ fuel + 1) :
    Reads.afterField (slots.map (·.field read)) room fuel s
        (Writer.more .closeBrace (ms.map Value.writeMember) rest) =
      (Reader.need (ms.foldlM (give slots take) s)).map (·, rest) := by
  induction ms generalizing s fuel with
  | nil => rfl
  | cons m ms ih =>
    obtain ⟨name, v⟩ := m
    have hgrows := v.writesValue.grows (Writer.more .closeBrace (ms.map Value.writeMember) rest)
    have hlength : 3 + (v.write (Writer.more .closeBrace (ms.map Value.writeMember) rest)).length ≤
        fuel + 1 := by
      rw [Nat.add_comm]
      exact hfuel
    obtain ⟨fuel, rfl⟩ := Nat.exists_eq_add_of_le (by omega : 1 ≤ fuel)
    rw [List.foldlM_cons, Nat.add_comm 1 fuel]
    cases name with
    | none => rfl
    | some name =>
      show Reader.objectFields _ room (fuel + 1) s (.text name :: .colon :: v.write _) = _
      rw [Reads.objectFields_succ, fieldValue_write htake]
      cases give slots take s (some name, v) with
      | none => rfl
      | some s' => exact ih s' (by omega)

/-- An object is read as what comes of giving its members one after the other. -/
theorem takes_object (slots : List (Slot σ α)) (htake : ∀ room v, Takes read room v (take v))
    (blank : σ) (room : Nat) (ms : List (Option String × Value)) :
    Takes (Reader.record (slots.map (·.field read)) blank) (room + 1) (.object ms)
      (ms.foldlM (give slots take) blank) := by
  intro rest
  rw [Value.write_object]
  cases ms with
  | nil => rfl
  | cons m ms =>
    -- The members are read as they are behind a comma.
    have hmore := afterField_more slots htake (m :: ms) blank room rest (Nat.le_refl _)
    rw [← hmore]
    obtain ⟨name, v⟩ := m
    cases name <;> rfl

/-! ### Arrays -/

theorem afterElement_more (slots : List (Slot σ α)) (htake : ∀ room v, Takes read room v (take v))
    (s : σ) (vs : List Value) (room : Nat) (rest : List Token) :
    Reads.afterElement room (slots.map (·.field read)) s
        (Writer.more .closeBracket (vs.map Value.write) rest) =
      (Reader.need (giveInOrder take slots s vs)).map (·, rest) := by
  induction vs generalizing slots s with
  | nil => cases slots <;> rfl
  | cons v vs ih =>
    cases slots with
    | nil => rfl
    | cons f slots =>
      have hread : (f.field read).read s room _ = _ := (htake room v).map (f.set s)
        (Writer.more .closeBracket (vs.map Value.write) rest)
      rw [List.map_cons, List.map_cons, Writer.more_cons, Reads.afterElement,
        Reads.arrayFields_cons, hread, giveInOrder]
      cases take v with
      | none => rfl
      | some a => exact ih slots (f.set s a)

/-- An array is read as what comes of giving its elements to the fields in declared order. -/
theorem takes_array (slots : List (Slot σ α)) (htake : ∀ room v, Takes read room v (take v))
    (blank : σ) (room : Nat) (vs : List Value) :
    Takes (Reader.record (slots.map (·.field read)) blank) (room + 1) (.array vs)
      (giveInOrder take slots blank vs) := by
  intro rest
  rw [Value.write_array]
  cases vs with
  | nil => cases slots <;> rfl
  | cons v vs =>
    have hhead := v.writesValue.head?_ne (Writer.more .closeBracket (vs.map Value.write) rest)
    rw [← afterElement_more slots htake blank (v :: vs) room rest, List.map_cons, Writer.more_cons,
      Reads.afterElement]
    show Reader.record _ blank (room + 1)
      (.openBracket :: v.write (Writer.more .closeBracket (vs.map Value.write) rest)) = _
    generalize v.write (Writer.more .closeBracket (vs.map Value.write) rest) = ts at hhead ⊢
    rw [Reader.record]
    rintro ts' rfl
    exact hhead rfl

/-! ### What an object gives -/

/-- The values that an object gives under a name, in order. -/
def valuesOf (name : String) (ms : List (Option String × Value)) : List Value :=
  (ms.filter (·.1 = some name)).map Prod.snd

theorem valuesOf_cons_self (name : String) (v : Value) (ms : List (Option String × Value)) :
    valuesOf name ((some name, v) :: ms) = v :: valuesOf name ms := by
  simp [valuesOf]

theorem valuesOf_cons_of_ne {name : String} {m : Option String × Value} (h : m.1 ≠ some name)
    (ms : List (Option String × Value)) : valuesOf name (m :: ms) = valuesOf name ms := by
  simp [valuesOf, h]

namespace Slot

/-- What a record holds in a field: one value or none. -/
def held (f : Slot σ α) (s : σ) : List (Option α) := (f.get s).toList.map some

theorem held_of_get {f : Slot σ α} {s : σ} {a? : Option α} (h : f.get s = a?) :
    f.held s = a?.toList.map some := by
  rw [held, h]

theorem length_held_le (f : Slot σ α) (s : σ) : (f.held s).length ≤ 1 := by
  rw [held]
  cases f.get s <;> simp

theorem none_notMem_held (f : Slot σ α) (s : σ) : none ∉ f.held s := by
  simp [held]

/-- No record holds two values in a field, or one that was not taken. -/
theorem held_ne (f : Slot σ α) (s : σ) {held : List (Option α)}
    (h : 1 < held.length ∨ none ∈ held) : f.held s ≠ held := by
  rintro rfl
  rcases h with hlength | hnone
  · exact absurd (f.length_held_le s) (Nat.not_le.2 hlength)
  · exact f.none_notMem_held s hnone

theorem get_eq_of_held_eq {f : Slot σ α} {s t : σ} (h : f.held s = f.held t) :
    f.get s = f.get t := by
  rw [held, held] at h
  cases hs : f.get s <;> cases ht : f.get t <;> simp_all

end Slot

theorem give_of_notMem {name : String} (h : ∀ f ∈ slots, f.name ≠ name) (s : σ) (v : Value) :
    give slots take s (some name, v) = some s := by
  have hfind : slots.find? (·.name = name) = none :=
    List.find?_eq_none.2 fun f hf => by simpa using h f hf
  rw [give, hfind]

theorem Slot.Layout.eq_of_name_eq (hlayout : Slot.Layout slots) {f g : Slot σ α} (hf : f ∈ slots)
    (hg : g ∈ slots) (h : f.name = g.name) : f = g :=
  List.inj_on_of_nodup_map hlayout.nodup hf hg h

theorem give_of_mem (hlayout : Slot.Layout slots) {f : Slot σ α} (hf : f ∈ slots) (s : σ)
    (v : Value) : give slots take s (some f.name, v) =
      if (f.get s).isSome then none else (take v).map (f.set s) := by
  cases hfind : slots.find? (·.name = f.name) with
  | none => exact absurd (decide_eq_true rfl) (List.find?_eq_none.1 hfind f hf)
  | some g =>
    have hname : g.name = f.name := by simpa using List.find?_some hfind
    obtain rfl := hlayout.eq_of_name_eq (List.mem_of_find?_eq_some hfind) hf hname
    rw [give, hfind]

/-- Giving a value to a field adds it to what the field holds, and to no other field. -/
theorem held_set (hlayout : Slot.Layout slots) {f g : Slot σ α} (hf : f ∈ slots) (hg : g ∈ slots)
    {s : σ} (hget : f.get s = none) {v : Value} {a : α} (ha : take v = some a)
    (ms : List (Option String × Value)) :
    g.held (f.set s a) ++ (valuesOf g.name ms).map take =
      g.held s ++ (valuesOf g.name ((some f.name, v) :: ms)).map take := by
  by_cases hname : g.name = f.name
  · obtain rfl := hlayout.eq_of_name_eq hg hf hname
    rw [valuesOf_cons_self, List.map_cons, ha, Slot.held_of_get hget,
      Slot.held_of_get (hlayout.get_set g hg s a)]
    rfl
  · have hne : some f.name ≠ some g.name := fun h => hname (Option.some.inj h).symm
    rw [valuesOf_cons_of_ne hne, Slot.held, Slot.held, hlayout.get_set_of_ne f hf g hg hname]

/-- **An object gives a record** exactly when all of its names are texts and each field gets at most
one value, which is taken. -/
theorem foldlM_give_eq_some_iff (hlayout : Slot.Layout slots) {ms : List (Option String × Value)}
    {s t : σ} :
    ms.foldlM (give slots take) s = some t ↔ (∀ m ∈ ms, m.1 ≠ none) ∧
      ∀ f ∈ slots, f.held t = f.held s ++ (valuesOf f.name ms).map take := by
  induction ms generalizing s with
  | nil =>
    have hnames : ∀ m ∈ ([] : List (Option String × Value)), m.1 ≠ none := nofun
    rw [List.foldlM_nil, and_iff_right hnames]
    simp only [valuesOf, List.filter_nil, List.map_nil, List.append_nil]
    refine ⟨?_, fun hheld => ?_⟩
    · rintro ⟨⟩ f _
      rfl
    · exact congrArg some (hlayout.ext s t fun f hf => Slot.get_eq_of_held_eq (hheld f hf).symm)
  | cons m ms ih =>
    obtain ⟨name, v⟩ := m
    rw [List.foldlM_cons]
    cases name with
    | none => simp [give]
    | some name =>
      have hnames : (∀ m ∈ (some name, v) :: ms, m.1 ≠ none) ↔ ∀ m ∈ ms, m.1 ≠ none := by simp
      rw [hnames]
      -- Unknown names are skipped; under a known one the field must still be free.
      by_cases hknown : ∃ f ∈ slots, f.name = name
      · obtain ⟨f, hf, rfl⟩ := hknown
        rw [give_of_mem hlayout hf]
        cases hget : f.get s with
        | some a =>
          -- The field would hold this value beside the one that it has.
          refine iff_of_false nofun fun h => f.held_ne t (.inl ?_) (h.2 f hf)
          rw [valuesOf_cons_self, Slot.held_of_get hget]
          simp
        | none =>
          cases ha : take v with
          | none =>
            -- The field would hold a value that is not taken.
            refine iff_of_false nofun fun h => f.held_ne t (.inr ?_) (h.2 f hf)
            rw [valuesOf_cons_self, List.map_cons, ha]
            simp
          | some a =>
            refine ih.trans (and_congr_right fun _ => forall₂_congr fun g hg => ?_)
            rw [held_set hlayout hf hg hget ha]
      · have hunknown : ∀ f ∈ slots, f.name ≠ name := fun f hf h => hknown ⟨f, hf, h⟩
        rw [give_of_notMem hunknown]
        refine ih.trans (and_congr_right fun _ => forall₂_congr fun f hf => ?_)
        have hne : some name ≠ some f.name := fun h => hunknown f hf (Option.some.inj h).symm
        rw [valuesOf_cons_of_ne hne]

/-- Nothing comes of an object that gives a field two values, or one that is not taken. -/
theorem foldlM_give_eq_none (hlayout : Slot.Layout slots) {f : Slot σ α} (hf : f ∈ slots) {s : σ}
    (hget : f.get s = none) {ms : List (Option String × Value)}
    (h : 1 < (valuesOf f.name ms).length ∨ ∃ v ∈ valuesOf f.name ms, take v = none) :
    ms.foldlM (give slots take) s = none := by
  rw [Option.eq_none_iff_forall_ne_some]
  intro t ht
  have hheld := ((foldlM_give_eq_some_iff hlayout).1 ht).2 f hf
  rw [Slot.held_of_get hget, Option.toList_none, List.map_nil, List.nil_append] at hheld
  refine f.held_ne t (h.imp (fun hlength => ?_) fun hnone => ?_) hheld
  · rwa [List.length_map]
  · exact List.mem_map.2 hnone

/-- Nothing comes of an object with a name that is no text, whatever else it holds. -/
theorem foldlM_give_eq_none_of_unpaired (hlayout : Slot.Layout slots) (s : σ)
    {ms : List (Option String × Value)} (h : ∃ m ∈ ms, m.1 = none) :
    ms.foldlM (give slots take) s = none := by
  rw [Option.eq_none_iff_forall_ne_some]
  intro t ht
  obtain ⟨m, hm, hnone⟩ := h
  exact ((foldlM_give_eq_some_iff hlayout).1 ht).1 m hm hnone

theorem giveInOrder_eq_none {vs : List Value} (h : slots.length < vs.length) (s : σ) :
    giveInOrder take slots s vs = none := by
  induction vs generalizing slots s with
  | nil => exact absurd h (Nat.not_lt_zero _)
  | cons v vs ih =>
    cases slots with
    | nil => rfl
    | cons f slots =>
      rw [giveInOrder]
      cases take v with
      | none => rfl
      | some a => exact ih (Nat.lt_of_succ_lt_succ h) (f.set s a)

end Record

end KeyPolicy.Json
