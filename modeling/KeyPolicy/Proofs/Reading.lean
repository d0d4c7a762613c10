import KeyPolicy.Proofs.Nesting
import KeyPolicy.Json.Reader

/-!
# Reading what a writer wrote

A reader goes through a text from front to back and stops at the first thing that is wrong with it.
For a text in the written form the places at which something may be wrong are known beforehand: a
bracket may open too deep, a number may be out of range, and a key may not fit its algorithm. These
are its checkpoints, in the order of the text.

`Reads most read w cps Q` says that the reader stops at the first violated checkpoint and gives that
reason, and that without one it takes exactly what the writer wrote and yields a value with the
property `Q`. There is one rule for each way of making a reader: arrays, records in both of
their forms, variants, and checks at the end of a value.

**Theorem (`Reads.parse_of_spaced`).** A whole text is refused exactly with its first violation,
whatever blanks are in it.

The limit on brackets is `level + room` throughout: `level` brackets are open around the value, and
`room` more may be opened inside it. Opening one moves it from the one to the other.
-/

namespace KeyPolicy.Json

/-! ## Checkpoints -/

/-- A place in a text at which a reader may find something wrong. -/
inductive Checkpoint where
  /-- An opening bracket, with the number of brackets that are open behind it. -/
  | bracket (opened : Nat)
  /-- A number, with the bound below which it has to be. -/
  | number (value bound : Nat)
  /-- The closing bracket of a public key. -/
  | key (algorithm : Algorithm) (bytes : List Nat)

/-- What is wrong at a place, where so many brackets may be open, if anything is. -/
def Checkpoint.violation? (limit : Nat) : Checkpoint → Option ReadError
  | bracket n => if limit < n then some .malformed else none
  | number n bound => if n < bound then none else some .malformed
  | key a bs =>
    match PublicKey.ofBytes a (bs.map UInt8.ofNat) with
    | .ok _ => none
    | .error e => some (.key e)

/-- What is wrong at the first place where something is. -/
def firstViolation? (limit : Nat) (cps : List Checkpoint) : Option ReadError :=
  cps.findSome? (Checkpoint.violation? limit)

@[simp] theorem firstViolation?_nil (limit : Nat) : firstViolation? limit [] = none := rfl

@[simp] theorem firstViolation?_append (limit : Nat) (cps cps' : List Checkpoint) :
    firstViolation? limit (cps ++ cps') =
      (firstViolation? limit cps).or (firstViolation? limit cps') :=
  List.findSome?_append

theorem firstViolation?_bracket_of_lt {limit n : Nat} (h : limit < n) (cps : List Checkpoint) :
    firstViolation? limit (.bracket n :: cps) = some .malformed := by
  simp [firstViolation?, Checkpoint.violation?, h]

theorem firstViolation?_bracket_of_le {limit n : Nat} (h : n ≤ limit) (cps : List Checkpoint) :
    firstViolation? limit (.bracket n :: cps) = firstViolation? limit cps := by
  simp [firstViolation?, Checkpoint.violation?, Nat.not_lt.2 h]

/-- Nothing is wrong at these places, where `limit` brackets may be open. -/
def Clean (limit : Nat) (cps : List Checkpoint) : Prop := ∀ cp ∈ cps, cp.violation? limit = none

section Clean

variable {limit : Nat}

theorem clean_nil : Clean limit [] ↔ True := by simp [Clean]

theorem clean_cons {cp : Checkpoint} {cps : List Checkpoint} :
    Clean limit (cp :: cps) ↔ cp.violation? limit = none ∧ Clean limit cps :=
  List.forall_mem_cons

theorem clean_append {cps cps' : List Checkpoint} :
    Clean limit (cps ++ cps') ↔ Clean limit cps ∧ Clean limit cps' :=
  List.forall_mem_append

theorem firstViolation?_eq_none_iff {cps : List Checkpoint} :
    firstViolation? limit cps = none ↔ Clean limit cps :=
  List.findSome?_eq_none_iff

theorem violation?_bracket_iff {n : Nat} :
    (Checkpoint.bracket n).violation? limit = none ↔ n ≤ limit := by
  simp [Checkpoint.violation?]

theorem violation?_number_iff {n bound : Nat} :
    (Checkpoint.number n bound).violation? limit = none ↔ n < bound := by
  simp [Checkpoint.violation?]

theorem violation?_key_iff {a : Algorithm} {ns : List Nat} :
    (Checkpoint.key a ns).violation? limit = none ↔ Admissible a (ns.map UInt8.ofNat) := by
  rw [Checkpoint.violation?]
  cases h : PublicKey.ofBytes a (ns.map UInt8.ofNat) with
  | ok k =>
    obtain ⟨rfl, hbytes⟩ := PublicKey.ofBytes_eq_ok_iff.1 h
    simp [← hbytes, k.admissible]
  | error e => simp [(PublicKey.ofBytes_eq_error_iff.1 h).1]

end Clean

/-! ## Results of reading -/

variable {α β γ σ : Type}

/-- The result of reading a value with these checkpoints: the first violation, or else a value with
the property and what stands behind it. -/
def Meets (limit : Nat) (cps : List Checkpoint) (Q : α → Prop) (rest : List Token) :
    ReadResult α → Prop
  | .error e => firstViolation? limit cps = some e
  | .ok (a, behind) => firstViolation? limit cps = none ∧ Q a ∧ behind = rest

theorem Meets.stop {limit : Nat} {cps cps' : List Checkpoint} {Q : α → Prop} {Q' : β → Prop}
    {rest rest' : List Token} {e : ReadError} (h : Meets limit cps Q rest (.error e)) :
    Meets limit (cps ++ cps') Q' rest' (.error e) := by
  have hfirst : firstViolation? limit cps = some e := h
  show firstViolation? limit (cps ++ cps') = some e
  rw [firstViolation?_append, hfirst, Option.some_or]

theorem Meets.goOn {limit : Nat} {cps cps' : List Checkpoint} {Q : α → Prop} {rest : List Token}
    {x : ReadResult α} (hnone : firstViolation? limit cps = none) (h : Meets limit cps' Q rest x) :
    Meets limit (cps ++ cps') Q rest x := by
  rcases x with e | ⟨a, behind⟩ <;>
    simpa only [Meets, firstViolation?_append, hnone, Option.none_or] using h

/-- The reader takes what the writer writes, as long as it has at most so much room. -/
def Reads (most : Nat) (read : Reader α) (w : Writer) (cps : Nat → List Checkpoint)
    (Q : α → Prop) : Prop :=
  ∀ level room rest, room ≤ most → Meets (level + room) (cps level) Q rest (read room (w rest))

namespace Reads

variable {most : Nat} {read : Reader α} {w : Writer} {cps cps' : Nat → List Checkpoint}
  {Q : α → Prop} {Q' : β → Prop}

theorem mono {most' : Nat} (h : Reads most read w cps Q) (hle : most' ≤ most) :
    Reads most' read w cps Q :=
  fun level room rest hroom => h level room rest (Nat.le_trans hroom hle)

theorem imp {Q' : α → Prop} (h : Reads most read w cps Q) (hQ : ∀ a, Q a → Q' a) :
    Reads most read w cps Q' := by
  intro level room rest hroom
  have hread := h level room rest hroom
  cases hres : read room (w rest) with
  | error e => rwa [hres] at hread
  | ok x =>
    rw [hres] at hread
    exact ⟨hread.1, hQ _ hread.2.1, hread.2.2⟩

theorem map {f : α → β} (h : Reads most read w cps Q) (hf : ∀ a, Q a → Q' (f a)) :
    Reads most (read.map f) w cps Q' := by
  intro level room rest hroom
  have hread := h level room rest hroom
  rw [Reader.map]
  cases hres : read room (w rest) with
  | error e => rwa [hres] at hread
  | ok x =>
    rw [hres] at hread
    exact ⟨hread.1, hf _ hread.2.1, hread.2.2⟩

/-- A check at the end of a value has its own checkpoints there. -/
theorem check {f : α → Except ReadError β} (last : List Checkpoint) (h : Reads most read w cps Q)
    (hf : ∀ limit a, Q a → (∃ b, f a = .ok b ∧ Q' b ∧ firstViolation? limit last = none) ∨
      ∃ e, f a = .error e ∧ firstViolation? limit last = some e) :
    Reads most (read.check f) w (fun level => cps level ++ last) Q' := by
  intro level room rest hroom
  have hread := h level room rest hroom
  rw [Reader.check]
  cases hres : read room (w rest) with
  | error e =>
    rw [hres] at hread
    exact hread.stop
  | ok x =>
    rw [hres] at hread
    obtain ⟨hnone, hQ, hrest⟩ := hread
    refine Meets.goOn hnone ?_
    rcases hf (level + room) x.1 hQ with ⟨b, hb, hQ', hlast⟩ | ⟨e, he, hlast⟩
    · simp only [hb]
      exact ⟨hlast, hQ', hrest⟩
    · simp only [he]
      exact hlast

theorem check_of_ok {f : α → Except ReadError β} (h : Reads most read w cps Q)
    (hf : ∀ a, Q a → ∃ b, f a = .ok b ∧ Q' b) : Reads most (read.check f) w cps Q' := by
  have hcheck := h.check [] fun limit a hQ => .inl <| by
    obtain ⟨b, hb, hQ'⟩ := hf a hQ
    exact ⟨b, hb, hQ', rfl⟩
  simpa only [List.append_nil] using hcheck

/-- A value in brackets is read where there is room for one bracket more. -/
theorem of_opening (hzero : ∀ rest, read 0 (w rest) = .error .malformed)
    (hsucc : ∀ level room rest, room ≤ most →
      Meets (level + 1 + room) (cps level) Q rest (read (room + 1) (w rest))) :
    Reads (most + 1) read w (fun level => .bracket (level + 1) :: cps level) Q := by
  intro level room rest hroom
  cases room with
  | zero =>
    rw [hzero]
    exact firstViolation?_bracket_of_lt (Nat.lt_succ_self level) _
  | succ room =>
    have hread := hsucc level room rest (Nat.le_of_succ_le_succ hroom)
    -- Inside the bracket there is one level more and one less to go, so the limit stays.
    have hlimit : level + (room + 1) = level + 1 + room := by omega
    have hfirst : firstViolation? (level + 1 + room) (.bracket (level + 1) :: cps level) =
        firstViolation? (level + 1 + room) (cps level) :=
      firstViolation?_bracket_of_le (Nat.le_add_right ..) _
    rw [hlimit]
    cases hres : read (room + 1) (w rest) with
    | error e =>
      rw [hres] at hread
      exact hfirst.trans hread
    | ok x =>
      rw [hres] at hread
      exact ⟨hfirst.trans hread.1, hread.2⟩

theorem natural (most bound n : Nat) :
    Reads most (Reader.natural bound) (.natural n) (fun _ => [.number n bound])
      (fun m => m = n ∧ n < bound) := by
  intro level room rest _
  rw [Writer.natural, Reader.natural]
  by_cases h : n < bound <;> simp [Meets, firstViolation?, Checkpoint.violation?, h]

/-! ## Arrays -/

/-- The elements, written one after the other, are read into a list. -/
inductive Items (most : Nat) (read : Reader α) :
    List Writer → (Nat → List Checkpoint) → (List α → Prop) → Prop
  | nil {Q : List α → Prop} : Q [] → Items most read [] (fun _ => []) Q
  | cons {w height cps ws cps'} {Q : α → Prop} {Q' : List α → Prop} :
      Writes w height → Reads most read w cps Q →
      (∀ a, Q a → Items most read ws cps' fun as => Q' (a :: as)) →
      Items most read (w :: ws) (fun level => cps level ++ cps' level) Q'

theorem Items.imp {ws : List Writer} {Q Q' : List α → Prop} (h : Items most read ws cps Q)
    (hQ : ∀ as, Q as → Q' as) : Items most read ws cps Q' := by
  induction h generalizing Q' with
  | nil hnil => exact .nil (hQ _ hnil)
  | cons hw hread _ ih => exact .cons hw hread fun a ha => ih a ha fun as => hQ (a :: as)

/-- What is left of an array behind one of its elements. -/
def afterItem (read : Reader α) (room fuel : Nat) : List Token → ReadResult (List α)
  | .closeBracket :: rest => .ok ([], rest)
  | .comma :: rest => Reader.items read room fuel rest
  | _ => .error .malformed

theorem items_succ (room fuel : Nat) (ts : List Token) :
    Reader.items read room (fuel + 1) ts =
      match read room ts with
      | .error e => .error e
      | .ok (a, rest) =>
        match afterItem read room fuel rest with
        | .ok (as, rest) => .ok (a :: as, rest)
        | .error e => .error e := by
  rw [Reader.items]
  cases read room ts with
  | error e => rfl
  | ok r =>
    obtain ⟨a, rest⟩ := r
    rcases rest with _ | ⟨t, rest⟩
    · rfl
    · cases t <;> rfl

theorem Items.meets {ws : List Writer} {Q : List α → Prop} (h : Items most read ws cps Q)
    (level : Nat) {room : Nat} (hroom : room ≤ most) (rest : List Token)
    {fuel : Nat} (hfuel : (Writer.moreItems ws rest).length ≤ fuel + 1) :
    Meets (level + room) (cps level) Q rest
      (afterItem read room fuel (Writer.moreItems ws rest)) := by
  induction h generalizing fuel with
  | nil hQ => exact ⟨rfl, hQ, rfl⟩
  | @cons w height cps ws cps' Q Q' hw hread _ ih =>
    rw [Writer.moreItems] at hfuel ⊢
    have hgrows := hw.grows (Writer.moreItems ws rest)
    have hpos : 0 < (Writer.moreItems ws rest).length := by cases ws <;> exact Nat.succ_pos _
    rw [List.length_cons] at hfuel
    -- Each element takes tokens away, so the fuel lasts.
    cases fuel with
    | zero => omega
    | succ fuel =>
      rw [afterItem, items_succ]
      have hres := hread level room (Writer.moreItems ws rest) hroom
      cases hvalue : read room (w (Writer.moreItems ws rest)) with
      | error e =>
        rw [hvalue] at hres
        exact hres.stop
      | ok r =>
        obtain ⟨a, behind⟩ := r
        rw [hvalue] at hres
        obtain ⟨hnone, hQ, rfl⟩ := hres
        refine Meets.goOn hnone ?_
        have hmore := ih a hQ (by omega : _ ≤ fuel + 1)
        simp only
        cases hitems : afterItem read room fuel (Writer.moreItems ws rest) with
        | error e => rwa [hitems] at hmore
        | ok r => rwa [hitems] at hmore

/-- The elements of an array are read one after the other. -/
theorem items {ws : List Writer} {Q : List α → Prop} (h : Items most read ws cps Q) :
    Reads (most + 1) (Reader.list read) (.list ws)
      (fun level => .bracket (level + 1) :: cps (level + 1)) Q := by
  have hzero : ∀ rest, Reader.list read 0 (Writer.list ws rest) = .error .malformed := by
    intro rest
    cases ws <;> rfl
  refine of_opening hzero fun level room rest hroom => ?_
  cases ws with
  | nil =>
    cases h with
    | nil hQ => exact ⟨rfl, hQ, rfl⟩
  | cons w ws =>
    have hmeets := h.meets (level + 1) hroom rest (Nat.le_refl _)
    cases h with
    | cons hw _ _ =>
      -- No element begins with a closing bracket, so the array is not taken for an empty one.
      have hhead := hw.head?_ne (Writer.moreItems ws rest)
      rw [Writer.list]
      rw [Writer.moreItems, afterItem] at hmeets
      generalize w (Writer.moreItems ws rest) = ts at hhead hmeets
      rw [Reader.list]
      · exact hmeets
      · rintro ts' rfl
        exact hhead rfl

/-- Elements that are known by a view of them are read as the list of their views. -/
theorem list {view : α → γ} {ws : γ → Writer} {cpss : γ → Nat → List Checkpoint} {xs : List γ}
    {heights : γ → Nat} (hw : ∀ x ∈ xs, Writes (ws x) (heights x))
    (h : ∀ x ∈ xs, Reads most read (ws x) (cpss x) (view · = x)) :
    Reads (most + 1) (Reader.list read) (.list (xs.map ws))
      (fun level => .bracket (level + 1) :: xs.flatMap (cpss · (level + 1))) (·.map view = xs) := by
  have hitems : Items most read (xs.map ws) (fun level => xs.flatMap (cpss · level))
      (·.map view = xs) := by
    induction xs with
    | nil => exact .nil rfl
    | cons x xs ih =>
      obtain ⟨hwx, hwxs⟩ := List.forall_mem_cons.1 hw
      obtain ⟨hx, hxs⟩ := List.forall_mem_cons.1 h
      refine .cons hwx hx fun a ha => (ih hwxs hxs).imp fun as has => ?_
      rw [List.map_cons, ha, has]
  exact items hitems

/-! ## Records -/

section Record

variable {fields : List (Reader.Field σ)}

/-- The fields, written one after the other, are read into a record that has come to be `s`. -/
inductive Fields (most : Nat) (fields : List (Reader.Field σ)) :
    σ → List (String × Writer) → (Nat → List Checkpoint) → (σ → Prop) → Prop
  | nil {s} {Q : σ → Prop} : Q s → Fields most fields s [] (fun _ => []) Q
  | cons {α s name w height cps ws cps'} {get : σ → Option α} {set : σ → α → σ} {read : Reader α}
      {Q : α → Prop} {Q' : σ → Prop} :
      fields.find? (·.name = name) = some (.of name get set read) → get s = none →
      Writes w height → Reads most read w cps Q →
      (∀ a, Q a → Fields most fields (set s a) ws cps' Q') →
      Fields most fields s ((name, w) :: ws) (fun level => cps level ++ cps' level) Q'

theorem fieldValue_of_find? {name : String} {get : σ → Option α} {set : σ → α → σ} {s : σ}
    (hf : fields.find? (·.name = name) = some (.of name get set read)) (hs : get s = none) :
    Reader.fieldValue fields s name = read.map (set s) := by
  funext room ts
  simp [Reader.fieldValue, hf, Reader.Field.of, hs]

/-- What is left of an object behind one of its values. -/
def afterField (fields : List (Reader.Field σ)) (room fuel : Nat) (s : σ) :
    List Token → ReadResult σ
  | .closeBrace :: rest => .ok (s, rest)
  | .comma :: rest => Reader.objectFields fields room fuel s rest
  | _ => .error .malformed

theorem objectFields_succ (room fuel : Nat) (s : σ) (name : String) (ts : List Token) :
    Reader.objectFields fields room (fuel + 1) s (.text name :: .colon :: ts) =
      match Reader.fieldValue fields s name room ts with
      | .error e => .error e
      | .ok (s, rest) => afterField fields room fuel s rest := by
  rw [Reader.objectFields]
  cases Reader.fieldValue fields s name room ts with
  | error e => rfl
  | ok r =>
    obtain ⟨s, rest⟩ := r
    rcases rest with _ | ⟨t, rest⟩
    · rfl
    · cases t <;> rfl

theorem Fields.meets {s : σ} {ws : List (String × Writer)} {Q : σ → Prop}
    (h : Fields most fields s ws cps Q) (level : Nat) {room : Nat} (hroom : room ≤ most)
    (rest : List Token)
    {fuel : Nat} (hfuel : (Writer.moreFields ws rest).length ≤ fuel + 1) :
    Meets (level + room) (cps level) Q rest
      (afterField fields room fuel s (Writer.moreFields ws rest)) := by
  induction h generalizing fuel with
  | nil hQ => exact ⟨rfl, hQ, rfl⟩
  | @cons α s name w height cps ws cps' get set read Q Q' hf hs hw hread _ ih =>
    rw [Writer.moreFields] at hfuel ⊢
    have hgrows := hw.grows (Writer.moreFields ws rest)
    rw [List.length_cons, List.length_cons, List.length_cons] at hfuel
    cases fuel with
    | zero => omega
    | succ fuel =>
      rw [afterField, objectFields_succ, fieldValue_of_find? hf hs]
      have hres := hread level room (Writer.moreFields ws rest) hroom
      rw [Reader.map]
      cases hvalue : read room (w (Writer.moreFields ws rest)) with
      | error e =>
        rw [hvalue] at hres
        exact hres.stop
      | ok r =>
        obtain ⟨a, behind⟩ := r
        rw [hvalue] at hres
        obtain ⟨hnone, hQ, rfl⟩ := hres
        exact Meets.goOn hnone (ih a hQ (by omega))

/-- The fields of an object are read in the order in which they are written. -/
theorem record {blank : σ} {name : String} {w : Writer} {ws : List (String × Writer)}
    {Q : σ → Prop} (h : Fields most fields blank ((name, w) :: ws) cps Q) :
    Reads (most + 1) (Reader.record fields blank) (.record ((name, w) :: ws))
      (fun level => .bracket (level + 1) :: cps (level + 1)) Q := by
  refine of_opening (fun rest => rfl) fun level room rest hroom => ?_
  have hmeets := h.meets (level + 1) hroom rest (Nat.le_refl _)
  rw [Writer.record, Reader.record]
  · exact hmeets
  · intro ts hts
    cases hts

/-! ### Records as arrays -/

/-- The elements, written one after the other, are read as these fields into a record that has come
to be `s`. -/
inductive Elements (most : Nat) :
    List (Reader.Field σ) → σ → List Writer → (Nat → List Checkpoint) → (σ → Prop) → Prop
  | nil {s} {Q : σ → Prop} : Q s → Elements most [] s [] (fun _ => []) Q
  | cons {f fields s w height cps ws cps'} {Q Q' : σ → Prop} :
      Writes w height → Reads most (f.read s) w cps Q →
      (∀ s', Q s' → Elements most fields s' ws cps' Q') →
      Elements most (f :: fields) s (w :: ws) (fun level => cps level ++ cps' level) Q'

/-- What is left of an array behind an element that was read as a field. -/
def afterElement (room : Nat) (fields : List (Reader.Field σ)) (s : σ) :
    List Token → ReadResult σ
  | .closeBracket :: rest => .ok (s, rest)
  | .comma :: rest => Reader.arrayFields room fields s rest
  | _ => .error .malformed

theorem arrayFields_cons (room : Nat) (f : Reader.Field σ) (s : σ) (ts : List Token) :
    Reader.arrayFields room (f :: fields) s ts =
      match f.read s room ts with
      | .error e => .error e
      | .ok (s, rest) => afterElement room fields s rest := by
  rw [Reader.arrayFields]
  cases f.read s room ts with
  | error e => rfl
  | ok r =>
    obtain ⟨s, rest⟩ := r
    rcases rest with _ | ⟨t, rest⟩
    · rfl
    · cases t <;> rfl

theorem Elements.meets {s : σ} {ws : List Writer} {Q : σ → Prop}
    (h : Elements most fields s ws cps Q) (level : Nat) {room : Nat} (hroom : room ≤ most)
    (rest : List Token) :
    Meets (level + room) (cps level) Q rest
      (afterElement room fields s (Writer.moreItems ws rest)) := by
  induction h with
  | nil hQ => exact ⟨rfl, hQ, rfl⟩
  | @cons f fields s w height cps ws cps' Q Q' _ hread _ ih =>
    rw [Writer.moreItems, afterElement, arrayFields_cons]
    have hres := hread level room (Writer.moreItems ws rest) hroom
    cases hvalue : f.read s room (w (Writer.moreItems ws rest)) with
    | error e =>
      rw [hvalue] at hres
      exact hres.stop
    | ok r =>
      obtain ⟨s', behind⟩ := r
      rw [hvalue] at hres
      obtain ⟨hnone, hQ, rfl⟩ := hres
      exact Meets.goOn hnone (ih s' hQ)

/-- The elements of an array are read as the fields in their declared order. -/
theorem elements {blank : σ} {w : Writer} {ws : List Writer} {Q : σ → Prop}
    (h : Elements most fields blank (w :: ws) cps Q) :
    Reads (most + 1) (Reader.record fields blank) (.list (w :: ws))
      (fun level => .bracket (level + 1) :: cps (level + 1)) Q := by
  refine of_opening (fun rest => rfl) fun level room rest hroom => ?_
  have hmeets := h.meets (level + 1) hroom rest
  cases h with
  | cons hw _ _ =>
    have hhead := hw.head?_ne (Writer.moreItems ws rest)
    rw [Writer.list]
    rw [Writer.moreItems, afterElement] at hmeets
    generalize w (Writer.moreItems ws rest) = ts at hhead hmeets
    rw [Reader.record]
    · exact hmeets
    · rintro ts' rfl
      exact hhead rfl

end Record

/-! ## Variants -/

theorem variant {payload : String → Option (Reader α)} {name : String}
    (hname : payload name = some read) (h : Reads most read w cps Q) :
    Reads (most + 1) (Reader.variant payload) (.variant name w)
      (fun level => .bracket (level + 1) :: cps (level + 1)) Q := by
  refine of_opening (fun rest => rfl) fun level room rest hroom => ?_
  have hread := h (level + 1) room (.closeBrace :: rest) hroom
  show Meets _ _ _ _ (Reader.variant payload (room + 1)
    (.openBrace :: .text name :: .colon :: w (.closeBrace :: rest)))
  simp only [Reader.variant, hname]
  cases hres : read room (w (.closeBrace :: rest)) with
  | error e => rwa [hres] at hread
  | ok r =>
    obtain ⟨a, behind⟩ := r
    rw [hres] at hread
    obtain ⟨hnone, hQ, rfl⟩ := hread
    exact ⟨hnone, hQ, rfl⟩

/-! ## Whole texts -/

/-- A whole text is read where its brackets can be open in the room that there is. -/
theorem parse_of_spaced {height : Nat} (hw : Writes w height)
    (h : Reads maxNesting read w cps Q) {text : List Char} (hspaced : Spaced (w []) text) :
    (∀ e, read.parse text = .error e ↔ firstViolation? maxNesting (cps 0) = some e) ∧
    (∀ a, read.parse text = .ok a → Q a) := by
  have hmeets := h 0 maxNesting [] (Nat.le_refl _)
  rw [Nat.zero_add] at hmeets
  rw [Reader.parse, hw.tokenize_of_spaced hspaced]
  cases hres : read maxNesting (w []) with
  | error e =>
    rw [hres] at hmeets
    have hfirst : firstViolation? maxNesting (cps 0) = some e := hmeets
    simp [hfirst]
  | ok r =>
    obtain ⟨a, behind⟩ := r
    rw [hres] at hmeets
    obtain ⟨hnone, hQ, rfl⟩ := hmeets
    simp [hnone, hQ]

theorem parse_toText {height : Nat} (hw : Writes w height) (h : Reads maxNesting read w cps Q) :
    (∀ e, read.parse w.toText.toList = .error e ↔ firstViolation? maxNesting (cps 0) = some e) ∧
    (∀ a, read.parse w.toText.toList = .ok a → Q a) :=
  parse_of_spaced hw h w.spaced_toText

end Reads

end KeyPolicy.Json
