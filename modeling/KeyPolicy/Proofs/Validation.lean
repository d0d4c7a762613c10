import KeyPolicy.Proofs.Sketch

/-!
# What the reader of policies lets in

**Theorem (`Sketch.decode_text`).** The text of a sketch is taken exactly when its brackets nest at
most 127 deep and its contents fit: bytes, thresholds and identifiers are in their ranges, and every
key has the length and the leading byte of its algorithm. Then the policy with this sketch comes
out. Any other text of a sketch is refused, and it is refused for a key exactly when that key is the
first thing wrong with it.

`Sketch.clean_checkpoints` turns the list of checkpoints into these two conditions. A key stands
behind its own bytes (`Sketch.keysLast_checkpoints`), so a key that is reported has bytes in range,
and the error is the one that the constructor of keys gives for them.
-/

namespace KeyPolicy

open Json

namespace Sketch

/-! ## What fits -/

mutual

/-- The numbers of a sketch are in range, and its keys fit their algorithms. -/
def Fits : Sketch → Prop
  | key a ns =>
    (∀ n ∈ ns, n ≤ 255) ∧ ns.length = a.keyLength ∧
      (a = .ecdsaSecp256k1 → ns.head? = some 2 ∨ ns.head? = some 3)
  | allOf cs => FitAll cs
  | threshold m cs => m < UInt32.size ∧ FitAll cs
  | contract n | delegatableContract n => n < UInt64.size
  | rsa3072 ns | ecdsaP384 ns => ∀ n ∈ ns, n ≤ 255

def FitAll : List Sketch → Prop
  | [] => True
  | c :: cs => c.Fits ∧ FitAll cs

end

section Clean

variable {limit level : Nat} {a : Algorithm} {ns : List Nat} {cs : List Sketch}

theorem clean_bytes :
    Clean limit (byteCheckpoints level ns) ↔ level + 1 ≤ limit ∧ ∀ n ∈ ns, n ≤ 255 := by
  rw [byteCheckpoints, clean_cons, violation?_bracket_iff]
  simp only [Clean, List.forall_mem_map, violation?_number_iff, UInt8.size, Nat.lt_succ_iff]

/-- For numbers in range it is the same to check them as numbers or as bytes. -/
theorem admissible_map_ofNat (h : ∀ n ∈ ns, n ≤ 255) :
    Admissible a (ns.map UInt8.ofNat) ↔ ns.length = a.keyLength ∧
      (a = .ecdsaSecp256k1 → ns.head? = some 2 ∨ ns.head? = some 3) := by
  rw [Admissible, List.length_map, List.head?_map]
  cases ns with
  | nil => simp
  | cons n ns =>
    have hn : n < 256 := Nat.lt_succ_of_le (h n List.mem_cons_self)
    have heq : ∀ b < 256, UInt8.ofNat n = UInt8.ofNat b ↔ n = b := by
      intro b hb
      rw [← UInt8.toNat_inj, UInt8.toNat_ofNat', UInt8.toNat_ofNat', Nat.mod_eq_of_lt hn,
        Nat.mod_eq_of_lt hb]
    have htwo := heq 2 (by decide)
    have hthree := heq 3 (by decide)
    simp only [List.head?_cons, Option.map_some, Option.some.injEq]
    rw [← htwo, ← hthree]
    rfl

theorem clean_key :
    Clean limit (keyCheckpoints level a ns) ↔ level + 2 ≤ limit ∧ (key a ns).Fits := by
  rw [keyCheckpoints, clean_append, clean_cons, clean_bytes, clean_cons, violation?_key_iff,
    violation?_bracket_iff, Fits]
  constructor
  · rintro ⟨⟨-, hlevel, hbytes⟩, hkey, -⟩
    exact ⟨hlevel, hbytes, (admissible_map_ofNat hbytes).1 hkey⟩
  · rintro ⟨hlevel, hbytes, hkey⟩
    exact ⟨⟨by omega, hlevel, hbytes⟩, (admissible_map_ofNat hbytes).2 hkey, nofun⟩

/-- Without children only the brackets around them remain to be counted. -/
theorem clean_checkpointsOf
    (h : ∀ c ∈ cs, ∀ level, Clean limit (c.checkpoints level) ↔ level + c.height ≤ limit ∧ c.Fits)
    (hlevel : level ≤ limit) :
    Clean limit (checkpointsOf level cs) ↔ level + maxHeight cs ≤ limit ∧ FitAll cs := by
  induction cs with
  | nil => simp [checkpointsOf, clean_nil, maxHeight, FitAll, hlevel]
  | cons c cs ih =>
    obtain ⟨hc, hcs⟩ := List.forall_mem_cons.1 h
    have hmax : level + max c.height (maxHeight cs) ≤ limit ↔
        level + c.height ≤ limit ∧ level + maxHeight cs ≤ limit := by omega
    rw [checkpointsOf, clean_append, hc, ih hcs, maxHeight, FitAll, hmax, and_and_and_comm]

/-- Nothing is wrong with a text exactly when its brackets nest within the limit and its contents
fit. -/
theorem clean_checkpoints (s : Sketch) (level : Nat) :
    Clean limit (s.checkpoints level) ↔ level + s.height ≤ limit ∧ s.Fits := by
  induction s using Sketch.induction generalizing level with
  | key a ns =>
    rw [checkpoints, clean_cons, violation?_bracket_iff, clean_key, height]
    grind
  | allOf cs ih =>
    have hchildren := fun h : level + 3 ≤ limit => clean_checkpointsOf ih h
    rw [checkpoints, clean_cons, clean_cons, clean_cons]
    simp only [violation?_bracket_iff, height, Fits]
    grind
  | threshold m cs ih =>
    have hchildren := fun h : level + 4 ≤ limit => clean_checkpointsOf ih h
    rw [checkpoints, clean_cons, clean_cons, clean_cons, clean_cons, clean_cons]
    simp only [violation?_bracket_iff, violation?_number_iff, height, Fits]
    grind
  | contract n | delegatableContract n =>
    rw [checkpoints, clean_cons, clean_cons, violation?_bracket_iff, violation?_number_iff,
      clean_nil, and_true, height, Fits]
  | rsa3072 ns | ecdsaP384 ns =>
    rw [checkpoints, clean_cons, violation?_bracket_iff, clean_bytes, height, Fits]
    grind

end Clean

/-! ## Keys stand behind their bytes -/

/-- Each key of the list stands somewhere behind all of its bytes. -/
def KeysLast (cps : List Checkpoint) : Prop :=
  ∀ before a ns after, cps = before ++ .key a ns :: after →
    ∀ n ∈ ns, .number n UInt8.size ∈ before

theorem KeysLast.append {cps cps' : List Checkpoint} (h : KeysLast cps) (h' : KeysLast cps') :
    KeysLast (cps ++ cps') := by
  intro before a ns after heq n hn
  rcases List.append_eq_append_iff.1 heq with ⟨between, rfl, hcps'⟩ | ⟨between, hcps, htail⟩
  · exact List.mem_append_right cps (h' _ _ _ _ hcps' n hn)
  · cases between with
    | nil =>
      have hmem := h' [] a ns after (by simpa using htail.symm) n hn
      exact absurd hmem List.not_mem_nil
    | cons cp between =>
      obtain ⟨rfl, -⟩ := List.cons_eq_cons.1 htail
      exact h _ _ _ _ hcps n hn

theorem keysLast_of_forall_ne {cps : List Checkpoint} (h : ∀ a ns, .key a ns ∉ cps) :
    KeysLast cps := by
  rintro before a ns after rfl
  exact absurd (List.mem_append_right before List.mem_cons_self) (h a ns)

theorem keysLast_bytes (level : Nat) (ns : List Nat) : KeysLast (byteCheckpoints level ns) :=
  keysLast_of_forall_ne fun a ns => by simp [byteCheckpoints]

theorem keysLast_key (level : Nat) (a : Algorithm) (ns : List Nat) :
    KeysLast (keyCheckpoints level a ns) := by
  intro before b ms after heq n hn
  rcases List.eq_nil_or_concat' after with rfl | ⟨after, last, rfl⟩
  · obtain ⟨rfl, hlast⟩ := List.append_inj' heq rfl
    cases hlast
    simp [byteCheckpoints, hn]
  · -- A key before the last place would stand among the bytes.
    have hconcat : .bracket (level + 1) :: byteCheckpoints (level + 1) ns ++ [.key a ns] =
        before ++ .key b ms :: after ++ [last] := by
      rw [List.append_assoc]
      exact heq
    obtain ⟨hinit, -⟩ := List.append_inj' hconcat rfl
    have hmem : Checkpoint.key b ms ∈ .bracket (level + 1) :: byteCheckpoints (level + 1) ns :=
      hinit ▸ List.mem_append_right before List.mem_cons_self
    simp [byteCheckpoints] at hmem

theorem keysLast_checkpointsOf {cs : List Sketch} {level : Nat}
    (h : ∀ c ∈ cs, ∀ level, KeysLast (c.checkpoints level)) :
    KeysLast (checkpointsOf level cs) := by
  induction cs with
  | nil => exact keysLast_of_forall_ne (by simp [checkpointsOf])
  | cons c cs ih =>
    obtain ⟨hc, hcs⟩ := List.forall_mem_cons.1 h
    exact (hc level).append (ih hcs)

theorem keysLast_checkpoints (s : Sketch) (level : Nat) : KeysLast (s.checkpoints level) := by
  induction s using Sketch.induction generalizing level with
  | key a ns =>
    have hbracket : KeysLast [.bracket (level + 1)] := keysLast_of_forall_ne (by simp)
    exact hbracket.append (keysLast_key (level + 1) a ns)
  | allOf cs ih =>
    have hbrackets : KeysLast [.bracket (level + 1), .bracket (level + 2), .bracket (level + 3)] :=
      keysLast_of_forall_ne (by simp)
    exact hbrackets.append (keysLast_checkpointsOf ih)
  | threshold m cs ih =>
    have hbrackets : KeysLast [.bracket (level + 1), .bracket (level + 2),
        .number m UInt32.size, .bracket (level + 3), .bracket (level + 4)] :=
      keysLast_of_forall_ne (by simp)
    exact hbrackets.append (keysLast_checkpointsOf ih)
  | contract n | delegatableContract n => exact keysLast_of_forall_ne (by simp [checkpoints])
  | rsa3072 ns | ecdsaP384 ns =>
    have hbracket : KeysLast [.bracket (level + 1)] := keysLast_of_forall_ne (by simp)
    exact hbracket.append (keysLast_bytes (level + 1) ns)

/-! ## Decoding the text of a sketch -/

theorem violation?_eq_some_key_iff {limit : Nat} {cp : Checkpoint} {err : KeyError} :
    cp.violation? limit = some (.key err) ↔
      ∃ a ns, cp = .key a ns ∧ PublicKey.ofBytes a (ns.map UInt8.ofNat) = .error err := by
  cases cp with
  | bracket n => simp [Checkpoint.violation?]
  | number n bound => simp [Checkpoint.violation?]
  | key a ns =>
    rw [Checkpoint.violation?]
    cases h : PublicKey.ofBytes a (ns.map UInt8.ofNat) <;> simp [h]

/-- A key is the first violation exactly when all before it is clean and the constructor of keys
refuses its bytes. -/
theorem firstViolation?_eq_some_key_iff {limit : Nat} {cps : List Checkpoint} (h : KeysLast cps)
    {err : KeyError} : firstViolation? limit cps = some (.key err) ↔
      ∃ before a bytes after, cps = before ++ .key a (bytes.map UInt8.toNat) :: after ∧
        Clean limit before ∧ PublicKey.ofBytes a bytes = .error err := by
  rw [firstViolation?, List.findSome?_eq_some_iff]
  constructor
  · rintro ⟨before, cp, after, hcps, hcp, hbefore⟩
    obtain ⟨a, ns, rfl, herr⟩ := violation?_eq_some_key_iff.1 hcp
    -- The numbers of the key stand before it and are clean, so they are bytes.
    have hrange : ∀ n ∈ ns, n < UInt8.size := fun n hn =>
      violation?_number_iff.1 (hbefore _ (h before a ns after hcps n hn))
    have hbytes : (ns.map UInt8.ofNat).map UInt8.toNat = ns := by
      rw [List.map_map]
      exact (List.map_congr_left fun n hn => UInt8.toNat_ofNat_of_lt' (hrange n hn)).trans
        (List.map_id ns)
    exact ⟨before, a, ns.map UInt8.ofNat, after, by rw [hbytes, hcps], hbefore, herr⟩
  · rintro ⟨before, a, bytes, after, hcps, hbefore, herr⟩
    refine ⟨before, _, after, hcps, violation?_eq_some_key_iff.2 ⟨a, _, rfl, ?_⟩, hbefore⟩
    simpa [Function.comp_def] using herr

theorem nesting_text (s : Sketch) : nesting s.text = s.height := s.writes.nesting_toText

/-- The text of a sketch is taken exactly when its brackets nest at most 127 deep and its contents
fit, and then the policy with this sketch comes out. Otherwise it is refused, and the reason is the
error of a key exactly when the first violation in the text is that key. -/
theorem decode_text (s : Sketch) :
    ((nesting s.text ≤ 127 ∧ s.Fits) ↔
      ∃ p : Policy, p.sketch = s ∧ Format.policy.decode s.text = .ok p) ∧
    (¬ (nesting s.text ≤ 127 ∧ s.Fits) ↔ ∃ e, Format.policy.decode s.text = .error e) ∧
    ∀ err : KeyError, Format.policy.decode s.text = .error (.key err) ↔
      ∃ before a bytes after, s.checkpoints 0 = before ++ .key a (bytes.map UInt8.toNat) :: after ∧
        (∀ cp ∈ before, cp.violation? 127 = none) ∧ PublicKey.ofBytes a bytes = .error err := by
  obtain ⟨herror, hok⟩ := Reads.parse_toText s.writes (s.reads maxNesting)
  have hclean : (nesting s.text ≤ 127 ∧ s.Fits) ↔
      firstViolation? maxNesting (s.checkpoints 0) = none := by
    rw [nesting_text, firstViolation?_eq_none_iff, clean_checkpoints, Nat.zero_add, maxNesting]
  refine ⟨?_, ?_, fun err => (herror (.key err)).trans ?_⟩
  · rw [hclean]
    constructor
    · intro hnone
      cases hres : Format.policy.decode s.text with
      | error e => exact absurd ((herror e).1 hres) (by simp [hnone])
      | ok p => exact ⟨p, hok p hres, rfl⟩
    · rintro ⟨p, -, hp⟩
      cases hfirst : firstViolation? maxNesting (s.checkpoints 0) with
      | none => rfl
      | some e => exact absurd (hp.symm.trans ((herror e).2 hfirst)) (by simp)
  · rw [hclean, Option.eq_none_iff_forall_ne_some]
    push Not
    exact exists_congr fun e => (herror e).symm
  · exact firstViolation?_eq_some_key_iff (s.keysLast_checkpoints 0)

end Sketch

end KeyPolicy
