import KeyPolicy.Json.Writer
import KeyPolicy.Proofs.Spellings

/-!
# Tokens are read back off their spelling

A reader works on tokens and a writer gives tokens, but what is stored is a text. A writer spells
each token in one of its ways (`Token.spell`). Spelling tokens one after the other and cutting the
text again gives the tokens back, except where the spelling runs together: two numbers side by side
are one number. `Legible` says that this does not happen.

**Theorem (`tokenize_of_spaced`).** Legible tokens are what their text is cut into, whatever blanks
stand between them.
-/

namespace KeyPolicy.Json

/-! ## The written spelling -/

theorem spellsUnit_spellChar (c : Char) : SpellsUnit c.toNat (spellChar c) := by
  unfold spellChar
  split
  · next h => subst h; exact .letter (by decide)
  · next hquote =>
    split
    · next h => subst h; exact .letter (by decide)
    · next hslash =>
      split
      · next hcontrol =>
        -- A control character is below 0x20, so its code has two digits at most.
        have hzero : HexDigit '0' 0 := ⟨by decide, .inl (by decide)⟩
        have hspells := SpellsUnit.hex hzero hzero (i := 0) (j := 0)
          (k := c.toNat / 16) (l := c.toNat % 16)
          ⟨by omega, .inl rfl⟩ ⟨by omega, .inl rfl⟩
        have hcode : ((0 * 16 + 0) * 16 + c.toNat / 16) * 16 + c.toNat % 16 = c.toNat := by omega
        rwa [hcode] at hspells
      · next hplain => exact .plain hquote hslash (Nat.le_of_not_lt hplain)

theorem spellsUnits_spellChars (cs : List Char) :
    SpellsUnits (cs.map Char.toNat) (cs.flatMap spellChar) := by
  induction cs with
  | nil => exact .nil
  | cons c cs ih => exact .cons (spellsUnit_spellChar c) ih

theorem denotes_toNat (cs : List Char) : Denotes (cs.map Char.toNat) cs := by
  induction cs with
  | nil => exact .nil
  | cons c cs ih => exact .char ih

/-- Half of a surrogate pair denotes nothing. -/
theorem not_denotes_surrogate (cs : List Char) : ¬ Denotes [0xD800] cs := by
  intro h
  have hjoin := joinSurrogates?_of_denotes h
  cases hjoin

/-- What is written for a token is one of its spellings. -/
theorem Token.spelling {t : Token} (hvalid : t ≠ .invalid) : Spelling t t.spell := by
  cases t with
  | invalid => exact absurd rfl hvalid
  | natural n => exact .natural n
  | otherNumber => exact .otherNumber 0 (.inr rfl) .none .none (.inl (List.cons_ne_nil _ _))
  | text s => exact .text (spellsUnits_spellChars s.toList) (denotes_toNat s.toList)
  | unpaired =>
    have hspells : SpellsUnits [0xD800] ['\\', 'u', 'd', '8', '0', '0'] :=
      .cons (.hex (i := 13) (j := 8) (k := 0) (l := 0) ⟨by decide, by decide⟩ ⟨by decide, by decide⟩
        ⟨by decide, by decide⟩ ⟨by decide, by decide⟩) .nil
    exact .unpaired hspells not_denotes_surrogate
  | _ => exact .fixed rfl

/-- A token is read back off its spelling, unless it is a number and what follows goes on with
it. -/
theorem scan_spell {t : Token} {rest : List Char} (hvalid : t ≠ .invalid)
    (hends : t.isNumber = true → EndsNumber rest) : scan (t.spell ++ rest) = some (t, rest) :=
  scan_spelling (Token.spelling hvalid) hends

/-! ## Blanks between the tokens -/

/-- The text spells the tokens, with any blanks before, between and behind them. -/
inductive Spaced : List Token → List Char → Prop
  | nil {blanks : List Char} : Blank blanks → Spaced [] blanks
  | cons {t : Token} {ts : List Token} {blanks cs : List Char} :
      Blank blanks → Spaced ts cs → Spaced (t :: ts) (blanks ++ (t.spell ++ cs))

/-- The compact spelling is the one without blanks. -/
theorem spaced_spellAll (ts : List Token) : Spaced ts (spellAll ts) := by
  induction ts with
  | nil => exact .nil blank_nil
  | cons t ts ih => exact .cons blank_nil ih

theorem not_isBlank_of_mem_head? {t : Token} : ∀ c ∈ t.spell.head?, isBlank c = false := by
  intro c hc
  cases t with
  | boolean b => cases b <;> cases hc <;> decide
  | natural n =>
    obtain ⟨d, ds, hds, hdigit⟩ := (digits_toDigits n).exists_eq_cons
    rw [Token.spell, hds] at hc
    cases hc
    by_contra hblank
    rcases isBlank_iff.1 (Bool.of_not_eq_false hblank) with rfl | rfl | rfl | rfl <;>
      exact absurd hdigit (by decide)
  | _ => cases hc; decide

/-- To see how a text spells tokens it is enough to pass over its blanks. -/
theorem spaced_cons_iff {t : Token} {ts : List Token} {cs : List Char} :
    Spaced (t :: ts) cs ↔ t.spell <+: cs.dropWhile isBlank ∧
      Spaced ts ((cs.dropWhile isBlank).drop t.spell.length) := by
  constructor
  · intro h
    cases h with
    | @cons _ _ blanks cs hblank hspaced =>
      have hdrop : (blanks ++ (t.spell ++ cs)).dropWhile isBlank = t.spell ++ cs := by
        rw [List.dropWhile_append_of_pos hblank]
        obtain ⟨d, ds, hds⟩ := List.exists_cons_of_ne_nil t.spell_ne_nil
        have hd : isBlank d = false := not_isBlank_of_mem_head? d (by rw [hds]; rfl)
        rw [hds, List.cons_append, List.dropWhile_cons, hd, if_neg Bool.false_ne_true]
      rw [hdrop, List.drop_left]
      exact ⟨List.prefix_append _ _, hspaced⟩
  · rintro ⟨⟨rest, hrest⟩, hspaced⟩
    rw [← hrest, List.drop_left] at hspaced
    have hblank : Blank (cs.takeWhile isBlank) :=
      List.all_eq_true.1 List.all_takeWhile
    have hspell := Spaced.cons (t := t) hblank hspaced
    rwa [hrest, List.takeWhile_append_dropWhile] at hspell

instance decidableSpaced : (ts : List Token) → (cs : List Char) → Decidable (Spaced ts cs)
  | [], cs => decidable_of_iff (Blank cs) ⟨.nil, fun h => by cases h; assumption⟩
  | t :: ts, cs =>
    have := decidableSpaced ts ((cs.dropWhile isBlank).drop t.spell.length)
    decidable_of_iff' _ spaced_cons_iff

theorem Spaced.written {ts : List Token} {cs : List Char} (h : Spaced ts cs)
    (hlegible : Legible ts) : Written ts cs := by
  induction h with
  | nil hblank => exact .nil hblank
  | cons hblank _ ih => exact .cons hblank (Token.spelling hlegible.1) (ih hlegible.2.2)

/-- **Cutting undoes spelling**, whatever blanks stand between the tokens. -/
theorem tokenize_of_spaced {ts : List Token} {cs : List Char} (h : Spaced ts cs)
    (hlegible : Legible ts) : tokenize cs = ts :=
  tokenize_of_written (h.written hlegible) hlegible

end KeyPolicy.Json
