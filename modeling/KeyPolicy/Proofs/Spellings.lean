import Mathlib.Tactic.ByContra
import KeyPolicy.Json.Token

/-!
# All spellings of a token

A bracket, a separator or a literal is spelled in one way. A number may have a sign, a fraction and
an exponent, and each character of a string may stand for itself or be escaped: by a letter, or by
its UTF-16 code units in hexadecimal. `Spelling` is this grammar; how a text is cut into tokens does
not occur in it.

**Theorem (`tokenize_of_written`).** A text that spells some tokens, each in any way and with any
blanks between them, is cut into these tokens, unless two numbers stand side by side.

The proof takes one token at a time. A token is read off each of its spellings, whatever the text
goes on with (`scan_spelling`); only a number looks at what comes behind, and it stops there unless
that goes on with a number. A blank ends a number as well, so blanks can only help.
-/

namespace KeyPolicy.Json

/-! ## Numbers -/

/-- A text that does not go on with a digit. -/
def EndsDigits (cs : List Char) : Prop := ∀ c ∈ cs.head?, c.isDigit = false

/-- A text that does not go on with a number. -/
def EndsNumber (cs : List Char) : Prop :=
  ∀ c ∈ cs.head?, c.isDigit = false ∧ c ≠ '.' ∧ c ≠ 'e' ∧ c ≠ 'E'

/-- One digit or more. -/
structure Digits (cs : List Char) : Prop where
  ne_nil : cs ≠ []
  isDigit : ∀ c ∈ cs, c.isDigit = true

/-- The fraction of a number, if there is one. -/
inductive Fraction : List Char → Prop
  | none : Fraction []
  | some {digits : List Char} : Digits digits → Fraction ('.' :: digits)

/-- The exponent of a number, if there is one. -/
inductive Exponent : List Char → Prop
  | none : Exponent []
  | some {letter : Char} {sign digits : List Char} :
      letter = 'e' ∨ letter = 'E' → sign = [] ∨ sign = ['+'] ∨ sign = ['-'] → Digits digits →
      Exponent (letter :: (sign ++ digits))

section Numbers

variable {ds sign fraction exponent rest : List Char} {n : Nat} {t : Token}

theorem EndsNumber.endsDigits (h : EndsNumber rest) : EndsDigits rest := fun c hc => (h c hc).1

theorem digits_toDigits (n : Nat) : Digits (Nat.toDigits 10 n) where
  ne_nil := Nat.toDigits_ne_nil
  isDigit _ hc := Nat.isDigit_of_mem_toDigits (by decide) (by decide) hc

theorem Digits.exists_eq_cons (h : Digits ds) : ∃ d ds', ds = d :: ds' ∧ d.isDigit = true := by
  obtain ⟨d, ds', hds⟩ := List.exists_cons_of_ne_nil h.ne_nil
  exact ⟨d, ds', hds, h.isDigit d (hds ▸ List.mem_cons_self)⟩

/-- Digits end where the text does not go on with a digit. -/
theorem Digits.span (h : Digits ds) (hrest : EndsDigits rest) :
    (ds ++ rest).takeWhile Char.isDigit = ds ∧ (ds ++ rest).dropWhile Char.isDigit = rest := by
  rw [List.takeWhile_append_of_pos h.isDigit, List.dropWhile_append_of_pos h.isDigit]
  cases rest with
  | nil => simp
  | cons c cs =>
    have hc : c.isDigit = false := hrest c rfl
    simp [hc]

theorem head?_toDigits_ne_zero {n : Nat} (h : 0 < n) : (Nat.toDigits 10 n).head? ≠ some '0' := by
  induction n using Nat.strongRecOn with
  | ind n ih =>
    by_cases hn : n < 10
    · rw [Nat.toDigits_of_lt_base hn]
      have hall : ∀ d < 10, 0 < d → [Nat.digitChar d].head? ≠ some '0' := by decide
      exact hall n hn h
    · have hten : 10 ≤ n := by omega
      have hhead := ih (n / 10) (by omega) (by omega)
      obtain ⟨d, ds, hds⟩ :=
        List.exists_cons_of_ne_nil (Nat.toDigits_ne_nil (b := 10) (n := n / 10))
      rw [Nat.toDigits_of_base_le (by decide) hten, hds]
      rwa [hds] at hhead

theorem scanInteger_toDigits (h : EndsDigits rest) :
    scanInteger (Nat.toDigits 10 n ++ rest) = some (n, rest) := by
  obtain ⟨htake, hdrop⟩ := (digits_toDigits n).span h
  have hzero : ¬ ((Nat.toDigits 10 n).head? = some '0' ∧ 1 < (Nat.toDigits 10 n).length) := by
    rintro ⟨hhead, hlen⟩
    rcases Nat.eq_zero_or_pos n with rfl | hn
    · simp at hlen
    · exact head?_toDigits_ne_zero hn hhead
  simp only [scanInteger, htake, hdrop]
  rw [if_neg, Nat.ofDigitChars_toDigits (by decide) (by decide)]
  rintro (hnil | hlead)
  · exact Nat.toDigits_ne_nil hnil
  · exact hzero hlead

theorem skipDigits_append (h : Digits ds) (hrest : EndsDigits rest) :
    skipDigits (ds ++ rest) = some rest := by
  obtain ⟨htake, hdrop⟩ := h.span hrest
  rw [skipDigits, htake, hdrop, if_neg h.ne_nil]

theorem skipExponent_append (hsign : sign = [] ∨ sign = ['+'] ∨ sign = ['-']) (h : Digits ds)
    (hrest : EndsDigits rest) : skipExponent (sign ++ (ds ++ rest)) = some rest := by
  rcases hsign with rfl | rfl | rfl
  · obtain ⟨d, ds', rfl, hd⟩ := h.exists_eq_cons
    have hplus : d ≠ '+' := by rintro rfl; exact absurd hd (by decide)
    have hminus : d ≠ '-' := by rintro rfl; exact absurd hd (by decide)
    have hskip : skipExponent (d :: (ds' ++ rest)) = skipDigits (d :: (ds' ++ rest)) := by
      simp [skipExponent, hplus, hminus]
    exact hskip.trans (skipDigits_append h hrest)
  · exact skipDigits_append h hrest
  · exact skipDigits_append h hrest

theorem Exponent.endsDigits (h : Exponent exponent) (hrest : EndsNumber rest) :
    EndsDigits (exponent ++ rest) := by
  cases h with
  | none => exact hrest.endsDigits
  | some hletter _ _ =>
    rcases hletter with rfl | rfl <;> (intro c hc; cases hc; decide)

theorem Fraction.endsDigits (h : Fraction fraction) (he : Exponent exponent)
    (hrest : EndsNumber rest) : EndsDigits (fraction ++ (exponent ++ rest)) := by
  cases h with
  | none => exact he.endsDigits hrest
  | some _ => intro c hc; cases hc; decide

theorem skipFraction_append (h : Digits ds) (he : Exponent exponent) (hrest : EndsNumber rest) :
    skipFraction (ds ++ (exponent ++ rest)) = some rest := by
  rw [skipFraction, skipDigits_append h (he.endsDigits hrest)]
  cases he with
  | none =>
    cases rest with
    | nil => rfl
    | cons c cs =>
      obtain ⟨-, -, he, hE⟩ := hrest c rfl
      simp [he, hE]
  | some hletter hsign hds =>
    have hskip := skipExponent_append hsign hds hrest.endsDigits
    rw [← List.append_assoc] at hskip
    rcases hletter with rfl | rfl <;> exact hskip

theorem scanNumberTail_of_endsNumber (h : EndsNumber rest) :
    scanNumberTail t rest = some (t, rest) := by
  cases rest with
  | nil => rfl
  | cons c cs =>
    obtain ⟨-, hpoint, he, hE⟩ := h c rfl
    simp [scanNumberTail, hpoint, he, hE]

/-- A number with a fraction or an exponent has no value that is kept. -/
theorem scanNumberTail_append (hf : Fraction fraction) (he : Exponent exponent)
    (hrest : EndsNumber rest) (ht : fraction = [] → exponent = [] → t = .otherNumber) :
    scanNumberTail t (fraction ++ (exponent ++ rest)) = some (.otherNumber, rest) := by
  cases hf with
  | none =>
    cases he with
    | none => exact ht rfl rfl ▸ scanNumberTail_of_endsNumber hrest
    | some hletter hsign hds =>
      have hskip := skipExponent_append hsign hds hrest.endsDigits
      rcases hletter with rfl | rfl <;> simp [scanNumberTail, hskip]
  | some hds =>
    show (skipFraction (_ ++ (exponent ++ rest))).map _ = _
    rw [skipFraction_append hds he hrest]
    rfl

/-- A text that starts with a digit can only be a number. -/
theorem scan_of_isDigit {d : Char} {cs : List Char} (h : d.isDigit = true) :
    scan (d :: cs) =
      (scanInteger (d :: cs)).bind fun (n, rest) => scanNumberTail (.natural n) rest := by
  unfold scan
  split
  all_goals first
    | (next heq => cases heq; exact absurd h (by decide))
    | skip
  unfold scanNumber
  split
  · next heq => cases heq; exact absurd h (by decide)
  · rfl

theorem scan_toDigits_append (h : EndsDigits rest) :
    scan (Nat.toDigits 10 n ++ rest) = scanNumberTail (.natural n) rest := by
  obtain ⟨d, ds, hds, hd⟩ := (digits_toDigits n).exists_eq_cons
  rw [hds, List.cons_append, scan_of_isDigit hd, ← List.cons_append, ← hds, scanInteger_toDigits h]
  rfl

theorem scan_minus_toDigits_append (h : EndsDigits rest) :
    scan ('-' :: (Nat.toDigits 10 n ++ rest)) = scanNumberTail .otherNumber rest := by
  show (scanInteger (Nat.toDigits 10 n ++ rest)).bind _ = _
  rw [scanInteger_toDigits h]
  rfl

end Numbers

/-! ## Strings -/

/-- A hexadecimal digit, in lower or in upper case, and its value. -/
def HexDigit (c : Char) (n : Nat) : Prop :=
  n < 16 ∧ (c = Nat.digitChar n ∨ c = (Nat.digitChar n).toUpper)

/-- The letters that may follow a backslash, and the characters that they stand for. -/
def letterEscapes : List (Char × Char) :=
  [('"', '"'), ('\\', '\\'), ('/', '/'), ('b', '\x08'), ('f', '\x0c'), ('n', '\n'), ('r', '\r'),
    ('t', '\t')]

/-- One character or escape of a string, and the code point or UTF-16 code unit that it gives. -/
inductive SpellsUnit : Nat → List Char → Prop
  | plain {c : Char} : c ≠ '"' → c ≠ '\\' → 0x20 ≤ c.toNat → SpellsUnit c.toNat [c]
  | letter {letter c : Char} : (letter, c) ∈ letterEscapes → SpellsUnit c.toNat ['\\', letter]
  | hex {a b c d : Char} {i j k l : Nat} :
      HexDigit a i → HexDigit b j → HexDigit c k → HexDigit d l →
      SpellsUnit (((i * 16 + j) * 16 + k) * 16 + l) ['\\', 'u', a, b, c, d]

inductive SpellsUnits : List Nat → List Char → Prop
  | nil : SpellsUnits [] []
  | cons {u : Nat} {us : List Nat} {cs rest : List Char} :
      SpellsUnit u cs → SpellsUnits us rest → SpellsUnits (u :: us) (cs ++ rest)

/-- Code points and UTF-16 code units that denote a text: a character that is not given by its own
code point is given by a surrogate pair. -/
inductive Denotes : List Nat → List Char → Prop
  | nil : Denotes [] []
  | char {c : Char} {us : List Nat} {cs : List Char} :
      Denotes us cs → Denotes (c.toNat :: us) (c :: cs)
  | pair {c : Char} {us : List Nat} {cs : List Char} : 0x10000 ≤ c.toNat → Denotes us cs →
      Denotes ((0xD800 + (c.toNat - 0x10000) / 0x400) ::
        (0xDC00 + (c.toNat - 0x10000) % 0x400) :: us) (c :: cs)

section Strings

variable {u v : Nat} {us : List Nat} {cs body rest : List Char}

theorem hexValue?_of_hexDigit {c : Char} {n : Nat} (h : HexDigit c n) : hexValue? c = some n := by
  have hall : ∀ n < 16, hexValue? (Nat.digitChar n) = some n ∧
      hexValue? (Nat.digitChar n).toUpper = some n := by decide
  obtain ⟨hlower, hupper⟩ := hall n h.1
  rcases h.2 with rfl | rfl
  · exact hlower
  · exact hupper

theorem SpellsUnit.scanString (h : SpellsUnit u cs) (rest : List Char) :
    scanString (cs ++ rest) = (scanString rest).map fun (us, rest) => (u :: us, rest) := by
  cases h with
  | @plain c hquote hslash hcontrol =>
    have hcontrol' : ¬ c.toNat < 0x20 := Nat.not_lt.2 hcontrol
    simp [Json.scanString, hslash, hcontrol']
  | letter hletter =>
    simp only [letterEscapes, List.mem_cons, Prod.mk.injEq, List.not_mem_nil, or_false] at hletter
    rcases hletter with ⟨rfl, rfl⟩ | ⟨rfl, rfl⟩ | ⟨rfl, rfl⟩ | ⟨rfl, rfl⟩ | ⟨rfl, rfl⟩ |
      ⟨rfl, rfl⟩ | ⟨rfl, rfl⟩ | ⟨rfl, rfl⟩ <;> rfl
  | hex ha hb hc hd =>
    simp only [List.cons_append, List.nil_append, Json.scanString, hexUnit?,
      hexValue?_of_hexDigit ha, hexValue?_of_hexDigit hb, hexValue?_of_hexDigit hc,
      hexValue?_of_hexDigit hd]
    rfl

theorem SpellsUnits.scanString (h : SpellsUnits us body) (rest : List Char) :
    scanString (body ++ '"' :: rest) = some (us, rest) := by
  induction h with
  | nil => rfl
  | cons hu _ ih =>
    rw [List.append_assoc, hu.scanString, ih]
    rfl

theorem SpellsUnit.lt (h : SpellsUnit u cs) : u < 0x110000 := by
  cases h with
  | @plain c _ _ _ | @letter _ c _ =>
    have hvalid : c.toNat < 0xD800 ∨ 0xDFFF < c.toNat ∧ c.toNat < 0x110000 := c.valid
    omega
  | hex ha hb hc hd =>
    have := ha.1
    have := hb.1
    have := hc.1
    have := hd.1
    omega

theorem SpellsUnits.lt (h : SpellsUnits us body) : ∀ u ∈ us, u < 0x110000 := by
  induction h with
  | nil => nofun
  | cons hu _ ih => exact List.forall_mem_cons.2 ⟨hu.lt, ih⟩

theorem isSurrogate_toNat (c : Char) :
    isHighSurrogate c.toNat = false ∧ isLowSurrogate c.toNat = false := by
  have hvalid : c.toNat < 0xD800 ∨ 0xDFFF < c.toNat ∧ c.toNat < 0x110000 := c.valid
  simp only [isHighSurrogate, isLowSurrogate, Bool.and_eq_false_iff, decide_eq_false_iff_not]
  omega

theorem toNat_ofNat_of_not_isSurrogate (hlt : u < 0x110000) (hhigh : isHighSurrogate u = false)
    (hlow : isLowSurrogate u = false) : (Char.ofNat u).toNat = u := by
  simp only [isHighSurrogate, isLowSurrogate, Bool.and_eq_false_iff, decide_eq_false_iff_not]
    at hhigh hlow
  have hvalid : u.isValidChar := by
    rw [Nat.isValidChar]
    omega
  rw [Char.ofNat, dif_pos hvalid]
  rfl

theorem joinSurrogates?_cons (hhigh : isHighSurrogate u = false) (hlow : isLowSurrogate u = false)
    (us : List Nat) : joinSurrogates? (u :: us) = (joinSurrogates? us).map (Char.ofNat u :: ·) := by
  cases us with
  | nil => simp [joinSurrogates?, hhigh, hlow]
  | cons v us => simp [joinSurrogates?, hhigh, hlow]

theorem joinSurrogates?_pair (hu : isHighSurrogate u = true) (hv : isLowSurrogate v = true)
    (us : List Nat) : joinSurrogates? (u :: v :: us) =
      (joinSurrogates? us).map
        (Char.ofNat (0x10000 + (u - 0xD800) * 0x400 + (v - 0xDC00)) :: ·) := by
  simp [joinSurrogates?, hu, hv]

theorem joinSurrogates?_of_denotes (h : Denotes us cs) : joinSurrogates? us = some cs := by
  induction h with
  | nil => rfl
  | @char c us cs _ ih =>
    obtain ⟨hhigh, hlow⟩ := isSurrogate_toNat c
    rw [joinSurrogates?_cons hhigh hlow, ih, Option.map_some, Char.ofNat_toNat]
  | @pair c us cs hc _ ih =>
    have hvalid : c.toNat < 0xD800 ∨ 0xDFFF < c.toNat ∧ c.toNat < 0x110000 := c.valid
    have hhigh : isHighSurrogate (0xD800 + (c.toNat - 0x10000) / 0x400) = true := by
      simp only [isHighSurrogate, Bool.and_eq_true, decide_eq_true_eq]
      omega
    have hlow : isLowSurrogate (0xDC00 + (c.toNat - 0x10000) % 0x400) = true := by
      simp only [isLowSurrogate, Bool.and_eq_true, decide_eq_true_eq]
      omega
    have hjoin : 0x10000 + (0xD800 + (c.toNat - 0x10000) / 0x400 - 0xD800) * 0x400 +
        (0xDC00 + (c.toNat - 0x10000) % 0x400 - 0xDC00) = c.toNat := by omega
    rw [joinSurrogates?_pair hhigh hlow, ih, Option.map_some, hjoin, Char.ofNat_toNat]

/-- A code point that is no half of a surrogate pair stands for its character. -/
theorem Denotes.cons_of_not_isSurrogate (hlt : u < 0x110000) (hhigh : isHighSurrogate u = false)
    (hlow : isLowSurrogate u = false) (h : Denotes us cs) :
    Denotes (u :: us) (Char.ofNat u :: cs) := by
  have hchar := Denotes.char (c := Char.ofNat u) h
  rwa [toNat_ofNat_of_not_isSurrogate hlt hhigh hlow] at hchar

/-- Two halves of a surrogate pair stand for one character. -/
theorem Denotes.cons_of_isSurrogate (hu : isHighSurrogate u = true) (hv : isLowSurrogate v = true)
    (h : Denotes us cs) : Denotes (u :: v :: us)
      (Char.ofNat (0x10000 + (u - 0xD800) * 0x400 + (v - 0xDC00)) :: cs) := by
  simp only [isHighSurrogate, isLowSurrogate, Bool.and_eq_true, decide_eq_true_eq] at hu hv
  have hvalid : (0x10000 + (u - 0xD800) * 0x400 + (v - 0xDC00)).isValidChar := by
    rw [Nat.isValidChar]
    omega
  have hchar : (Char.ofNat (0x10000 + (u - 0xD800) * 0x400 + (v - 0xDC00))).toNat =
      0x10000 + (u - 0xD800) * 0x400 + (v - 0xDC00) := by
    rw [Char.ofNat, dif_pos hvalid]
    rfl
  have hpair := Denotes.pair (c := Char.ofNat (0x10000 + (u - 0xD800) * 0x400 + (v - 0xDC00)))
    (by omega) h
  rw [hchar] at hpair
  have hhigh : 0xD800 + (0x10000 + (u - 0xD800) * 0x400 + (v - 0xDC00) - 0x10000) / 0x400 = u := by
    omega
  have hlow : 0xDC00 + (0x10000 + (u - 0xD800) * 0x400 + (v - 0xDC00) - 0x10000) % 0x400 = v := by
    omega
  rwa [hhigh, hlow] at hpair

theorem denotes_of_joinSurrogates? (hlt : ∀ u ∈ us, u < 0x110000)
    (h : joinSurrogates? us = some cs) : Denotes us cs := by
  induction us using joinSurrogates?.induct generalizing cs with
  | case1 =>
    cases h
    exact .nil
  -- Here, and in the fifth and sixth case, a surrogate has no partner.
  | case2 u hsurrogate => simp [joinSurrogates?, hsurrogate] at h
  | case3 u hsurrogate =>
    rw [Bool.not_eq_true, Bool.or_eq_false_iff] at hsurrogate
    rw [joinSurrogates?_cons hsurrogate.1 hsurrogate.2] at h
    cases h
    exact .cons_of_not_isSurrogate (hlt u List.mem_cons_self) hsurrogate.1 hsurrogate.2 .nil
  | case4 u v us hu hv ih =>
    rw [joinSurrogates?_pair hu hv, Option.map_eq_some_iff] at h
    obtain ⟨cs, hcs, rfl⟩ := h
    have hus := (List.forall_mem_cons.1 (List.forall_mem_cons.1 hlt).2).2
    exact .cons_of_isSurrogate hu hv (ih hus hcs)
  | case5 u v us hu hv => simp [joinSurrogates?, hu, hv] at h
  | case6 u v us hu hv => simp [joinSurrogates?, hu, hv] at h
  | case7 u v us hu hv ih =>
    rw [Bool.not_eq_true] at hu hv
    rw [joinSurrogates?_cons hu hv, Option.map_eq_some_iff] at h
    obtain ⟨cs, hcs, rfl⟩ := h
    obtain ⟨hltu, hltus⟩ := List.forall_mem_cons.1 hlt
    exact .cons_of_not_isSurrogate hltu hu hv (ih hltus hcs)

theorem stringToken_of_denotes {s : String} (h : Denotes us s.toList) :
    stringToken us = .text s := by
  rw [stringToken, joinSurrogates?_of_denotes h]
  exact congrArg Token.text String.ofList_toList

theorem stringToken_of_not_denotes (hlt : ∀ u ∈ us, u < 0x110000) (h : ∀ cs, ¬ Denotes us cs) :
    stringToken us = .unpaired := by
  rw [stringToken]
  cases hjoin : joinSurrogates? us with
  | none => rfl
  | some cs => exact absurd (denotes_of_joinSurrogates? hlt hjoin) (h cs)

end Strings

/-! ## Tokens -/

namespace Token

/-- Whether the token is a number. Two numbers side by side would be read as one. -/
def isNumber : Token → Bool
  | natural _ | otherNumber => true
  | _ => false

/-- Whether the token is a string. The name of a field is one. -/
def isName : Token → Bool
  | text _ | unpaired => true
  | _ => false

/-- Whether the token is a bracket, a separator or a literal: these have one spelling each. -/
def isFixed : Token → Bool
  | natural _ | otherNumber | text _ | unpaired | invalid => false
  | _ => true

theorem spell_ne_nil (t : Token) : t.spell ≠ [] := by
  cases t with
  | boolean b => cases b <;> simp [spell]
  | natural n => exact Nat.toDigits_ne_nil
  | _ => simp [spell]

/-- Only a number can go on with a number. -/
theorem endsNumber_spell {t : Token} (h : t.isNumber = false) (rest : List Char) :
    EndsNumber (t.spell ++ rest) := by
  intro c hc
  cases t with
  | boolean b => cases b <;> cases hc <;> decide
  | natural n | otherNumber => cases h
  | _ => cases hc; decide

end Token

/-- The ways to spell a token. -/
inductive Spelling : Token → List Char → Prop
  | fixed {t : Token} : t.isFixed = true → Spelling t t.spell
  | natural (n : Nat) : Spelling (.natural n) (Nat.toDigits 10 n)
  | otherNumber {minus fraction exponent : List Char} (n : Nat) :
      minus = [] ∨ minus = ['-'] → Fraction fraction → Exponent exponent →
      minus ≠ [] ∨ fraction ≠ [] ∨ exponent ≠ [] →
      Spelling .otherNumber (minus ++ (Nat.toDigits 10 n ++ (fraction ++ exponent)))
  | text {us : List Nat} {body : List Char} {s : String} :
      SpellsUnits us body → Denotes us s.toList → Spelling (.text s) ('"' :: (body ++ ['"']))
  | unpaired {us : List Nat} {body : List Char} :
      SpellsUnits us body → (∀ cs, ¬ Denotes us cs) → Spelling .unpaired ('"' :: (body ++ ['"']))

section Tokens

variable {t : Token} {ts : List Token} {cs rest : List Char}

theorem scan_of_isFixed (h : t.isFixed = true) (rest : List Char) :
    scan (t.spell ++ rest) = some (t, rest) := by
  cases t with
  | boolean b => cases b <;> rfl
  | natural _ | otherNumber | text _ | unpaired | invalid => cases h
  | _ => rfl

theorem scan_string {us : List Nat} {body : List Char} (h : SpellsUnits us body)
    (rest : List Char) :
    scan (('"' :: (body ++ ['"'])) ++ rest) = some (stringToken us, rest) := by
  have hscan := h.scanString rest
  rw [List.cons_append, List.append_assoc, List.singleton_append]
  simp [scan, hscan]

/-- A token is read off each of its spellings, unless it is a number and what follows goes on with
it. -/
theorem scan_spelling (h : Spelling t cs) (hends : t.isNumber = true → EndsNumber rest) :
    scan (cs ++ rest) = some (t, rest) := by
  cases h with
  | fixed hfixed => exact scan_of_isFixed hfixed rest
  | natural n =>
    have hrest : EndsNumber rest := hends rfl
    rw [scan_toDigits_append hrest.endsDigits, scanNumberTail_of_endsNumber hrest]
  | otherNumber n hminus hf he hsome =>
    have hrest : EndsNumber rest := hends rfl
    have htail := hf.endsDigits he hrest
    rw [List.append_assoc, List.append_assoc, List.append_assoc]
    rcases hminus with rfl | rfl
    · rw [List.nil_append, scan_toDigits_append htail]
      refine scanNumberTail_append hf he hrest fun hf he => ?_
      simp [hf, he] at hsome
    · rw [List.singleton_append, scan_minus_toDigits_append htail]
      exact scanNumberTail_append hf he hrest fun _ _ => rfl
  | text hbody hs => rw [scan_string hbody, stringToken_of_denotes hs]
  | unpaired hbody hnone => rw [scan_string hbody, stringToken_of_not_denotes hbody.lt hnone]

theorem Spelling.ne_nil (h : Spelling t cs) : cs ≠ [] := by
  cases h with
  | fixed => exact t.spell_ne_nil
  | natural n => exact Nat.toDigits_ne_nil
  | otherNumber n => simp
  | text | unpaired => exact List.cons_ne_nil _ _

theorem Spelling.endsNumber (h : Spelling t cs) (ht : t.isNumber = false) (rest : List Char) :
    EndsNumber (cs ++ rest) := by
  cases h with
  | fixed => exact Token.endsNumber_spell ht rest
  | natural | otherNumber => cases ht
  | text | unpaired => intro c hc; cases hc; decide

theorem isBlank_iff {c : Char} :
    isBlank c = true ↔ c = ' ' ∨ c = '\t' ∨ c = '\n' ∨ c = '\r' := by
  simp only [isBlank, Bool.or_eq_true, decide_eq_true_eq, or_assoc]

theorem not_isBlank_of_scan {c : Char} {cs : List Char} {x : Token × List Char}
    (h : scan (c :: cs) = some x) : isBlank c = false := by
  by_contra hblank
  rcases isBlank_iff.1 (Bool.of_not_eq_false hblank) with rfl | rfl | rfl | rfl <;> cases h

/-! ## Texts -/

/-- Tokens that are read back off their spelling: all are valid, and no two numbers stand side by
side. -/
def Legible : List Token → Prop
  | [] => True
  | t :: ts =>
    t ≠ .invalid ∧ (t.isNumber = true → ∀ u ∈ ts.head?, u.isNumber = false) ∧ Legible ts

/-- A text of blanks alone. -/
def Blank (cs : List Char) : Prop := ∀ c ∈ cs, isBlank c = true

instance (cs : List Char) : Decidable (Blank cs) := List.decidableBAll _ cs

theorem blank_nil : Blank [] := nofun

/-- The text spells the tokens, each in one of its ways, with any blanks before, between and behind
them. -/
inductive Written : List Token → List Char → Prop
  | nil {blanks : List Char} : Blank blanks → Written [] blanks
  | cons {t : Token} {ts : List Token} {blanks spelling cs : List Char} :
      Blank blanks → Spelling t spelling → Written ts cs →
      Written (t :: ts) (blanks ++ (spelling ++ cs))

/-- No number goes on with a blank. -/
theorem endsNumber_of_isBlank {c : Char} (h : isBlank c = true) (cs : List Char) :
    EndsNumber (c :: cs) := by
  intro d hd
  cases hd
  rcases isBlank_iff.1 h with rfl | rfl | rfl | rfl <;> decide

theorem Written.endsNumber (h : Written ts cs) (hhead : ∀ u ∈ ts.head?, u.isNumber = false) :
    EndsNumber cs := by
  cases h with
  | nil hblank =>
    cases cs with
    | nil => nofun
    | cons c cs => exact endsNumber_of_isBlank (hblank c List.mem_cons_self) cs
  | @cons t ts blanks spelling cs hblank hspelling _ =>
    cases blanks with
    | nil => exact hspelling.endsNumber (hhead t rfl) cs
    | cons c rest => exact endsNumber_of_isBlank (hblank c List.mem_cons_self) _

theorem tokenizeWithin_of_blank {blanks : List Char} (h : Blank blanks) (fuel : Nat)
    (cs : List Char) :
    tokenizeWithin (blanks.length + fuel) (blanks ++ cs) = tokenizeWithin fuel cs := by
  induction blanks with
  | nil => rw [List.length_nil, Nat.zero_add, List.nil_append]
  | cons c blanks ih =>
    obtain ⟨hc, hblanks⟩ := List.forall_mem_cons.1 h
    have hfuel : (c :: blanks).length + fuel = blanks.length + fuel + 1 := by
      rw [List.length_cons]
      omega
    rw [hfuel, List.cons_append, tokenizeWithin, if_pos hc, ih hblanks]

/-- Cutting starts with the first token of the text. -/
theorem tokenizeWithin_of_scan {spelling : List Char} (hne : spelling ≠ [])
    (h : scan (spelling ++ cs) = some (t, cs)) (fuel : Nat) :
    tokenizeWithin (fuel + 1) (spelling ++ cs) = t :: tokenizeWithin fuel cs := by
  obtain ⟨d, ds, rfl⟩ := List.exists_cons_of_ne_nil hne
  rw [List.cons_append] at h ⊢
  simp only [tokenizeWithin, not_isBlank_of_scan h, h, Bool.false_eq_true, if_false]

theorem tokenizeWithin_of_written (h : Written ts cs) (hlegible : Legible ts) {fuel : Nat}
    (hfuel : cs.length ≤ fuel) : tokenizeWithin fuel cs = ts := by
  induction h generalizing fuel with
  | @nil blanks hblank =>
    obtain ⟨fuel, rfl⟩ := Nat.exists_eq_add_of_le hfuel
    have hcut := tokenizeWithin_of_blank hblank fuel []
    rw [List.append_nil] at hcut
    rw [hcut]
    cases fuel <;> rfl
  | @cons t ts blanks spelling cs hblank hspelling hwritten ih =>
    obtain ⟨-, hnumber, hrest⟩ := hlegible
    have hscan : scan (spelling ++ cs) = some (t, cs) :=
      scan_spelling hspelling fun ht => hwritten.endsNumber (hnumber ht)
    have hpos : 0 < spelling.length := List.length_pos_iff.2 hspelling.ne_nil
    rw [List.length_append, List.length_append] at hfuel
    obtain ⟨fuel, rfl⟩ := Nat.exists_eq_add_of_le (by omega : blanks.length + 1 ≤ fuel)
    have hfuel' : blanks.length + 1 + fuel = blanks.length + (fuel + 1) := by omega
    rw [hfuel', tokenizeWithin_of_blank hblank, tokenizeWithin_of_scan hspelling.ne_nil hscan,
      ih hrest (by omega : cs.length ≤ fuel)]

/-- **Cutting undoes spelling**, whichever spellings are used and whatever blanks stand between
them. -/
theorem tokenize_of_written (h : Written ts cs) (hlegible : Legible ts) : tokenize cs = ts :=
  tokenizeWithin_of_written h hlegible (Nat.le_refl _)

end Tokens

end KeyPolicy.Json
