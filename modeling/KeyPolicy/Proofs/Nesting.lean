import Mathlib.Data.List.Forall2
import KeyPolicy.Proofs.Tokens

/-!
# How deeply the brackets of a text nest

`nesting` counts brackets in the characters of a text and knows nothing of tokens or values. For
the texts that writers make it can be read off the value: `Writes w height` says that the writer
puts one value of the given height in front of whatever follows. There is one rule for each way of
making a writer, so the height of a value is one more than the tallest of its parts for an array, an
object or a variant, and zero for a number or a name.

Blanks between the tokens have no brackets, so a text may be spaced in any way
(`Writes.nesting_of_spaced`).

A string may hold brackets that open nothing. The writers here write no strings but fixed names, and
none of those has a bracket (`Bracketless`, which is decidable).
-/

namespace KeyPolicy.Json

/-! ## The nesting of a text -/

/-- The number of brackets that are open behind a character, where `n` are open before it. -/
def openAfter (n : Nat) (c : Char) : Nat :=
  if c = '{' ∨ c = '[' then n + 1 else if c = '}' ∨ c = ']' then n - 1 else n

/-- The deepest count of brackets that are open at the same time, where `n` are open at first. -/
def deepest (n : Nat) : List Char → Nat
  | [] => n
  | c :: cs => max n (deepest (openAfter n c) cs)

/-- The bracket nesting of a text: the deepest count of brackets that are open at the same time. -/
def nesting (text : String) : Nat := deepest 0 text.toList

theorem le_deepest (n : Nat) (cs : List Char) : n ≤ deepest n cs := by
  cases cs with
  | nil => exact Nat.le_refl n
  | cons c cs => exact Nat.le_max_left ..

/-- A text without brackets. -/
def Bracketless (cs : List Char) : Prop := ∀ c ∈ cs, c ≠ '{' ∧ c ≠ '[' ∧ c ≠ '}' ∧ c ≠ ']'

instance (cs : List Char) : Decidable (Bracketless cs) := List.decidableBAll _ cs

theorem deepest_append_of_bracketless {cs : List Char} (h : Bracketless cs) (n : Nat)
    (rest : List Char) : deepest n (cs ++ rest) = deepest n rest := by
  induction cs with
  | nil => rfl
  | cons c cs ih =>
    obtain ⟨hc, hcs⟩ := List.forall_mem_cons.1 h
    have hopen : openAfter n c = n := by simp [openAfter, hc]
    rw [List.cons_append, deepest, hopen, ih hcs, Nat.max_eq_right (le_deepest n rest)]

/-! ## The nesting of spelled tokens -/

/-- The deepest count of open brackets in the text of some tokens, where `n` are open before it. -/
def deepestOf (n : Nat) (ts : List Token) : Nat := deepest n (spellAll ts)

theorem le_deepestOf (n : Nat) (ts : List Token) : n ≤ deepestOf n ts := le_deepest n _

theorem deepestOf_of_bracketless {t : Token} (h : Bracketless t.spell) (n : Nat) (ts : List Token) :
    deepestOf n (t :: ts) = deepestOf n ts :=
  deepest_append_of_bracketless h n (spellAll ts)

theorem bracketless_natural (n : Nat) : Bracketless (Token.natural n).spell := by
  intro c hc
  have hdigit : c.isDigit = true := Nat.isDigit_of_mem_toDigits (by decide) (by decide) hc
  refine ⟨?_, ?_, ?_, ?_⟩ <;> rintro rfl <;> exact absurd hdigit (by decide)

theorem deepestOf_comma (n : Nat) (ts : List Token) :
    deepestOf n (.comma :: ts) = deepestOf n ts :=
  deepestOf_of_bracketless (t := .comma) (by decide) n ts

theorem deepestOf_colon (n : Nat) (ts : List Token) :
    deepestOf n (.colon :: ts) = deepestOf n ts :=
  deepestOf_of_bracketless (t := .colon) (by decide) n ts

theorem deepestOf_open {t : Token} (h : t = .openBrace ∨ t = .openBracket) (n : Nat)
    (ts : List Token) : deepestOf n (t :: ts) = deepestOf (n + 1) ts := by
  have hle : n ≤ deepestOf (n + 1) ts := Nat.le_trans (Nat.le_succ n) (le_deepestOf (n + 1) ts)
  rcases h with rfl | rfl <;> exact Nat.max_eq_right hle

theorem deepestOf_close {t : Token} (h : t = .closeBrace ∨ t = .closeBracket) (n : Nat)
    (ts : List Token) : deepestOf (n + 1) (t :: ts) = max (n + 1) (deepestOf n ts) := by
  rcases h with rfl | rfl <;> rfl

theorem deepest_append_congr {rest rest' : List Char}
    (h : ∀ n, deepest n rest = deepest n rest') (n : Nat) (cs : List Char) :
    deepest n (cs ++ rest) = deepest n (cs ++ rest') := by
  induction cs generalizing n with
  | nil => exact h n
  | cons c cs ih => rw [List.cons_append, List.cons_append, deepest, deepest, ih]

theorem bracketless_of_blank {cs : List Char} (h : Blank cs) : Bracketless cs := by
  intro c hc
  rcases isBlank_iff.1 (h c hc) with rfl | rfl | rfl | rfl <;> decide

/-- Blanks between the tokens change nothing. -/
theorem deepest_of_spaced {ts : List Token} {cs : List Char} (h : Spaced ts cs) (n : Nat) :
    deepest n cs = deepestOf n ts := by
  induction h generalizing n with
  | @nil blanks hblank =>
    have hdeepest := deepest_append_of_bracketless (bracketless_of_blank hblank) n []
    rwa [List.append_nil] at hdeepest
  | @cons t ts blanks cs hblank _ ih =>
    rw [deepest_append_of_bracketless (bracketless_of_blank hblank)]
    exact deepest_append_congr ih n t.spell

/-! ## Writers of one value -/

theorem Writer.spaced_toText (w : Writer) : Spaced (w []) w.toText.toList := by
  rw [toText, String.toList_ofList]
  exact spaced_spellAll (w [])

/-- The largest of some heights, zero if there are none. -/
def tallest (heights : List Nat) : Nat := heights.foldr max 0

theorem tallest_singleton (height : Nat) : tallest [height] = height := Nat.max_zero height

theorem tallest_zeros {γ : Type} (xs : List γ) : tallest (xs.map fun _ => 0) = 0 := by
  induction xs with
  | nil => rfl
  | cons x xs ih => exact (Nat.zero_max _).trans ih

theorem tallest_le_iff {heights : List Nat} {n : Nat} :
    tallest heights ≤ n ↔ ∀ height ∈ heights, height ≤ n := by
  induction heights with
  | nil => simp [tallest]
  | cons height heights ih =>
    rw [tallest, List.foldr_cons, Nat.max_le, List.forall_mem_cons]
    exact and_congr_right fun _ => ih

theorem tallest_perm {heights heights' : List Nat} (h : heights.Perm heights') :
    tallest heights = tallest heights' := by
  refine Nat.le_antisymm (tallest_le_iff.2 fun n hn => ?_) (tallest_le_iff.2 fun n hn => ?_)
  · exact tallest_le_iff.1 (Nat.le_refl _) n (h.mem_iff.1 hn)
  · exact tallest_le_iff.1 (Nat.le_refl _) n (h.mem_iff.2 hn)

/-- The tokens do not start with a number. -/
def StartsApart (ts : List Token) : Prop := ∀ t ∈ ts.head?, t.isNumber = false

/-- The writer puts one value in front of what follows. -/
structure WritesValue (w : Writer) : Prop where
  grows : ∀ rest, rest.length ≤ (w rest).length
  head?_ne : ∀ rest, (w rest).head? ≠ some .closeBracket
  legible : ∀ {rest}, StartsApart rest → Legible rest → Legible (w rest)

/-- The writer puts one value of the given bracket nesting in front of what follows. -/
structure Writes (w : Writer) (height : Nat) : Prop extends WritesValue w where
  deepestOf_eq : ∀ n rest, deepestOf n (w rest) = max (n + height) (deepestOf n rest)

theorem WritesValue.token {t : Token} (hvalid : t ≠ .invalid) (hclose : t ≠ .closeBracket) :
    WritesValue fun rest => t :: rest where
  grows _ := Nat.le_succ _
  head?_ne _ h := hclose (Option.some.inj h)
  legible hapart hrest := ⟨hvalid, fun _ => hapart, hrest⟩

/-- A field is a value behind a name and a colon. -/
theorem WritesValue.field {name : Token} {w : Writer} (hname : name.isName = true)
    (hw : WritesValue w) : WritesValue fun rest => name :: .colon :: w rest where
  grows rest := by
    have hgrows := hw.grows rest
    simp only [List.length_cons]
    omega
  head?_ne rest h := by
    cases h
    cases hname
  legible hapart hrest := by
    have hvalid : name ≠ .invalid := by rintro rfl; cases hname
    have hnumber : name.isNumber = false := by cases name <;> first | rfl | cases hname
    exact ⟨hvalid, fun h => absurd (hnumber.symm.trans h) Bool.false_ne_true, Token.noConfusion,
      nofun, hw.legible hapart hrest⟩

namespace Writes

theorem natural (n : Nat) : Writes (.natural n) 0 where
  toWritesValue := .token Token.noConfusion Token.noConfusion
  deepestOf_eq n rest := by
    rw [Writer.natural, deepestOf_of_bracketless (bracketless_natural _), Nat.add_zero,
      Nat.max_eq_right (le_deepestOf n rest)]

theorem text {s : String} (h : Bracketless (Token.text s).spell) : Writes (.text s) 0 where
  toWritesValue := .token Token.noConfusion Token.noConfusion
  deepestOf_eq n rest := by
    rw [Writer.text, deepestOf_of_bracketless h, Nat.add_zero,
      Nat.max_eq_right (le_deepestOf n rest)]

/-- A field is as deep as its value. -/
theorem field {name : String} {w : Writer} {height : Nat}
    (hname : Bracketless (Token.text name).spell) (hw : Writes w height) :
    Writes (fun rest => .text name :: .colon :: w rest) height where
  toWritesValue := hw.toWritesValue.field rfl
  deepestOf_eq n rest := by
    rw [deepestOf_of_bracketless hname, deepestOf_colon, hw.deepestOf_eq]

end Writes

/-! ## Several values in brackets -/

namespace Writer

/-- Write further values, each behind a comma, and a closing bracket. -/
def more (closing : Token) (ws : List Writer) : Writer := fun rest =>
  ws.foldr (fun w behind => .comma :: w behind) (closing :: rest)

theorem more_cons (closing : Token) (w : Writer) (ws : List Writer) (rest : List Token) :
    more closing (w :: ws) rest = .comma :: w (more closing ws rest) := rfl

/-- Write values in brackets, with commas between them. -/
def enclosed (opening closing : Token) : List Writer → Writer
  | [], rest => opening :: closing :: rest
  | w :: ws, rest => opening :: w (more closing ws rest)

theorem moreItems_eq (ws : List Writer) : moreItems ws = more .closeBracket ws := by
  funext rest
  induction ws with
  | nil => rfl
  | cons w ws ih => rw [moreItems, ih]; rfl

theorem moreFields_eq (fields : List (String × Writer)) :
    moreFields fields =
      more .closeBrace (fields.map fun f rest => .text f.1 :: .colon :: f.2 rest) := by
  funext rest
  induction fields with
  | nil => rfl
  | cons f fields ih => rw [moreFields, ih]; rfl

theorem list_eq (ws : List Writer) : list ws = enclosed .openBracket .closeBracket ws := by
  funext rest
  cases ws with
  | nil => rfl
  | cons w ws => rw [list, moreItems_eq]; rfl

theorem record_eq (fields : List (String × Writer)) :
    record fields =
      enclosed .openBrace .closeBrace
        (fields.map fun f rest => .text f.1 :: .colon :: f.2 rest) := by
  funext rest
  cases fields with
  | nil => rfl
  | cons f fields => rw [record, moreFields_eq]; rfl

end Writer

/-- Both kinds of closing brackets. -/
def IsClosing (t : Token) : Prop := t = .closeBrace ∨ t = .closeBracket

def IsOpening (t : Token) : Prop := t = .openBrace ∨ t = .openBracket

section Enclosed

variable {closing opening : Token} {w : Writer} {ws : List Writer} {height : Nat}
  {heights : List Nat}

theorem startsApart_more (hc : IsClosing closing) (ws : List Writer) (rest : List Token) :
    StartsApart (Writer.more closing ws rest) := by
  cases ws with
  | nil => rcases hc with rfl | rfl <;> (intro t ht; cases ht; rfl)
  | cons w ws => intro t ht; cases ht; rfl

namespace WritesValue

theorem grows_more (h : ∀ w ∈ ws, WritesValue w) (rest : List Token) :
    rest.length + ws.length < (Writer.more closing ws rest).length := by
  induction ws with
  | nil => simp [Writer.more]
  | cons w ws ih =>
    obtain ⟨hw, hws⟩ := List.forall_mem_cons.1 h
    have hgrows := hw.grows (Writer.more closing ws rest)
    have hmore := ih hws
    simp only [Writer.more, List.foldr_cons, List.length_cons] at hgrows hmore ⊢
    omega

theorem legible_more (hc : IsClosing closing) (h : ∀ w ∈ ws, WritesValue w)
    {rest : List Token} (hrest : Legible rest) : Legible (Writer.more closing ws rest) := by
  induction ws with
  | nil => rcases hc with rfl | rfl <;> exact ⟨Token.noConfusion, nofun, hrest⟩
  | cons w ws ih =>
    obtain ⟨hw, hws⟩ := List.forall_mem_cons.1 h
    exact ⟨Token.noConfusion, nofun, hw.legible (startsApart_more hc _ _) (ih hws)⟩

/-- Values in brackets are a value. -/
theorem enclosed (ho : IsOpening opening) (hc : IsClosing closing) (h : ∀ w ∈ ws, WritesValue w) :
    WritesValue (.enclosed opening closing ws) where
  grows rest := by
    cases ws with
    | nil => simp only [Writer.enclosed, List.length_cons]; omega
    | cons w ws =>
      obtain ⟨hw, hws⟩ := List.forall_mem_cons.1 h
      have hgrows := hw.grows (Writer.more closing ws rest)
      have hmore : _ < (Writer.more closing ws rest).length := grows_more hws rest
      simp only [Writer.enclosed, List.length_cons]
      omega
  head?_ne rest := by
    cases ws <;> rcases ho with rfl | rfl <;> nofun
  legible hapart hrest := by
    have hopen : ∀ {ts}, Legible ts → Legible (opening :: ts) := fun hts => by
      rcases ho with rfl | rfl <;> exact ⟨Token.noConfusion, nofun, hts⟩
    cases ws with
    | nil => exact hopen (legible_more hc h hrest)
    | cons w ws =>
      obtain ⟨hw, hws⟩ := List.forall_mem_cons.1 h
      exact hopen (hw.legible (startsApart_more hc _ _) (legible_more hc hws hrest))

end WritesValue

namespace Writes

theorem writesValue_of_forall₂ (h : List.Forall₂ Writes ws heights) :
    ∀ w ∈ ws, WritesValue w := by
  induction h with
  | nil => nofun
  | cons hw _ ih => exact List.forall_mem_cons.2 ⟨hw.toWritesValue, ih⟩

theorem deepestOf_more (hc : IsClosing closing) (h : List.Forall₂ Writes ws heights) (n : Nat)
    (rest : List Token) :
    deepestOf (n + 1) (Writer.more closing ws rest) =
      max (n + 1 + tallest heights) (deepestOf n rest) := by
  induction h with
  | nil => exact deepestOf_close hc n rest
  | @cons w _ ws heights hw _ ih =>
    show deepestOf (n + 1) (.comma :: w (Writer.more closing ws rest)) = _
    rw [deepestOf_comma, hw.deepestOf_eq, ih, tallest, tallest, List.foldr_cons]
    omega

/-- Values in brackets are one deeper than the deepest of them. -/
theorem enclosed (ho : IsOpening opening) (hc : IsClosing closing)
    (h : List.Forall₂ Writes ws heights) :
    Writes (.enclosed opening closing ws) (1 + tallest heights) where
  toWritesValue := .enclosed ho hc (writesValue_of_forall₂ h)
  deepestOf_eq n rest := by
    cases h with
    | nil =>
      rw [Writer.enclosed, deepestOf_open ho, deepestOf_close hc]
      rfl
    | cons hw hws =>
      rw [Writer.enclosed, deepestOf_open ho, hw.deepestOf_eq, deepestOf_more hc hws, tallest,
        tallest, List.foldr_cons]
      omega

/-- An array is one bracket deeper than its deepest element. -/
theorem list (h : List.Forall₂ Writes ws heights) : Writes (.list ws) (1 + tallest heights) :=
  Writer.list_eq ws ▸ enclosed (.inr rfl) (.inr rfl) h

/-- An object is one bracket deeper than its deepest field. -/
theorem record {fields : List (String × Writer)}
    (h : List.Forall₂ (fun f height => Bracketless (Token.text f.1).spell ∧ Writes f.2 height)
      fields heights) : Writes (.record fields) (1 + tallest heights) := by
  have hws := List.forall₂_map_left_iff.2 (h.imp fun _ _ hf => field hf.1 hf.2)
  exact Writer.record_eq fields ▸ enclosed (.inl rfl) (.inl rfl) hws

theorem variant {name : String} (hname : Bracketless (Token.text name).spell)
    (hw : Writes w height) : Writes (.variant name w) (1 + height) := by
  have h : Writes (.record [(name, w)]) (1 + tallest [height]) := record (.cons ⟨hname, hw⟩ .nil)
  rwa [tallest_singleton] at h

end Writes

end Enclosed

/-! ## Whole texts -/

namespace Writes

variable {w : Writer} {height : Nat}

/-- A text has the nesting of the value that it spells, whatever blanks are in it. -/
theorem nesting_of_spaced (h : Writes w height) {text : String}
    (hspaced : Spaced (w []) text.toList) : nesting text = height := by
  rw [nesting, deepest_of_spaced hspaced, h.deepestOf_eq, Nat.zero_add]
  exact Nat.max_zero height

theorem nesting_toText (h : Writes w height) : nesting w.toText = height :=
  h.nesting_of_spaced w.spaced_toText

theorem tokenize_of_spaced (h : Writes w height) {cs : List Char} (hspaced : Spaced (w []) cs) :
    tokenize cs = w [] :=
  Json.tokenize_of_spaced hspaced (h.legible nofun trivial)

end Writes

end KeyPolicy.Json
