/-!
# The tokens of a JSON text

A JSON text is first cut into tokens: brackets, separators, literals, numbers and strings, with any
blanks between them. Cutting never fails as a whole. Where no token can be read, the list ends with
`Token.invalid`, so a reader that works from front to back meets the damage only if it gets there.

Only what a reader has to tell apart is kept. A number without sign, fraction and exponent is kept
as its value; every other number is just `Token.otherNumber`. A string is kept as the text that it
denotes; a string whose escapes contain half of a surrogate pair denotes no text, and is just
`Token.unpaired`.
-/

namespace KeyPolicy.Json

inductive Token where
  | openBrace
  | closeBrace
  | openBracket
  | closeBracket
  | colon
  | comma
  | null
  | boolean (value : Bool)
  /-- A number written with digits alone. -/
  | natural (value : Nat)
  /-- A number with a sign, a fraction or an exponent. -/
  | otherNumber
  /-- A string, as the text that it denotes. -/
  | text (value : String)
  /-- A string that denotes no text, because half of a surrogate pair is missing. -/
  | unpaired
  /-- No token can be read here. -/
  | invalid
  deriving DecidableEq, Repr

/-- The four characters that may stand between tokens. -/
def isBlank (c : Char) : Bool := c = ' ' || c = '\t' || c = '\n' || c = '\r'

/-! ## Numbers -/

/-- Read the digits of a whole number. A leading zero stands alone. -/
def scanInteger (cs : List Char) : Option (Nat × List Char) :=
  let digits := cs.takeWhile Char.isDigit
  if digits = [] ∨ (digits.head? = some '0' ∧ 1 < digits.length) then none
  else some (Nat.ofDigitChars 10 digits 0, cs.dropWhile Char.isDigit)

/-- Pass over one digit or more. -/
def skipDigits (cs : List Char) : Option (List Char) :=
  if cs.takeWhile Char.isDigit = [] then none else some (cs.dropWhile Char.isDigit)

/-- Pass over an exponent, behind its letter. -/
def skipExponent : List Char → Option (List Char)
  | '+' :: cs => skipDigits cs
  | '-' :: cs => skipDigits cs
  | cs => skipDigits cs

/-- Pass over a fraction, behind its point, and over an exponent if one follows. -/
def skipFraction (cs : List Char) : Option (List Char) :=
  match skipDigits cs with
  | some ('e' :: rest) => skipExponent rest
  | some ('E' :: rest) => skipExponent rest
  | other => other

/-- Read a number that has the given value before any fraction and exponent. -/
def scanNumberTail (t : Token) : List Char → Option (Token × List Char)
  | '.' :: cs => (skipFraction cs).map (.otherNumber, ·)
  | 'e' :: cs => (skipExponent cs).map (.otherNumber, ·)
  | 'E' :: cs => (skipExponent cs).map (.otherNumber, ·)
  | cs => some (t, cs)

def scanNumber : List Char → Option (Token × List Char)
  | '-' :: cs => (scanInteger cs).bind fun (_, rest) => scanNumberTail .otherNumber rest
  | cs => (scanInteger cs).bind fun (n, rest) => scanNumberTail (.natural n) rest

/-! ## Strings -/

def hexValue? (c : Char) : Option Nat :=
  if c.isDigit then some (c.toNat - 48)
  else if 'a' ≤ c ∧ c ≤ 'f' then some (c.toNat - 87)
  else if 'A' ≤ c ∧ c ≤ 'F' then some (c.toNat - 55)
  else none

def hexUnit? (a b c d : Char) : Option Nat := do
  let a ← hexValue? a
  let b ← hexValue? b
  let c ← hexValue? c
  let d ← hexValue? d
  return ((a * 16 + b) * 16 + c) * 16 + d

/-- The code point that a one-letter escape stands for. -/
def escape? : Char → Option Nat
  | '"' => some 0x22
  | '\\' => some 0x5C
  | '/' => some 0x2F
  | 'b' => some 0x08
  | 'f' => some 0x0C
  | 'n' => some 0x0A
  | 'r' => some 0x0D
  | 't' => some 0x09
  | _ => none

/-- Read a string behind its opening quote: a number for each character and each escape. An escape
in hexadecimal gives a UTF-16 code unit, anything else a code point. -/
def scanString : List Char → Option (List Nat × List Char)
  | [] => none
  | '"' :: cs => some ([], cs)
  | '\\' :: 'u' :: a :: b :: c :: d :: cs =>
    (hexUnit? a b c d).bind fun u => (scanString cs).map fun (us, rest) => (u :: us, rest)
  | '\\' :: c :: cs =>
    (escape? c).bind fun u => (scanString cs).map fun (us, rest) => (u :: us, rest)
  | c :: cs =>
    if c.toNat < 0x20 then none
    else (scanString cs).map fun (us, rest) => (c.toNat :: us, rest)

def isHighSurrogate (u : Nat) : Bool := 0xD800 ≤ u && u < 0xDC00

def isLowSurrogate (u : Nat) : Bool := 0xDC00 ≤ u && u < 0xE000

/-- The text that the numbers of a string denote: neighbouring halves of a surrogate pair make one
character, and a half without its partner makes the whole string meaningless. -/
def joinSurrogates? : List Nat → Option (List Char)
  | [] => some []
  | [u] => if isHighSurrogate u || isLowSurrogate u then none else some [Char.ofNat u]
  | u :: v :: us =>
    if isHighSurrogate u then
      if isLowSurrogate v then
        (joinSurrogates? us).map
          (Char.ofNat (0x10000 + (u - 0xD800) * 0x400 + (v - 0xDC00)) :: ·)
      else none
    else if isLowSurrogate u then none
    else (joinSurrogates? (v :: us)).map (Char.ofNat u :: ·)

def stringToken (us : List Nat) : Token :=
  match joinSurrogates? us with
  | some cs => .text (String.ofList cs)
  | none => .unpaired

/-! ## Cutting a text -/

/-- Read one token off a text that does not start with a blank. -/
def scan : List Char → Option (Token × List Char)
  | '{' :: cs => some (.openBrace, cs)
  | '}' :: cs => some (.closeBrace, cs)
  | '[' :: cs => some (.openBracket, cs)
  | ']' :: cs => some (.closeBracket, cs)
  | ':' :: cs => some (.colon, cs)
  | ',' :: cs => some (.comma, cs)
  | '"' :: cs => (scanString cs).map fun (us, rest) => (stringToken us, rest)
  | 'n' :: 'u' :: 'l' :: 'l' :: cs => some (.null, cs)
  | 't' :: 'r' :: 'u' :: 'e' :: cs => some (.boolean true, cs)
  | 'f' :: 'a' :: 'l' :: 's' :: 'e' :: cs => some (.boolean false, cs)
  | cs => scanNumber cs

/-- The tokens of a text of at most `fuel` characters. -/
def tokenizeWithin : (fuel : Nat) → List Char → List Token
  | 0, _ => []
  | _ + 1, [] => []
  | fuel + 1, c :: cs =>
    if isBlank c then tokenizeWithin fuel cs
    else
      match scan (c :: cs) with
      | none => [.invalid]
      | some (t, rest) => t :: tokenizeWithin fuel rest

/-- The tokens of a text. Each token takes at least one character, so the length of the text bounds
the number of steps. -/
def tokenize (cs : List Char) : List Token := tokenizeWithin cs.length cs

/-! ## Spelling a token -/

/-- How a character is written inside a string. -/
def spellChar (c : Char) : List Char :=
  if c = '"' then ['\\', '"']
  else if c = '\\' then ['\\', '\\']
  else if c.toNat < 0x20 then
    ['\\', 'u', '0', '0', Nat.digitChar (c.toNat / 16), Nat.digitChar (c.toNat % 16)]
  else [c]

/-- One spelling of each token, without blanks. Numbers are in decimal. -/
def Token.spell : Token → List Char
  | openBrace => ['{']
  | closeBrace => ['}']
  | openBracket => ['[']
  | closeBracket => [']']
  | colon => [':']
  | comma => [',']
  | null => ['n', 'u', 'l', 'l']
  | boolean true => ['t', 'r', 'u', 'e']
  | boolean false => ['f', 'a', 'l', 's', 'e']
  | natural n => Nat.toDigits 10 n
  | otherNumber => ['-', '0']
  | text s => '"' :: (s.toList.flatMap spellChar ++ ['"'])
  | unpaired => ['"', '\\', 'u', 'd', '8', '0', '0', '"']
  | invalid => ['?']

def spellAll (ts : List Token) : List Char := ts.flatMap Token.spell

end KeyPolicy.Json
