import KeyPolicy.Json.Token

/-!
# Writing values as tokens

A writer puts the tokens of one value in front of the tokens that follow. Records are written as
objects, their fields in declared order, and nothing is left out. The text of a value is the
spelling of its tokens without any blanks.
-/

namespace KeyPolicy.Json

/-- A writer of one value, given the tokens that follow it. -/
abbrev Writer := (rest : List Token) → List Token

namespace Writer

def natural (n : Nat) : Writer := fun rest => .natural n :: rest

def text (s : String) : Writer := fun rest => .text s :: rest

/-- Write the remaining elements of an array and its end. -/
def moreItems : List Writer → Writer
  | [], rest => .closeBracket :: rest
  | w :: ws, rest => .comma :: w (moreItems ws rest)

def list : List Writer → Writer
  | [], rest => .openBracket :: .closeBracket :: rest
  | w :: ws, rest => .openBracket :: w (moreItems ws rest)

/-- Write the remaining fields of an object and its end. -/
def moreFields : List (String × Writer) → Writer
  | [], rest => .closeBrace :: rest
  | (name, w) :: fields, rest => .comma :: .text name :: .colon :: w (moreFields fields rest)

def record : List (String × Writer) → Writer
  | [], rest => .openBrace :: .closeBrace :: rest
  | (name, w) :: fields, rest => .openBrace :: .text name :: .colon :: w (moreFields fields rest)

/-- Write a variant: an object whose only field is named for the variant. -/
def variant (name : String) (w : Writer) : Writer := record [(name, w)]

def toText (w : Writer) : String := String.ofList (spellAll (w []))

end Writer

end KeyPolicy.Json
