import KeyPolicy.Json.Token
import KeyPolicy.PublicKey

/-!
# Reading values off a list of tokens

A reader takes the tokens of one value off the front of a list. It works from front to back and
stops at the first token that does not fit; what comes behind that token never matters. The reason
it gives is `malformed`, except where a key that was read in full is not admissible: then the reason
is the key's own error.

Each bracket that a reader opens takes one from the number of brackets that may still be opened,
`room`; there has to be one left. Values that nobody asked for are passed over by `skipValue`, which
keeps its own stack of open brackets and has no such limit.

A record is written either as an object, its fields in any order and with unknown fields passed
over, or as an array of its field values in their declared order. Both ways may leave fields out;
whether a field is needed is for the caller to say. A field given twice is an error.
-/

namespace KeyPolicy.Json

/-- Why a value cannot be read. -/
inductive ReadError where
  /-- The text does not have the form that is asked for. -/
  | malformed
  /-- A key has the right form and is not admissible. -/
  | key (error : KeyError)
  deriving DecidableEq, Repr

/-- What comes of a reader: a value and the tokens behind it, or the reason why there is none. -/
abbrev ReadResult (α : Type) := Except ReadError (α × List Token)

/-- A reader, given how many brackets it may open inside each other. -/
abbrev Reader (α : Type) := (room : Nat) → List Token → ReadResult α

/-- How many brackets of a text may be open at the same time. -/
def maxNesting : Nat := 127

/-! ## Values that are passed over -/

inductive Frame where
  | array
  | object
  deriving DecidableEq, Repr

/-- What may come next while a value is passed over. -/
inductive Expected where
  | value
  /-- A value, or the end of an array without elements. -/
  | valueOrEnd
  | name
  /-- A name, or the end of an object without fields. -/
  | nameOrEnd
  | colon
  /-- A comma, or the end of the innermost bracket. -/
  | commaOrEnd
  deriving DecidableEq, Repr

/-- Pass over tokens until all of the given brackets are closed, the innermost first. -/
def skipFrames : List Token → List Frame → Expected → Option (List Token)
  | [], _, _ => none
  | t :: ts, frames, expected =>
    match expected, t with
    | .value, .openBrace | .valueOrEnd, .openBrace => skipFrames ts (.object :: frames) .nameOrEnd
    | .value, .openBracket | .valueOrEnd, .openBracket =>
      skipFrames ts (.array :: frames) .valueOrEnd
    | .value, .null | .value, .boolean _ | .value, .natural _ | .value, .otherNumber
    | .value, .text _ | .value, .unpaired | .valueOrEnd, .null | .valueOrEnd, .boolean _
    | .valueOrEnd, .natural _ | .valueOrEnd, .otherNumber | .valueOrEnd, .text _
    | .valueOrEnd, .unpaired =>
      if frames = [] then some ts else skipFrames ts frames .commaOrEnd
    | .valueOrEnd, .closeBracket | .nameOrEnd, .closeBrace =>
      if frames.tail = [] then some ts else skipFrames ts frames.tail .commaOrEnd
    | .name, .text _ | .name, .unpaired | .nameOrEnd, .text _ | .nameOrEnd, .unpaired =>
      skipFrames ts frames .colon
    | .colon, .colon => skipFrames ts frames .value
    | .commaOrEnd, .comma =>
      match frames with
      | .array :: _ => skipFrames ts frames .value
      | .object :: _ => skipFrames ts frames .name
      | [] => none
    | .commaOrEnd, .closeBracket =>
      match frames with
      | .array :: outer => if outer = [] then some ts else skipFrames ts outer .commaOrEnd
      | _ => none
    | .commaOrEnd, .closeBrace =>
      match frames with
      | .object :: outer => if outer = [] then some ts else skipFrames ts outer .commaOrEnd
      | _ => none
    | _, _ => none

/-- Pass over one value of any form; the tokens behind it. -/
def skipValue (ts : List Token) : Option (List Token) := skipFrames ts [] .value

namespace Reader

variable {α β σ : Type}

def map (f : α → β) (read : Reader α) : Reader β := fun room ts =>
  match read room ts with
  | .ok (a, rest) => .ok (f a, rest)
  | .error e => .error e

def check (f : α → Except ReadError β) (read : Reader α) : Reader β := fun room ts =>
  match read room ts with
  | .ok (a, rest) =>
    match f a with
    | .ok b => .ok (b, rest)
    | .error e => .error e
  | .error e => .error e

/-- Read a number written with digits alone and below a bound. -/
def natural (bound : Nat) : Reader Nat
  | _, .natural n :: ts => if n < bound then .ok (n, ts) else .error .malformed
  | _, _ => .error .malformed

def null : Reader Unit
  | _, .null :: ts => .ok ((), ts)
  | _, _ => .error .malformed

/-- Demand that a value was given. -/
def need : Option α → Except ReadError α
  | some a => .ok a
  | none => .error .malformed

/-! ## Arrays -/

/-- Read the elements of an array with at least one, up to its end. -/
def items (read : Reader α) (room : Nat) : (fuel : Nat) → List Token → ReadResult (List α)
  | 0, _ => .error .malformed
  | fuel + 1, ts =>
    match read room ts with
    | .error e => .error e
    | .ok (a, .closeBracket :: rest) => .ok ([a], rest)
    | .ok (a, .comma :: rest) =>
      match items read room fuel rest with
      | .ok (as, rest) => .ok (a :: as, rest)
      | .error e => .error e
    | .ok _ => .error .malformed

/-- Read an array. Each element takes a token, so the number of tokens bounds the number of
elements. -/
def list (read : Reader α) : Reader (List α)
  | _ + 1, .openBracket :: .closeBracket :: ts => .ok ([], ts)
  | room + 1, .openBracket :: ts => items read room ts.length ts
  | _, _ => .error .malformed

/-! ## Records -/

/-- A field of a record that is being read into `σ`. -/
structure Field (σ : Type) where
  name : String
  isGiven : σ → Bool
  read : σ → Reader σ

/-- The field that is read with `read` and kept as an optional value. -/
def Field.of (name : String) (get : σ → Option α) (set : σ → α → σ) (read : Reader α) :
    Field σ :=
  ⟨name, fun s => (get s).isSome, fun s => read.map (set s)⟩

def fieldValue (fields : List (Field σ)) (s : σ) (name : String) : Reader σ := fun room ts =>
  match fields.find? (·.name = name) with
  | some f => if f.isGiven s then .error .malformed else f.read s room ts
  | none =>
    match skipValue ts with
    | some rest => .ok (s, rest)
    | none => .error .malformed

/-- Read the fields of an object with at least one, up to its end. -/
def objectFields (fields : List (Field σ)) (room : Nat) :
    (fuel : Nat) → σ → List Token → ReadResult σ
  | fuel + 1, s, .text name :: .colon :: ts =>
    match fieldValue fields s name room ts with
    | .error e => .error e
    | .ok (s, .closeBrace :: rest) => .ok (s, rest)
    | .ok (s, .comma :: rest) => objectFields fields room fuel s rest
    | .ok _ => .error .malformed
  | _, _, _ => .error .malformed

/-- Read the elements of an array with at least one as the fields in their declared order. -/
def arrayFields (room : Nat) : List (Field σ) → σ → List Token → ReadResult σ
  | [], _, _ => .error .malformed
  | f :: fields, s, ts =>
    match f.read s room ts with
    | .error e => .error e
    | .ok (s, .closeBracket :: rest) => .ok (s, rest)
    | .ok (s, .comma :: rest) => arrayFields room fields s rest
    | .ok _ => .error .malformed

/-- Read a record, starting from one without any fields. -/
def record (fields : List (Field σ)) (blank : σ) : Reader σ
  | _ + 1, .openBrace :: .closeBrace :: ts => .ok (blank, ts)
  | room + 1, .openBrace :: ts => objectFields fields room ts.length blank ts
  | _ + 1, .openBracket :: .closeBracket :: ts => .ok (blank, ts)
  | room + 1, .openBracket :: ts => arrayFields room fields blank ts
  | _, _ => .error .malformed

/-! ## Variants -/

/-- Read an object with one field, whose name says how its value is to be read. -/
def variant (payload : String → Option (Reader α)) : Reader α
  | room + 1, .openBrace :: .text name :: .colon :: ts =>
    match payload name with
    | none => .error .malformed
    | some read =>
      match read room ts with
      | .error e => .error e
      | .ok (a, .closeBrace :: rest) => .ok (a, rest)
      | .ok _ => .error .malformed
  | _, _ => .error .malformed

/-- Read a whole text: one value and nothing behind it. -/
def parse (read : Reader α) (text : List Char) : Except ReadError α :=
  match read maxNesting (tokenize text) with
  | .ok (a, []) => .ok a
  | .ok _ => .error .malformed
  | .error e => .error e

end Reader

end KeyPolicy.Json
