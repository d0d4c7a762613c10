import KeyPolicy.Expander

/-!
# Events

What the service reports while it works. Each event has a level, a message and named values.
-/

namespace KeyPolicy

inductive Severity where
  | debug
  | warn
  deriving DecidableEq, Repr

def Severity.name : Severity → String
  | debug => "DEBUG"
  | warn => "WARN"

/-- A named value of an event. -/
inductive EventValue where
  | count (value : Nat)
  | flag (value : Bool)
  | text (value : String)
  deriving DecidableEq, Repr

/-- A report of the service. -/
inductive Event where
  /-- Policies were expanded into so many pairs. -/
  | expanded (policies signatures pairs : Nat)
  /-- Policies were refused. -/
  | refused (policies signatures : Nat) (error : ExpansionError)
  /-- Signatures that name their key in full were resolved into so many pairs. -/
  | fullPrefixesExpanded (signatures pairs : Nat)
  /-- So many of the candidates were verified, with this outcome. -/
  | authorizationEvaluated (candidates verified : Nat) (authorized : Bool)
  deriving DecidableEq, Repr

namespace Event

/-- The event that reports the outcome of an expansion. -/
def ofExpansion (policies : List Policy) (m : SignatureMap) :
    Except ExpansionError ResolvedSet → Event
  | .ok found => expanded policies.length m.size found.size
  | .error e => refused policies.length m.size e

/-- How serious the event is. Only refused policies are worth a warning. -/
def severity : Event → Severity
  | refused _ _ _ => .warn
  | _ => .debug

def message : Event → String
  | expanded _ _ _ => "Signature pairs expanded"
  | refused _ _ _ => "Signature expansion rejected key structure"
  | fullPrefixesExpanded _ _ => "Full-prefix signature pairs expanded"
  | authorizationEvaluated _ _ _ => "Key authorization evaluated"

def values : Event → List (String × EventValue)
  | expanded policies signatures pairs =>
    [("keys", .count policies), ("signature_pairs", .count signatures), ("expanded", .count pairs)]
  | refused policies signatures error =>
    [("keys", .count policies), ("signature_pairs", .count signatures),
      ("error", .text error.message)]
  | fullPrefixesExpanded signatures pairs =>
    [("signature_pairs", .count signatures), ("expanded", .count pairs)]
  | authorizationEvaluated candidates verified authorized =>
    [("candidates", .count candidates), ("verified", .count verified),
      ("authorized", .flag authorized)]

end Event

end KeyPolicy
