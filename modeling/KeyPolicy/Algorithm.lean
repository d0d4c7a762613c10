/-!
# Signature algorithms

Two signature algorithms are known. Each has public keys of one fixed length, a name used in
documents, and a label used in messages. Algorithms are ordered, Ed25519 first, so that sets of
keys can be listed in one agreed order.
-/

namespace KeyPolicy

/-- The algorithm of a public key or of a signature. -/
inductive Algorithm where
  | ed25519
  | ecdsaSecp256k1
  deriving DecidableEq, Repr

namespace Algorithm

/-- The length in bytes of every public key of the algorithm; secp256k1 keys are compressed. -/
def keyLength : Algorithm → Nat
  | ed25519 => 32
  | ecdsaSecp256k1 => 33

/-- The name under which documents mention the algorithm. -/
def name : Algorithm → String
  | ed25519 => "Ed25519"
  | ecdsaSecp256k1 => "EcdsaSecp256k1"

/-- The label under which messages mention the algorithm. -/
def label : Algorithm → String
  | ed25519 => "ED25519"
  | ecdsaSecp256k1 => "ECDSA_SECP256K1"

/-- The algorithm with the given name. Names are case sensitive. -/
def ofName? (s : String) : Option Algorithm :=
  if s = "Ed25519" then some ed25519
  else if s = "EcdsaSecp256k1" then some ecdsaSecp256k1
  else none

@[simp] theorem ofName?_name (a : Algorithm) : ofName? a.name = some a := by
  cases a <;> simp [ofName?, name]

theorem name_injective {a b : Algorithm} (h : a.name = b.name) : a = b := by
  have := congrArg ofName? h
  simpa using this

/-! ## Order -/

/-- The position of the algorithm in the agreed order. -/
def rank : Algorithm → Nat
  | ed25519 => 0
  | ecdsaSecp256k1 => 1

theorem rank_injective {a b : Algorithm} (h : a.rank = b.rank) : a = b := by
  cases a <;> cases b <;> simp_all [rank]

instance : Ord Algorithm := ⟨compareOn rank⟩

instance : Std.TransOrd Algorithm := inferInstanceAs (Std.TransCmp (compareOn rank))

instance : Std.LawfulEqOrd Algorithm where
  eq_of_compare {a b} h :=
    rank_injective (Std.LawfulEqOrd.eq_of_compare (h : compare a.rank b.rank = .eq))

end Algorithm

end KeyPolicy
