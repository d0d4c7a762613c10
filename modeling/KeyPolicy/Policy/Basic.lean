import KeyPolicy.PublicKey

/-!
# Authorization policies

A policy is a finite tree. Its leaves are single public keys; an inner node asks for all of its
children, or for at least a given number of them. Four further variants name authorizations that
no signature can provide: a contract, a contract reached by delegation, and two kinds of legacy
key material.

The number that a threshold asks for is kept as it was given. Zero, or more than there are
children, is not an error of the tree; what it means is for the evaluator to say
(`KeyPolicy.Policy.Satisfaction`).
-/

namespace KeyPolicy

/-- Who has to agree. -/
inductive Policy where
  /-- The holder of one public key. -/
  | key (key : PublicKey)
  /-- Every child. -/
  | allOf (children : List Policy)
  /-- At least `threshold` of the children, counted by position. -/
  | threshold (threshold : UInt32) (children : List Policy)
  /-- A contract, by a direct call. -/
  | contract (id : UInt64)
  /-- A contract, also by a delegated call. -/
  | delegatableContract (id : UInt64)
  /-- Legacy RSA-3072 key material. -/
  | rsa3072 (bytes : Bytes)
  /-- Legacy ECDSA P-384 key material. -/
  | ecdsaP384 (bytes : Bytes)

/-! ## Kinds of nodes -/

/-- What kind of node a policy is at its root. -/
inductive Kind where
  | ed25519
  | ecdsaSecp256k1
  | keyList
  | thresholdKey
  | contractId
  | delegatableContractId
  | rsa3072
  | ecdsaP384
  deriving DecidableEq, Repr

def Kind.name : Kind → String
  | ed25519 => "ed25519"
  | ecdsaSecp256k1 => "ecdsa_secp256k1"
  | keyList => "key_list"
  | thresholdKey => "threshold_key"
  | contractId => "contract_id"
  | delegatableContractId => "delegatable_contract_id"
  | rsa3072 => "rsa_3072"
  | ecdsaP384 => "ecdsa_384"

/-- The kind of a public key's leaf. -/
def Kind.ofAlgorithm : Algorithm → Kind
  | .ed25519 => .ed25519
  | .ecdsaSecp256k1 => .ecdsaSecp256k1

namespace Policy

def kind : Policy → Kind
  | key k => .ofAlgorithm k.algorithm
  | allOf _ => .keyList
  | threshold _ _ => .thresholdKey
  | contract _ => .contractId
  | delegatableContract _ => .delegatableContractId
  | rsa3072 _ => .rsa3072
  | ecdsaP384 _ => .ecdsaP384

/-- The children of a composite node, in declaration order; nothing for the other variants. -/
def children? : Policy → Option (List Policy)
  | allOf cs => some cs
  | threshold _ cs => some cs
  | _ => none

def threshold? : Policy → Option UInt32
  | threshold m _ => some m
  | _ => none

/-- Prove a property of all policies from the children up. -/
theorem induction {P : Policy → Prop}
    (key : ∀ k, P (.key k))
    (allOf : ∀ cs, (∀ c ∈ cs, P c) → P (.allOf cs))
    (threshold : ∀ m cs, (∀ c ∈ cs, P c) → P (.threshold m cs))
    (contract : ∀ n, P (.contract n))
    (delegatableContract : ∀ n, P (.delegatableContract n))
    (rsa3072 : ∀ bs, P (.rsa3072 bs))
    (ecdsaP384 : ∀ bs, P (.ecdsaP384 bs)) (p : Policy) : P p :=
  @Policy.rec P (fun cs => ∀ c ∈ cs, P c)
    key allOf threshold contract delegatableContract rsa3072 ecdsaP384
    (fun _ h => absurd h List.not_mem_nil)
    (fun _ _ hc hcs c h => (List.mem_cons.1 h).elim (fun e => e ▸ hc) (hcs c)) p

/-- Prove a property of all policies together with one of all lists of policies, from the children
up. The two composite variants are one case. -/
theorem forest_induction {P : Policy → Prop} {Q : List Policy → Prop}
    (atomic : ∀ p, p.children? = none → P p)
    (composite : ∀ p cs, p.children? = some cs → Q cs → P p)
    (nil : Q []) (cons : ∀ c cs, P c → Q cs → Q (c :: cs)) : (∀ p, P p) ∧ ∀ cs, Q cs := by
  have hQ : ∀ cs : List Policy, (∀ c ∈ cs, P c) → Q cs := by
    intro cs h
    induction cs with
    | nil => exact nil
    | cons c cs ih =>
      exact cons c cs (h c List.mem_cons_self) (ih fun d hd => h d (List.mem_cons_of_mem c hd))
  have hP : ∀ p, P p := by
    intro p
    induction p using Policy.induction with
    | allOf cs ih | threshold m cs ih => exact composite _ cs rfl (hQ cs ih)
    | _ => exact atomic _ rfl
  exact ⟨hP, fun cs => hQ cs fun c _ => hP c⟩

/-! ## Depth -/

mutual

/-- The number of composite nodes on the deepest path. A composite without children counts. -/
def depth : Policy → Nat
  | allOf cs => 1 + maxDepth cs
  | threshold _ cs => 1 + maxDepth cs
  | _ => 0

/-- The depth of the deepest of several policies, zero if there are none. -/
def maxDepth : List Policy → Nat
  | [] => 0
  | c :: cs => max c.depth (maxDepth cs)

end

theorem depth_of_atomic {p : Policy} (h : p.children? = none) : p.depth = 0 := by
  cases p <;> first | rfl | cases h

theorem depth_of_children {p : Policy} {cs : List Policy} (h : p.children? = some cs) :
    p.depth = 1 + maxDepth cs := by
  cases p <;> cases h <;> rfl

theorem depth_le_maxDepth {c : Policy} {cs : List Policy} (h : c ∈ cs) :
    c.depth ≤ maxDepth cs := by
  induction cs with
  | nil => cases h
  | cons d ds ih =>
    rw [maxDepth]
    rcases List.mem_cons.1 h with rfl | h
    · exact Nat.le_max_left ..
    · exact Nat.le_trans (ih h) (Nat.le_max_right ..)

theorem maxDepth_le_iff {cs : List Policy} {n : Nat} : maxDepth cs ≤ n ↔ ∀ c ∈ cs, c.depth ≤ n := by
  induction cs with
  | nil => simp [maxDepth]
  | cons c cs ih => rw [maxDepth, Nat.max_le, ih, List.forall_mem_cons]

/-! ## Equality

Two policies are equal when they have the same shape and the same contents. `same` decides it by
one walk over both trees. -/

mutual

/-- Whether two policies are equal, by one walk over both. -/
def same : Policy → Policy → Bool
  | key k, key l => k = l
  | allOf cs, allOf ds => sameAll cs ds
  | threshold m cs, threshold n ds => m = n && sameAll cs ds
  | contract m, contract n => m = n
  | delegatableContract m, delegatableContract n => m = n
  | rsa3072 bs, rsa3072 cs => bs = cs
  | ecdsaP384 bs, ecdsaP384 cs => bs = cs
  | _, _ => false

def sameAll : List Policy → List Policy → Bool
  | [], [] => true
  | c :: cs, d :: ds => same c d && sameAll cs ds
  | _, _ => false

end

mutual

theorem same_iff : ∀ p q : Policy, same p q = true ↔ p = q
  | key _, q => by cases q <;> simp [same]
  | allOf cs, q => by cases q <;> simp [same, sameAll_iff cs]
  | threshold _ cs, q => by cases q <;> simp [same, sameAll_iff cs]
  | contract _, q => by cases q <;> simp [same]
  | delegatableContract _, q => by cases q <;> simp [same]
  | rsa3072 _, q => by cases q <;> simp [same]
  | ecdsaP384 _, q => by cases q <;> simp [same]

theorem sameAll_iff : ∀ cs ds : List Policy, sameAll cs ds = true ↔ cs = ds
  | [], ds => by cases ds <;> simp [sameAll]
  | c :: cs, ds => by cases ds <;> simp [sameAll, same_iff c, sameAll_iff cs]

end

instance : DecidableEq Policy := fun p q => decidable_of_iff _ (same_iff p q)

end Policy

end KeyPolicy
