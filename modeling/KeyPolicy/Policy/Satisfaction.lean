import KeyPolicy.Policy.Basic
import KeyPolicy.ResolvedSet

/-!
# When a policy is satisfied

Given the pairs whose signatures were verified, a leaf is satisfied when its key is among them, an
`allOf` node when all of its children are, and a threshold node when at least as many of its
children are as it asks for. Children are counted by position, so a child that stands there twice
counts twice. A threshold of zero is always met, and one above the number of children never is. The
variants that no signature can provide are never satisfied.
-/

namespace KeyPolicy.Policy

mutual

/-- Whether the verified pairs satisfy a policy. -/
def satisfiedBy (verified : ResolvedSet) : Policy → Bool
  | key k => verified.hasKey k
  | allOf cs => allSatisfiedBy verified cs
  | threshold m cs => decide (m.toNat ≤ satisfiedCount verified cs)
  | _ => false

def allSatisfiedBy (verified : ResolvedSet) : List Policy → Bool
  | [] => true
  | c :: cs => c.satisfiedBy verified && allSatisfiedBy verified cs

def satisfiedCount (verified : ResolvedSet) : List Policy → Nat
  | [] => 0
  | c :: cs => (c.satisfiedBy verified).toNat + satisfiedCount verified cs

end

theorem allSatisfiedBy_eq_all (verified : ResolvedSet) (cs : List Policy) :
    allSatisfiedBy verified cs = cs.all (satisfiedBy verified) := by
  induction cs with
  | nil => rfl
  | cons c cs ih => rw [allSatisfiedBy, ih, List.all_cons]

theorem satisfiedCount_eq_countP (verified : ResolvedSet) (cs : List Policy) :
    satisfiedCount verified cs = cs.countP (satisfiedBy verified) := by
  induction cs with
  | nil => rfl
  | cons c cs ih =>
    rw [satisfiedCount, ih, List.countP_cons]
    cases c.satisfiedBy verified <;> simp [Nat.add_comm]

end KeyPolicy.Policy
