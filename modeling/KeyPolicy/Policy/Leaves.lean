import KeyPolicy.Policy.Basic

/-!
# The leaves of a policy

`Policy.leaves` lists the public keys of a policy from left to right, repeats included. A caller
that wants them one at a time uses a `LeafCursor`: a stack of policies still to be visited, top
first. A step takes the top off the stack; a leaf is the answer, a composite node puts its children
back on in declaration order, and any other node is dropped. One step may drop many nodes, so the
search for the next leaf ends because the number of nodes on the stack goes down.

`LeafCursor.toList_eq` says that a cursor yields exactly the leaves of what is on its stack.
-/

namespace KeyPolicy

namespace Policy

mutual

/-- The public keys of a policy, from left to right. -/
def leaves : Policy → List PublicKey
  | key k => [k]
  | allOf cs => leavesOf cs
  | threshold _ cs => leavesOf cs
  | _ => []

def leavesOf : List Policy → List PublicKey
  | [] => []
  | c :: cs => c.leaves ++ leavesOf cs

end

mutual

/-- The number of public keys in a policy, repeats counted. -/
def leafCount : Policy → Nat
  | key _ => 1
  | allOf cs => leafCountOf cs
  | threshold _ cs => leafCountOf cs
  | _ => 0

def leafCountOf : List Policy → Nat
  | [] => 0
  | c :: cs => c.leafCount + leafCountOf cs

end

mutual

def nodeCount : Policy → Nat
  | allOf cs => 1 + nodeCountOf cs
  | threshold _ cs => 1 + nodeCountOf cs
  | _ => 1

def nodeCountOf : List Policy → Nat
  | [] => 0
  | c :: cs => c.nodeCount + nodeCountOf cs

end

theorem leaves_of_children {p : Policy} {cs : List Policy} (h : p.children? = some cs) :
    p.leaves = leavesOf cs := by
  cases p <;> cases h <;> rfl

theorem leavesOf_eq_flatMap (cs : List Policy) : leavesOf cs = cs.flatMap leaves := by
  induction cs with
  | nil => rfl
  | cons c cs ih => rw [leavesOf, ih, List.flatMap_cons]

theorem leavesOf_append (cs ds : List Policy) :
    leavesOf (cs ++ ds) = leavesOf cs ++ leavesOf ds := by
  simp only [leavesOf_eq_flatMap, List.flatMap_append]

theorem leafCount_eq_length :
    (∀ p : Policy, p.leafCount = p.leaves.length) ∧
      ∀ cs, leafCountOf cs = (leavesOf cs).length := by
  apply forest_induction
  case atomic =>
    intro p hp
    cases p <;> first | rfl | cases hp
  case composite =>
    intro p cs hp ih
    cases p <;> cases hp <;> exact ih
  case nil => rfl
  case cons =>
    intro c cs ihc ihcs
    rw [leafCountOf, leavesOf, List.length_append, ihc, ihcs]

theorem nodeCountOf_append (cs ds : List Policy) :
    nodeCountOf (cs ++ ds) = nodeCountOf cs + nodeCountOf ds := by
  induction cs with
  | nil => simp [nodeCountOf]
  | cons c cs ih => simp only [List.cons_append, nodeCountOf, ih]; omega

end Policy

/-! ## One leaf at a time -/

/-- The policies still to be visited, the next one first. -/
structure LeafCursor where
  stack : List Policy

namespace LeafCursor

open Policy

/-- The cursor before the first leaf of a policy. -/
def start (p : Policy) : LeafCursor := ⟨[p]⟩

def remaining (c : LeafCursor) : Nat := nodeCountOf c.stack

/-- The next leaf of a stack, and the stack behind it. -/
def nextOf : List Policy → Option (PublicKey × List Policy)
  | [] => none
  | .key k :: rest => some (k, rest)
  | .allOf cs :: rest => nextOf (cs ++ rest)
  | .threshold _ cs :: rest => nextOf (cs ++ rest)
  | .contract _ :: rest => nextOf rest
  | .delegatableContract _ :: rest => nextOf rest
  | .rsa3072 _ :: rest => nextOf rest
  | .ecdsaP384 _ :: rest => nextOf rest
termination_by stack => nodeCountOf stack
decreasing_by
  all_goals simp only [nodeCountOf, nodeCount, nodeCountOf_append]; omega

/-- The next leaf, and the cursor behind it; nothing once all leaves have been given. -/
def next (c : LeafCursor) : Option (PublicKey × LeafCursor) :=
  (nextOf c.stack).map fun (k, rest) => (k, ⟨rest⟩)

/-- What a step finds: the first leaf of the stack, with the other leaves still behind it. -/
theorem nextOf_eq_some {stack rest : List Policy} {k : PublicKey}
    (h : nextOf stack = some (k, rest)) :
    leavesOf stack = k :: leavesOf rest ∧ nodeCountOf rest < nodeCountOf stack := by
  fun_induction nextOf stack with
  | case1 => cases h
  | case2 k' rest' =>
    cases h
    simp [leavesOf, leaves, nodeCountOf, nodeCount]
  | case3 rest' cs ih | case4 rest' m cs ih =>
    have := ih h
    simp only [leavesOf_append, nodeCountOf_append] at this
    simp only [leavesOf, leaves, nodeCountOf, nodeCount]
    exact ⟨this.1, by omega⟩
  | case5 rest' _ ih | case6 rest' _ ih | case7 rest' _ ih | case8 rest' _ ih =>
    have := ih h
    simp only [leavesOf, leaves, nodeCountOf, nodeCount, List.nil_append]
    exact ⟨this.1, by omega⟩

/-- No leaf is found exactly when none is left. -/
theorem nextOf_eq_none {stack : List Policy} (h : nextOf stack = none) : leavesOf stack = [] := by
  fun_induction nextOf stack <;> simp_all [leavesOf, leaves, leavesOf_append]

/-- All leaves that a cursor still has to give, in the order in which it gives them. -/
def toList (c : LeafCursor) : List PublicKey :=
  match _h : nextOf c.stack with
  | none => []
  | some (k, rest) => k :: toList ⟨rest⟩
termination_by c.remaining
decreasing_by exact (nextOf_eq_some _h).2

/-- **A cursor gives the leaves of its stack, from the top down.** -/
theorem toList_eq (c : LeafCursor) : c.toList = leavesOf c.stack := by
  fun_induction toList c with
  | case1 c h => rw [nextOf_eq_none h]
  | case2 c k rest h ih => rw [ih, (nextOf_eq_some h).1]

end LeafCursor

end KeyPolicy
