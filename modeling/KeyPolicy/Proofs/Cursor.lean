import Mathlib.Algebra.Ring.Nat
import KeyPolicy.Proofs.Expansion

/-!
# What a cursor still has to give

A cursor looks for the next leaf of its stack in passes. Each pass takes one policy off the top: a
leaf ends the search, the children of a composite node go back on, and any other node is dropped.
`Search` is such a search, pass by pass, and `LeafCursor.next` is what it comes to.

**Theorem (`gives_leaves`).** Behind any number of steps, a cursor still has to give the leaves of
the policies on its stack, from the top down, and these are the leaves of the policy that have not
been given yet. So it gives each leaf of the policy in its place, repeats included, then nothing,
and nothing forever.

A pass takes exactly one node off the stack for good, since children were on it within their parent.
So the nodes on the stack count the passes (`Search.nodeCountOf_eq`). The stack may grow meanwhile:
what a step keeps is said of the leaves of any stack, not of the stack (`Search.leavesOf_eq`).
-/

namespace KeyPolicy

open Policy

namespace LeafCursor

/-! ## Passes -/

/-- A search of a stack for its next leaf: what it finds, the stack that it leaves, and the number
of its passes. -/
inductive Search : List Policy → Option PublicKey → List Policy → Nat → Prop
  | exhausted : Search [] none [] 0
  | leaf (k : PublicKey) (rest : List Policy) : Search (.key k :: rest) (some k) rest 1
  | composite {p : Policy} {cs rest behind : List Policy} {found : Option PublicKey} {n : Nat} :
      p.children? = some cs → Search (cs ++ rest) found behind n →
      Search (p :: rest) found behind (n + 1)
  | unsupported {p : Policy} {rest behind : List Policy} {found : Option PublicKey} {n : Nat} :
      p.unsupported = true → Search rest found behind n → Search (p :: rest) found behind (n + 1)

namespace Search

variable {stack behind : List Policy} {found : Option PublicKey} {n : Nat}

/-- A search takes the first leaf of the stack and leaves the others. -/
theorem leavesOf_eq (h : Search stack found behind n) :
    leavesOf stack = found.toList ++ leavesOf behind := by
  induction h with
  | exhausted => rfl
  | leaf k rest => rfl
  | composite hp _ ih => rw [leavesOf, leaves_of_children hp, ← leavesOf_append, ih]
  | @unsupported p _ _ _ _ hp _ ih =>
    have hleaves : p.leaves = [] := by cases p <;> first | rfl | cases hp
    rw [leavesOf, hleaves, List.nil_append, ih]

/-- A search that finds nothing has emptied the stack. -/
theorem behind_eq_nil (h : Search stack found behind n) (hfound : found = none) : behind = [] := by
  induction h with
  | exhausted => rfl
  | leaf k rest => cases hfound
  | composite _ _ ih | unsupported _ _ ih => exact ih hfound

/-- Each pass takes one node off the stack. -/
theorem nodeCountOf_eq (h : Search stack found behind n) :
    nodeCountOf stack = n + nodeCountOf behind := by
  induction h with
  | exhausted => rfl
  | leaf k rest => rfl
  | @composite p cs _ _ _ _ hp _ ih =>
    have hcount : p.nodeCount = 1 + nodeCountOf cs := by cases p <;> cases hp <;> rfl
    rw [nodeCountOf_append] at ih
    rw [nodeCountOf, hcount]
    omega
  | @unsupported p _ _ _ _ hp _ ih =>
    have hcount : p.nodeCount = 1 := by cases p <;> first | rfl | cases hp
    rw [nodeCountOf, hcount]
    omega

end Search

/-! ## Steps -/

/-- What the next step of a cursor gives. -/
def given (c : LeafCursor) : Option PublicKey := c.next.map Prod.fst

/-- The cursor behind the next step. When nothing was found, there is nothing left on its stack. -/
def behind (c : LeafCursor) : LeafCursor := (c.next.map Prod.snd).getD ⟨[]⟩

/-- The cursor behind so many steps. -/
def after (c : LeafCursor) : (steps : Nat) → LeafCursor
  | 0 => c
  | n + 1 => (c.after n).behind

/-- Every step is a search, so every step ends. -/
theorem exists_search (c : LeafCursor) : ∃ n, Search c.stack c.given c.behind.stack n := by
  obtain ⟨stack⟩ := c
  simp only [given, behind, next]
  fun_induction nextOf stack with
  | case1 => exact ⟨0, .exhausted⟩
  | case2 k rest => exact ⟨1, .leaf k rest⟩
  | case3 _ _ ih | case4 _ _ _ ih =>
    obtain ⟨n, hn⟩ := ih
    exact ⟨n + 1, .composite rfl hn⟩
  | case5 _ _ ih | case6 _ _ ih | case7 _ _ ih | case8 _ _ ih =>
    obtain ⟨n, hn⟩ := ih
    exact ⟨n + 1, .unsupported rfl hn⟩

/-- A step gives the first leaf of the stack, and all others are still behind it. -/
theorem given_eq_head? (c : LeafCursor) :
    c.given = (leavesOf c.stack).head? ∧ leavesOf c.behind.stack = (leavesOf c.stack).tail := by
  obtain ⟨n, h⟩ := c.exists_search
  have hleaves := h.leavesOf_eq
  cases hgiven : c.given with
  | none =>
    have hempty : c.behind.stack = [] := h.behind_eq_nil hgiven
    rw [hgiven, hempty] at hleaves
    rw [hleaves, hempty]
    exact ⟨rfl, rfl⟩
  | some k =>
    rw [hgiven] at hleaves
    rw [hleaves]
    exact ⟨rfl, rfl⟩

theorem leavesOf_after (c : LeafCursor) (n : Nat) :
    leavesOf (c.after n).stack = (leavesOf c.stack).drop n := by
  induction n with
  | zero => rfl
  | succ n ih => rw [after, (given_eq_head? _).2, ih, List.tail_drop]

theorem given_after (c : LeafCursor) (n : Nat) : (c.after n).given = (leavesOf c.stack)[n]? := by
  rw [(given_eq_head? _).1, leavesOf_after, List.head?_drop]

/-- Policies without leaves on top of the stack are passed over within one step. -/
theorem nextOf_append_of_leafless :
    (∀ p : Policy, p.leaves = [] → ∀ rest, nextOf (p :: rest) = nextOf rest) ∧
      ∀ cs, leavesOf cs = [] → ∀ rest, nextOf (cs ++ rest) = nextOf rest := by
  apply forest_induction
  case atomic =>
    intro p hp hleaves rest
    rcases eq_key_or_unsupported_of_atomic hp with ⟨k, rfl⟩ | hu
    · cases hleaves
    · cases p <;> first | (cases hu; done) | rw [nextOf]
  case composite =>
    intro p cs hp ih hleaves rest
    rw [leaves_of_children hp] at hleaves
    rw [← ih hleaves rest]
    cases p <;> cases hp <;> rw [nextOf]
  case nil => exact fun _ _ => rfl
  case cons =>
    intro c cs ihc ihcs hleaves rest
    obtain ⟨hc, hcs⟩ := List.append_eq_nil_iff.1 hleaves
    rw [List.cons_append, ihc hc, ihcs hcs]

/-! ## All steps -/

/-- The number of leaves that the cursor of a policy gives until it gives nothing. -/
def total (p : Policy) : Nat := (start p).toList.length

theorem total_eq (p : Policy) : total p = p.leafCount := by
  rw [total, toList_start, leafCount_eq_length.1]

theorem total_of_children {p : Policy} {cs : List Policy} (h : p.children? = some cs) :
    total p = (cs.map total).sum := by
  rw [total, toList_start, leaves_of_children h, leavesOf_eq_flatMap, List.length_flatMap]
  refine congrArg List.sum (List.map_congr_left fun c _ => ?_)
  rw [total, toList_start]

/-- **A cursor walks a policy from left to right.** Behind any number of steps it still has to give
the leaves of its stack, from the top down. These are the leaves of the policy from that number on,
so a step gives the leaf with the number of the steps before it, and nothing when there is none. A
step makes as many passes as nodes leave the stack, and passes over any number of policies without
leaves. The number of leaves is counted child by child. -/
theorem gives_leaves (p : Policy) :
    (∀ n, let c := (start p).after n
      (∀ i, (c.after i).given = (c.stack.flatMap leaves)[i]?) ∧
      c.toList = c.stack.flatMap leaves ∧
      c.stack.flatMap leaves = p.leaves.drop n ∧
      c.given = p.leaves[n]? ∧
      (c.given = none ↔ p.leaves.length ≤ n) ∧
      (∃ passes, Search c.stack c.given c.behind.stack passes ∧
        nodeCountOf c.stack = passes + nodeCountOf c.behind.stack) ∧
      ∀ passed : List Policy, (∀ q ∈ passed, q.leaves = []) →
        nextOf (passed ++ c.stack) = nextOf c.stack) ∧
    (start p).toList = p.leaves ∧
    total p = p.leafCount ∧
    (∀ k, total (.key k) = 1) ∧
    (∀ cs, total (.allOf cs) = (cs.map total).sum) ∧
    (∀ m cs, total (.threshold m cs) = (cs.map total).sum) ∧
    ∀ q : Policy, q.unsupported = true → total q = 0 := by
  have hstart : leavesOf (start p).stack = p.leaves := by
    rw [start, leavesOf, leavesOf, List.append_nil]
  refine ⟨fun n => ?_, toList_start p, total_eq p, fun k => ?_,
    fun cs => total_of_children rfl, fun m cs => total_of_children rfl, fun q hq => ?_⟩
  -- All that a cursor still gives is a matter of its stack, and so of the number of steps.
  · intro c
    have hstack : leavesOf c.stack = p.leaves.drop n := by rw [leavesOf_after, hstart]
    have hgiven : c.given = p.leaves[n]? := by rw [given_after, hstart]
    obtain ⟨passes, hsearch⟩ := c.exists_search
    rw [← leavesOf_eq_flatMap]
    refine ⟨c.given_after, toList_eq c, hstack, hgiven, ?_,
      ⟨passes, hsearch, hsearch.nodeCountOf_eq⟩, fun passed hpassed => ?_⟩
    · rw [hgiven, List.getElem?_eq_none_iff]
    · refine nextOf_append_of_leafless.2 passed ?_ c.stack
      rw [leavesOf_eq_flatMap]
      exact List.flatMap_eq_nil_iff.2 hpassed
  · rw [total_eq, leafCount]
  · rw [total_eq]
    cases q <;> first | rfl | cases hq

/-- Three nodes without leaves stand between two leaves and are passed over in one step. -/
theorem gives_leaves_across_empty_nodes :
    let one : Policy := .key (.ofByte 1)
    let c := (start (.allOf [one, .allOf [], .contract 7, .threshold 1 [.allOf []], one])).after 1
    (∀ q ∈ [Policy.allOf [], .contract 7, .threshold 1 [.allOf []]], q.leaves = []) ∧
      c.stack = [.allOf [], .contract 7, .threshold 1 [.allOf []], one] ∧
      nextOf ([.allOf [], .contract 7, .threshold 1 [.allOf []]] ++ c.stack) = nextOf c.stack ∧
      c.given = some (.ofByte 1) ∧ total (.contract 7) = 0 := by
  intro one c
  obtain ⟨hsteps, -, -, -, -, -, hnone⟩ :=
    gives_leaves (.allOf [one, .allOf [], .contract 7, .threshold 1 [.allOf []], one])
  obtain ⟨-, -, -, hgiven, -, -, hpass⟩ := hsteps 1
  have hempty : ∀ q ∈ [Policy.allOf [], .contract 7, .threshold 1 [.allOf []]], q.leaves = [] := by
    decide
  have hstack : c.stack = [.allOf [], .contract 7, .threshold 1 [.allOf []], one] := by
    simp [c, start, after, behind, next, nextOf, one]
  exact ⟨hempty, hstack, hpass _ hempty, hgiven, hnone (.contract 7) rfl⟩

end LeafCursor

end KeyPolicy
