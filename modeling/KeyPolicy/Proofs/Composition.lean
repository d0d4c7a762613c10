import KeyPolicy.Proofs.Expansion

/-!
# Expansions are put together from smaller ones

Policies can be expanded in parts, signatures can be expanded in parts, and a composite node can be
taken off the top of a policy.

**Theorem (`expandAll_composes`).** Two lists of policies one behind the other give the union of the
two sets, or the first error. Two maps one behind the other give the union of the two sets, or the
one error that all maps lead to. A composite node is expanded as its children are under a limit that
is one less. So a policy inside `n` lists of one child takes `n` levels more than it takes by
itself.

The first two parts are read off the equation for the whole walk. The others are about the levels
that the walk counts. A walk that starts one level lower with a limit that is one higher goes the
same way, whatever it has found so far (`expandInto_succ`), and only reports a different limit.
-/

namespace KeyPolicy

open Policy

/-! ## Parts of the policies -/

theorem Policy.firstOffence?_append (limit : Nat) (ks ls : List Policy) :
    firstOffence? limit (ks ++ ls) = (firstOffence? limit ks).or (firstOffence? limit ls) := by
  rw [firstOffence?, nodesOf, List.flatMap_append, List.findSome?_append]
  rfl

namespace Expander

theorem run_append (e : Expander) (lookup : Lookup) (ks ls : List Policy) :
    e.run lookup (ks ++ ls) = (do
      let found ← e.run lookup ks
      let found' ← e.run lookup ls
      return found ∪ found') := by
  simp only [run_eq, firstOffence?_append]
  cases firstOffence? e.maxDepth ks with
  | some err => rfl
  | none =>
    cases firstOffence? e.maxDepth ls with
    | some err => rfl
    | none =>
      have hset : OrderedSet.ofList ((leavesOf (ks ++ ls)).flatMap lookup.resolve) =
          OrderedSet.ofList ((leavesOf ks).flatMap lookup.resolve) ∪
            OrderedSet.ofList ((leavesOf ls).flatMap lookup.resolve) := by
        rw [leavesOf_append, List.flatMap_append, OrderedSet.ofList_append]
      exact congrArg Except.ok hset

end Expander

/-! ## Parts of the signatures -/

/-- The pairs of one map in front of those of another. -/
instance : Append SignatureMap := ⟨fun m m' => ⟨m.pairs ++ m'.pairs⟩⟩

theorem SignatureMap.candidates_append (m m' : SignatureMap) (k : PublicKey) :
    (m ++ m').candidates k = m.candidates k ++ m'.candidates k :=
  List.filter_append ..

/-- What is found with two maps together is found with one or the other. -/
theorem Expander.expandAll_append_signatures (e : Expander) (ks : List Policy)
    (m m' : SignatureMap) :
    (∃ err, e.expandAll ks m = .error err ∧ e.expandAll ks (m ++ m') = .error err) ∨
      ∃ found found', e.expandAll ks m = .ok found ∧ e.expandAll ks m' = .ok found' ∧
        e.expandAll ks (m ++ m') = .ok (found ∪ found') := by
  simp only [expandAll, run_eq]
  cases firstOffence? e.maxDepth ks with
  | some err => exact .inl ⟨err, rfl, rfl⟩
  | none =>
    refine .inr ⟨_, _, rfl, rfl, congrArg Except.ok ?_⟩
    ext r
    simp only [OrderedSet.mem_union, OrderedSet.mem_ofList, List.mem_flatMap, mem_resolve,
      SignatureMap.candidates_append, List.mem_append]
    grind

/-! ## One level less -/

/-- The same error as an expansion with another limit reports it. -/
def ExpansionError.underLimit (limit : Nat) : ExpansionError → ExpansionError
  | .depthExceeded _ => .depthExceeded limit
  | .unsupportedKind kind => .unsupportedKind kind

theorem ExpansionError.underLimit_underLimit (limit limit' : Nat) (err : ExpansionError) :
    (err.underLimit limit).underLimit limit' = err.underLimit limit' := by
  cases err <;> rfl

/-- A walk that starts one level lower, with a limit that is one higher, goes the same way. -/
theorem expandInto_succ (limit : Nat) (lookup : Lookup) :
    (∀ p level found, expandInto (limit + 1) lookup (level + 1) found p =
      (expandInto limit lookup level found p).mapError (.underLimit (limit + 1))) ∧
    (∀ cs level found, expandAllInto (limit + 1) lookup (level + 1) found cs =
      (expandAllInto limit lookup level found cs).mapError (.underLimit (limit + 1))) := by
  apply forest_induction
  case atomic =>
    intro p hp level found
    rcases eq_key_or_unsupported_of_atomic hp with ⟨k, rfl⟩ | hu
    · rfl
    · rw [expandInto_of_unsupported hu, expandInto_of_unsupported hu]
      rfl
  case composite =>
    intro p cs hp ih level found
    rw [expandInto_of_children hp, expandInto_of_children hp]
    -- The node is too deep on both walks or on neither.
    by_cases hd : limit < level + 1
    · rw [if_pos hd, if_pos (Nat.succ_lt_succ hd)]
      rfl
    · rw [if_neg hd, if_neg fun hd' => hd (Nat.lt_of_succ_lt_succ hd'), ih]
  case nil => exact fun _ _ => rfl
  case cons =>
    intro c cs ihc ihcs level found
    rw [expandAllInto, expandAllInto, ihc]
    cases expandInto limit lookup level found c with
    | error err => rfl
    | ok found => exact ihcs level found

namespace Expander

theorem run_singleton (e : Expander) (lookup : Lookup) (p : Policy) :
    e.run lookup [p] = expandInto e.maxDepth lookup 0 ∅ p := by
  rw [run, expandAllInto]
  cases expandInto e.maxDepth lookup 0 ∅ p <;> rfl

theorem expand_zero_of_children {p : Policy} {cs : List Policy} (h : p.children? = some cs)
    (m : SignatureMap) : Expander.expand ⟨0⟩ p m = .error (.depthExceeded 0) := by
  rw [expand, expandAll, run_singleton, expandInto_of_children h]
  rfl

/-- A composite node is expanded as its children are under a limit that is one less. -/
theorem expand_succ_of_children {p : Policy} {cs : List Policy} (h : p.children? = some cs)
    (d : Nat) (m : SignatureMap) : Expander.expand ⟨d + 1⟩ p m =
      (Expander.expandAll ⟨d⟩ cs m).mapError (.underLimit (d + 1)) := by
  have hd : ¬ d + 1 < 0 + 1 := by omega
  rw [expand, expandAll, run_singleton, expandInto_of_children h, if_neg hd]
  exact (expandInto_succ d m.candidates).2 cs 0 ∅

/-- An expansion reports its own limit. -/
theorem mapError_underLimit_run (e : Expander) (lookup : Lookup) (ps : List Policy) :
    (e.run lookup ps).mapError (.underLimit e.maxDepth) = e.run lookup ps := by
  cases h : e.run lookup ps with
  | ok found => rfl
  | error err =>
    obtain ⟨_, _, _, -, -, ⟨-, rfl⟩ | ⟨-, rfl⟩⟩ :=
      firstOffence?_eq_some_iff.1 (run_eq_error_iff.1 h) <;> rfl

end Expander

/-! ## Several levels less -/

/-- A policy inside so many `allOf` nodes of one child each. -/
def Policy.nested : Nat → Policy → Policy
  | 0, p => p
  | n + 1, p => .allOf [nested n p]

theorem Expander.expand_nested (n d : Nat) (p : Policy) (m : SignatureMap) :
    Expander.expand ⟨d⟩ (p.nested n) m =
      if d < n then .error (.depthExceeded d)
      else (Expander.expand ⟨d - n⟩ p m).mapError (.underLimit d) := by
  induction n generalizing d with
  | zero => exact (mapError_underLimit_run ⟨d⟩ m.candidates [p]).symm
  | succ n ih =>
    have hchildren : (p.nested (n + 1)).children? = some [p.nested n] := rfl
    cases d with
    | zero => rw [expand_zero_of_children hchildren, if_pos (Nat.succ_pos n)]
    | succ d =>
      have hchild : Expander.expandAll ⟨d⟩ [p.nested n] m = _ := ih d
      rw [expand_succ_of_children hchildren, hchild, Nat.add_sub_add_right]
      by_cases hd : d < n
      · rw [if_pos hd, if_pos (Nat.succ_lt_succ hd)]
        rfl
      · rw [if_neg hd, if_neg fun hd' => hd (Nat.lt_of_succ_lt_succ hd')]
        cases Expander.expand ⟨d - n⟩ p m with
        | ok found => rfl
        | error err => exact congrArg Except.error (err.underLimit_underLimit d (d + 1))

/-! ## All laws -/

/-- **Expansions compose.** Policies one behind the other give the union of what each part gives, or
the first error; maps one behind the other give the union, or the error that each of them leads to.
A composite node, whatever it asks for, is expanded as its children are under a limit that is one
less. A policy inside `n` lists of one child is refused for its depth if the limit is below `n`, and
is otherwise expanded as it is under a limit that is `n` less. Errors of depth report the limit of
the whole. -/
theorem expandAll_composes (d : Nat) (ks ls : List Policy) (m m' : SignatureMap) :
    Expander.expandAll ⟨d⟩ (ks ++ ls) m = (do
      let found ← Expander.expandAll ⟨d⟩ ks m
      let found' ← Expander.expandAll ⟨d⟩ ls m
      return found ∪ found') ∧
    ((∃ err, Expander.expandAll ⟨d⟩ ks m = .error err ∧
        Expander.expandAll ⟨d⟩ ks (m ++ m') = .error err) ∨
      ∃ found found', Expander.expandAll ⟨d⟩ ks m = .ok found ∧
        Expander.expandAll ⟨d⟩ ks m' = .ok found' ∧
        Expander.expandAll ⟨d⟩ ks (m ++ m') = .ok (found ∪ found')) ∧
    Expander.expand ⟨d + 1⟩ (.allOf ks) m =
      (Expander.expandAll ⟨d⟩ ks m).mapError (.underLimit (d + 1)) ∧
    (∀ t, Expander.expand ⟨d + 1⟩ (.threshold t ks) m =
      (Expander.expandAll ⟨d⟩ ks m).mapError (.underLimit (d + 1))) ∧
    ∀ n p, Expander.expand ⟨d⟩ (p.nested n) m =
      if d < n then .error (.depthExceeded d)
      else (Expander.expand ⟨d - n⟩ p m).mapError (.underLimit d) :=
  ⟨Expander.run_append ⟨d⟩ m.candidates ks ls, Expander.expandAll_append_signatures ⟨d⟩ ks m m',
    Expander.expand_succ_of_children rfl d m, fun _ => Expander.expand_succ_of_children rfl d m,
    fun n p => Expander.expand_nested n d p m⟩

end KeyPolicy
