import KeyPolicy.Session
import KeyPolicy.Proofs.Triples

/-!
# Sessions on finite sets

The commands of a session can be carried out on finite sets of triples alone. `Ideal` does so: it
has no order, no stored addresses and no walk over policies.

**Theorem (`Session.run_agrees`).** After any commands, starting with empty sets, each set of the
session has exactly the triples that the same commands give on finite sets, and the session answers
as the finite sets do.

One action is `Session.made_act`: what it makes of a set, read as triples, is what it makes of the
triples, and it fails for the one where it does for the other. A command writes that set back to
its slot (`Session.ideal_next`), and the run is an induction over the commands.
-/

namespace KeyPolicy

/-! ## The same commands on finite sets -/

/-- A finite set of triples for each set of a session. -/
abbrev Ideal (n : Nat) := Fin n → Finset Triple

namespace Ideal

open Session (Action Command)

variable {n : Nat}

/-- What an action makes of the set at a slot; nothing if the action fails. -/
def effect (sets : Ideal n) (i : Fin n) : Action n → Option (Finset Triple)
  | .clear => some ∅
  | .insert d => if d.Admissible then some (insert d.triple (sets i)) else none
  | .contains d => if d.Admissible then some (sets i) else none
  | .hasKey k => if Admissible k.algorithm k.bytes then some (sets i) else none
  | .extend ds =>
    if ∀ d ∈ ds, d.Admissible then some (sets i ∪ (ds.map PairDraft.triple).toFinset) else none
  | .collect ds =>
    if ∀ d ∈ ds, d.Admissible then some (ds.map PairDraft.triple).toFinset else none
  | .extendFrom j => some (sets i ∪ sets j)
  | .keepAlgorithm a => some ((sets i).filter (·.1 = a))
  | .expandFullPrefixes m => some m.full
  | .expand d m limit => if d.Expandable limit then some (sets i ∪ d.matching m) else none
  | .isEmpty | .equals _ | .publicKeys | .items | .addressCount => some (sets i)

/-- The sets behind a command. A command that fails leaves them alone. -/
def next (sets : Ideal n) (c : Command n) : Ideal n :=
  match sets.effect c.slot c.action with
  | some x => Function.update sets c.slot x
  | none => sets

/-- The sets behind several commands that start with empty sets. -/
def run (cs : List (Command n)) : Ideal n := cs.foldl next fun _ => ∅

end Ideal

namespace Session

variable {n : Nat}

/-- The triples of each set of a session. -/
def ideal (s : Session n) : Ideal n := fun i => ResolvedSet.triples (s.get i)

/-- What an action made of its set, read as triples; nothing if it failed. -/
def made : Except Failure (Answer × ResolvedSet) → Option (Finset Triple)
  | .ok (_, set) => some (ResolvedSet.triples set)
  | .error _ => none

/-- An action that needs a result first fails exactly when there is none. -/
theorem made_bind {ε α : Type} {x : Except ε α} {g : ε → Failure} {f : α → Answer × ResolvedSet}
    {P : Prop} [Decidable P] {y : Finset Triple} (hP : P → ∃ a, x = .ok a)
    (hok : ∀ a, x = .ok a → P ∧ ResolvedSet.triples (f a).2 = y) :
    made (do let a ← x.mapError g; return f a) = if P then some y else none := by
  cases x with
  | ok a =>
    obtain ⟨h, hy⟩ := hok a rfl
    rw [if_pos h, ← hy]
    rfl
  | error e =>
    have h : ¬ P := fun h => nomatch hP h
    rw [if_neg h]
    rfl

/-- One action: read as triples, a session does what the triples do, and fails where they do. -/
theorem made_act (s : Session n) (i : Fin n) (a : Action n) :
    made (s.act (s.get i) a) = s.ideal.effect i a := by
  cases a with
  | clear => rfl
  -- What is given from outside is checked, and the check passes just where the triples are changed.
  | insert d =>
    refine made_bind PairDraft.exists_check_eq_ok fun r hr => ?_
    obtain ⟨hd, hr⟩ := PairDraft.check_eq_ok_iff.1 hr
    exact ⟨hd, by rw [ResolvedSet.triples_insert, hr]; rfl⟩
  | contains d =>
    refine made_bind PairDraft.exists_check_eq_ok fun r hr => ?_
    exact ⟨(PairDraft.check_eq_ok_iff.1 hr).1, rfl⟩
  | hasKey k =>
    refine made_bind (fun hk => ⟨⟨_, _, hk⟩, dif_pos hk⟩) fun l hl => ⟨?_, rfl⟩
    obtain ⟨ha, hb⟩ := PublicKey.ofBytes_eq_ok_iff.1 hl
    exact ha ▸ hb ▸ l.admissible
  | extend ds =>
    refine made_bind PairDraft.exists_checkAll_eq_ok fun rs hrs => ?_
    obtain ⟨hds, hrs⟩ := PairDraft.checkAll_eq_ok_iff.1 hrs
    exact ⟨hds, by rw [ResolvedSet.triples_insertMany, hrs]; rfl⟩
  | collect ds =>
    refine made_bind PairDraft.exists_checkAll_eq_ok fun rs hrs => ?_
    obtain ⟨hds, hrs⟩ := PairDraft.checkAll_eq_ok_iff.1 hrs
    exact ⟨hds, by rw [ResolvedSet.triples_ofList, hrs]⟩
  -- What comes from the sets of the session needs no check.
  | extendFrom j => exact congrArg some (ResolvedSet.triples_union ..)
  | keepAlgorithm b => exact congrArg some (ResolvedSet.triples_ofAlgorithm ..)
  | expandFullPrefixes m => exact congrArg some m.triples_expandFullPrefixes
  | expand d m limit =>
    -- A tree is checked as a whole before the walk, which has offences of its own.
    rw [act, Ideal.effect]
    cases hd : d.check with
    | error e => rw [if_neg (PolicyDraft.not_expandable_of_check hd)]; rfl
    | ok p =>
      have hexpand : (∃ found, Expander.expand ⟨limit⟩ p m = .ok found) ↔ d.Expandable limit :=
        PolicyDraft.exists_expand_eq_ok_iff hd
      refine made_bind hexpand.2 fun found hfound => ⟨hexpand.1 ⟨found, hfound⟩, ?_⟩
      rw [ResolvedSet.triples_union, Policy.triples_of_expand hfound, d.check_eq_ok_iff.1 hd]
      rfl
  | isEmpty | equals _ | publicKeys | items | addressCount => rfl

/-! ## Steps and runs -/

/-- A command fails exactly where it fails on the triples. -/
theorem exists_step_eq_error_iff (s : Session n) (c : Command n) :
    (∃ f, s.step c = .error f) ↔ s.ideal.effect c.slot c.action = none := by
  have hget : s[c.slot] = s.get c.slot := rfl
  rw [← made_act, step, hget]
  cases s.act (s.get c.slot) c.action <;> simp [made, bind, Except.bind, pure, Except.pure]

theorem ideal_set (s : Session n) (i : Fin n) (x : ResolvedSet) :
    ideal (s.set i x i.isLt) = Function.update s.ideal i (ResolvedSet.triples x) := by
  funext j
  have hget : ∀ t : Session n, t.get j = t[(j : Nat)] := fun _ => rfl
  by_cases h : j = i
  · subst h
    rw [Function.update_self, ideal, hget, Vector.getElem_set_self]
  · have hne : (i : Nat) ≠ j := fun heq => h (Fin.ext heq.symm)
    rw [Function.update_of_ne h, ideal, ideal, hget, hget, Vector.getElem_set_ne _ _ hne]

/-- One command: read as triples, the sets behind it are those that the triples give. -/
theorem ideal_next (s : Session n) (c : Command n) : (s.next c).ideal = s.ideal.next c := by
  have hget : s[c.slot] = s.get c.slot := rfl
  rw [next, step, Ideal.next, ← made_act, hget]
  cases s.act (s.get c.slot) c.action with
  | error f => rfl
  | ok x => exact ideal_set s c.slot x.2

theorem ideal_run (s : Session n) (cs : List (Command n)) :
    (s.run cs).ideal = cs.foldl Ideal.next s.ideal := by
  induction cs generalizing s with
  | nil => rfl
  | cons c cs ih => rw [run, List.foldl_cons, List.foldl_cons, ← ideal_next]; exact ih (s.next c)

theorem ideal_start : (start n).ideal = fun _ => ∅ := by
  funext i
  have hget : (start n).get i = (start n)[(i : Nat)] := rfl
  rw [ideal, hget, start, Vector.getElem_replicate, ResolvedSet.triples_empty]

/-! ## What a session tells -/

/-- The sets of the session have these triples, and it answers as they do: what each command tells
follows from the triples. -/
structure Agrees (s : Session n) (sets : Ideal n) : Prop where
  triples_eq : ∀ i, ResolvedSet.triples (s.get i) = sets i
  size_eq : ∀ i, (s.get i).size = (sets i).card
  /-- An insertion tells whether the triple was missing, and the set grows by one just then. -/
  insert_eq : ∀ i (d : PairDraft), d.Admissible → s.report ⟨i, .insert d⟩ =
    .ok (.flag (d.triple ∉ sets i), (s.get i).size + if d.triple ∈ sets i then 0 else 1)
  contains_eq : ∀ i (d : PairDraft), d.Admissible → s.report ⟨i, .contains d⟩ =
    .ok (.flag (d.triple ∈ sets i), (s.get i).size)
  /-- A key is found exactly when it is among the public keys, and when it has a signature. -/
  hasKey_iff : ∀ i (k : PublicKey),
    (ResolvedSet.hasKey (s.get i) k = true ↔ k ∈ ResolvedSet.publicKeys (s.get i)) ∧
    (ResolvedSet.hasKey (s.get i) k = true ↔
      ∃ signature, (k.algorithm, k.bytes, signature) ∈ sets i)
  hasKey_eq : ∀ i (d : KeyDraft), Admissible d.algorithm d.bytes → s.report ⟨i, .hasKey d⟩ =
    .ok (.flag ((d.algorithm, d.bytes) ∈ Triple.keys (sets i)), (s.get i).size)
  isEmpty_eq : ∀ i, s.report ⟨i, .isEmpty⟩ = .ok (.flag (sets i = ∅), (s.get i).size)
  /-- Each key is listed once, in the agreed order. -/
  publicKeys_eq : ∀ i, ∃ keys : List PublicKey,
    s.report ⟨i, .publicKeys⟩ = .ok (.keys keys, (s.get i).size) ∧
    keys.Pairwise (fun k l => compare k l = .lt) ∧
    (keys.map fun k => (k.algorithm, k.bytes)).toFinset = Triple.keys (sets i)
  /-- Each pair is listed once, in the agreed order. -/
  items_eq : ∀ i, ∃ pairs : List ResolvedPair,
    s.report ⟨i, .items⟩ = .ok (.pairs pairs, (s.get i).size) ∧
    pairs.Pairwise (fun r t => compare r t = .lt) ∧
    (pairs.map ResolvedPair.triple).toFinset = sets i
  addressCount_eq : ∀ i, s.report ⟨i, .addressCount⟩ =
    .ok (.count ((sets i).filter Triple.HasAddress).card, (s.get i).size)
  equals_eq : ∀ i j, s.report ⟨i, .equals j⟩ = .ok (.flag (sets i = sets j), (s.get i).size)
  fails_iff : ∀ c, (∃ f, s.step c = .error f) ↔ sets.effect c.slot c.action = none
  next_eq_of_error : ∀ c f, s.step c = .error f → s.next c = s
  /-- A stored key is accepted by the constructor of keys, and the address follows from it. -/
  stored : ∀ (i : Fin n) (r : ResolvedPair), r ∈ s.get i →
    PublicKey.ofBytes r.key.algorithm r.key.bytes = .ok r.key ∧
    (r.key.algorithm = .ed25519 → r.address = none) ∧
    (r.key.algorithm = .ecdsaSecp256k1 → r.address = Address.ofBytes? r.key.bytes)

theorem report_of_act {s : Session n} {c : Command n} {answer : Answer} {set : ResolvedSet}
    (h : s.act (s.get c.slot) c.action = .ok (answer, set)) :
    s.report c = .ok (answer, set.size) := by
  have hget : s[c.slot] = s.get c.slot := rfl
  rw [report, step, hget, h]
  simp [bind, Except.bind, pure, Except.pure, Except.map]

theorem size_insert (x : ResolvedSet) (r : ResolvedPair) :
    (x.insert r).size = x.size + if r.triple ∈ ResolvedSet.triples x then 0 else 1 := by
  rw [← ResolvedSet.card_triples, ← ResolvedSet.card_triples, ResolvedSet.triples_insert,
    Finset.card_insert_eq_ite]
  split <;> rfl

theorem agrees (s : Session n) : Agrees s s.ideal where
  triples_eq _ := rfl
  size_eq i := (ResolvedSet.card_triples (s.get i)).symm
  insert_eq i d hd := by
    obtain ⟨r, hr⟩ := PairDraft.exists_check_eq_ok hd
    have hact : s.act (s.get i) (.insert d) =
        .ok (.flag (r ∉ s.get i), (s.get i).insert r) := by
      rw [act, hr]
      rfl
    rw [report_of_act (c := ⟨i, .insert d⟩) hact, size_insert]
    simp only [PairDraft.mem_iff_of_check hr, (PairDraft.check_eq_ok_iff.1 hr).2]
    rfl
  contains_eq i d hd := by
    obtain ⟨r, hr⟩ := PairDraft.exists_check_eq_ok hd
    have hact : s.act (s.get i) (.contains d) = .ok (.flag (r ∈ s.get i), s.get i) := by
      rw [act, hr]
      rfl
    rw [report_of_act (c := ⟨i, .contains d⟩) hact]
    simp only [PairDraft.mem_iff_of_check hr]
    rfl
  hasKey_iff i k :=
    ⟨ResolvedSet.hasKey_iff.trans ResolvedSet.mem_publicKeys.symm, ResolvedSet.hasKey_iff_triples⟩
  hasKey_eq i d hd := by
    have hcheck : d.check = .ok ⟨_, _, hd⟩ := dif_pos hd
    have hact : s.act (s.get i) (.hasKey d) =
        .ok (.flag (ResolvedSet.hasKey (s.get i) ⟨_, _, hd⟩), s.get i) := by
      rw [act, hcheck]
      rfl
    rw [report_of_act (c := ⟨i, .hasKey d⟩) hact, ResolvedSet.hasKey_eq]
    rfl
  isEmpty_eq i := by
    have hact : s.act (s.get i) .isEmpty = .ok (.flag (s.get i).isEmpty, s.get i) := rfl
    rw [report_of_act (c := ⟨i, .isEmpty⟩) hact, ResolvedSet.isEmpty_eq]
    rfl
  publicKeys_eq i := ⟨(ResolvedSet.publicKeys (s.get i)).toList,
    report_of_act (c := ⟨i, .publicKeys⟩) rfl, (ResolvedSet.publicKeys (s.get i)).ascending,
    (ResolvedSet.keys_triples (s.get i)).symm⟩
  items_eq i := ⟨(s.get i).toList, report_of_act (c := ⟨i, .items⟩) rfl, (s.get i).ascending, rfl⟩
  addressCount_eq i := by
    have hact : s.act (s.get i) .addressCount =
        .ok (.count (ResolvedSet.addressCount (s.get i)), s.get i) := rfl
    rw [report_of_act (c := ⟨i, .addressCount⟩) hact, ResolvedSet.addressCount_eq]
    rfl
  equals_eq i j := by
    have hact : s.act (s.get i) (.equals j) = .ok (.flag (s.get i = s.get j), s.get i) := rfl
    have hequal : s.get i = s.get j ↔ s.ideal i = s.ideal j := ResolvedSet.triples_inj.symm
    rw [report_of_act (c := ⟨i, .equals j⟩) hact]
    simp only [hequal]
  fails_iff := s.exists_step_eq_error_iff
  next_eq_of_error c f h := by rw [next, h]
  -- A key carries its check and a pair its address, so this holds of every pair.
  stored i r _ := by
    refine ⟨r.key.ofBytes_self, fun h => ?_, fun h => ?_⟩ <;>
      rw [r.address_eq, PublicKey.address?, h]

/-- After any commands the sets of a session have the triples that the commands give on finite sets,
and the session answers as they do. -/
theorem run_agrees (n : Nat) (cs : List (Command n)) :
    Agrees ((start n).run cs) (Ideal.run cs) := by
  have h := ((start n).run cs).agrees
  rwa [ideal_run, ideal_start] at h

/-- A set that was joined with itself, met a refused key and was copied has its pair once. -/
theorem run_agrees_copied :
    let d : PairDraft := ⟨⟨.ed25519, List.replicate 32 1⟩, [7]⟩
    let cs : List (Command 2) := [⟨0, .insert d⟩, ⟨0, .extendFrom 0⟩,
      ⟨0, .insert ⟨⟨.ed25519, []⟩, [8]⟩⟩, ⟨1, .extendFrom 0⟩]
    d.Admissible ∧ ((start 2).run cs).report ⟨1, .insert d⟩ = .ok (.flag false, 1) := by
  intro d cs
  have hd : d.Admissible := by decide
  have hinsert := (run_agrees 2 cs).insert_eq 1 d hd
  have hcard : (Ideal.run cs 1).card = 1 := by decide
  have hmem : d.triple ∈ Ideal.run cs 1 := by decide
  rw [(run_agrees 2 cs).size_eq, hcard, if_pos hmem] at hinsert
  simp only [hmem, not_true, decide_false] at hinsert
  exact ⟨hd, hinsert⟩

end Session

end KeyPolicy
