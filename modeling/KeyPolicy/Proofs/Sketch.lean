import KeyPolicy.Format.Policy
import KeyPolicy.Proofs.Reading

/-!
# Sketches of policies

A sketch has the shape of a policy and says nothing about its contents: thresholds, identifiers and
bytes are any numbers, and keys have any length. It is what a text in the written form spells before
anything is checked. Every policy has a sketch, but not every sketch comes from a policy.

The checkpoints of a sketch are the places of its text at which a reader may stop, in the order of
the text: a bracket where it opens, a number where it stands, and a key at its closing bracket.

**Theorem (`Sketch.reads`).** The reader of policies stops at the first checkpoint with a violation
and gives the reason there; without one it takes the text, and the policy has this sketch.

The induction is on the number of levels that the reader may still descend. A sketch opens at least
one bracket for each of its levels, so a reader with as many levels as brackets runs out of brackets
first, and that is a violation of its own.
-/

namespace KeyPolicy

open Json

/-! ## Sketches -/

/-- The shape of a policy, with any numbers in it and keys of any length. -/
inductive Sketch where
  | key (algorithm : Algorithm) (bytes : List Nat)
  | allOf (children : List Sketch)
  | threshold (threshold : Nat) (children : List Sketch)
  | contract (id : Nat)
  | delegatableContract (id : Nat)
  | rsa3072 (bytes : List Nat)
  | ecdsaP384 (bytes : List Nat)

namespace Sketch

/-- Prove a property of all sketches from the children up. -/
theorem induction {P : Sketch → Prop}
    (key : ∀ a ns, P (.key a ns))
    (allOf : ∀ cs, (∀ c ∈ cs, P c) → P (.allOf cs))
    (threshold : ∀ m cs, (∀ c ∈ cs, P c) → P (.threshold m cs))
    (contract : ∀ n, P (.contract n))
    (delegatableContract : ∀ n, P (.delegatableContract n))
    (rsa3072 : ∀ ns, P (.rsa3072 ns))
    (ecdsaP384 : ∀ ns, P (.ecdsaP384 ns)) (s : Sketch) : P s :=
  @Sketch.rec P (fun cs => ∀ c ∈ cs, P c)
    key allOf threshold contract delegatableContract rsa3072 ecdsaP384
    (fun _ h => absurd h List.not_mem_nil)
    (fun _ _ hc hcs c h => (List.mem_cons.1 h).elim (fun e => e ▸ hc) (hcs c)) s

/-! ## The text of a sketch -/

def writeNumbers (ns : List Nat) : Writer := .list (ns.map .natural)

def writeKey (a : Algorithm) (ns : List Nat) : Writer :=
  .record [("algorithm", .text a.name), ("public_key", writeNumbers ns)]

def writeThreshold (m : Nat) (children : List Writer) : Writer :=
  .record [("threshold", .natural m), ("keys", Format.writeChildren children)]

mutual

def write : Sketch → Writer
  | key a ns => .variant "Simple" (writeKey a ns)
  | allOf cs => .variant "KeyList" (Format.writeChildren (writeAll cs))
  | threshold m cs => .variant "Threshold" (writeThreshold m (writeAll cs))
  | contract n => .variant "ContractId" (.natural n)
  | delegatableContract n => .variant "DelegatableContractId" (.natural n)
  | rsa3072 ns => .variant "Rsa3072" (writeNumbers ns)
  | ecdsaP384 ns => .variant "EcdsaP384" (writeNumbers ns)

def writeAll : List Sketch → List Writer
  | [] => []
  | c :: cs => c.write :: writeAll cs

end

/-- The compact text of a sketch. -/
def text (s : Sketch) : String := s.write.toText

theorem writeAll_eq_map (cs : List Sketch) : writeAll cs = cs.map write := by
  induction cs with
  | nil => rfl
  | cons c cs ih => rw [writeAll, ih, List.map_cons]

mutual

/-- The bracket nesting of the text of a sketch. -/
def height : Sketch → Nat
  | key _ _ => 3
  | allOf cs => 3 + maxHeight cs
  | threshold _ cs => 4 + maxHeight cs
  | contract _ | delegatableContract _ => 1
  | rsa3072 _ | ecdsaP384 _ => 2

def maxHeight : List Sketch → Nat
  | [] => 0
  | c :: cs => max c.height (maxHeight cs)

end

theorem maxHeight_eq (cs : List Sketch) : maxHeight cs = tallest (cs.map height) := by
  induction cs with
  | nil => rfl
  | cons c cs ih => rw [maxHeight, ih]; rfl

/-! ## Checkpoints -/

/-- The checkpoints of an array of bytes, with `level` brackets around it. -/
def byteCheckpoints (level : Nat) (ns : List Nat) : List Checkpoint :=
  .bracket (level + 1) :: ns.map (.number · UInt8.size)

def keyCheckpoints (level : Nat) (a : Algorithm) (ns : List Nat) : List Checkpoint :=
  .bracket (level + 1) :: byteCheckpoints (level + 1) ns ++ [.key a ns]

mutual

/-- The checkpoints of a sketch in the order of its text, with `level` brackets around it. -/
def checkpoints (level : Nat) : Sketch → List Checkpoint
  | key a ns => .bracket (level + 1) :: keyCheckpoints (level + 1) a ns
  | allOf cs =>
    .bracket (level + 1) :: .bracket (level + 2) :: .bracket (level + 3) ::
      checkpointsOf (level + 3) cs
  | threshold m cs =>
    .bracket (level + 1) :: .bracket (level + 2) :: .number m UInt32.size ::
      .bracket (level + 3) :: .bracket (level + 4) :: checkpointsOf (level + 4) cs
  | contract n | delegatableContract n => [.bracket (level + 1), .number n UInt64.size]
  | rsa3072 ns | ecdsaP384 ns => .bracket (level + 1) :: byteCheckpoints (level + 1) ns

def checkpointsOf (level : Nat) : List Sketch → List Checkpoint
  | [] => []
  | c :: cs => c.checkpoints level ++ checkpointsOf level cs

end

theorem checkpointsOf_eq_flatMap (level : Nat) (cs : List Sketch) :
    checkpointsOf level cs = cs.flatMap (checkpoints level) := by
  induction cs with
  | nil => rfl
  | cons c cs ih => rw [checkpointsOf, ih, List.flatMap_cons]

end Sketch

namespace Policy

mutual

/-- A policy as a sketch. -/
def sketch : Policy → Sketch
  | key k => .key k.algorithm (k.bytes.map UInt8.toNat)
  | allOf cs => .allOf (sketches cs)
  | threshold m cs => .threshold m.toNat (sketches cs)
  | contract n => .contract n.toNat
  | delegatableContract n => .delegatableContract n.toNat
  | rsa3072 bs => .rsa3072 (bs.map UInt8.toNat)
  | ecdsaP384 bs => .ecdsaP384 (bs.map UInt8.toNat)

def sketches : List Policy → List Sketch
  | [] => []
  | c :: cs => c.sketch :: sketches cs

end

theorem sketches_eq_map (cs : List Policy) : sketches cs = cs.map sketch := by
  induction cs with
  | nil => rfl
  | cons c cs ih => rw [sketches, ih, List.map_cons]

end Policy

namespace Sketch

/-! ## Writing a sketch -/

theorem writes_list {γ : Type} {xs : List γ} {ws : γ → Writer} {heights : γ → Nat}
    (h : ∀ x ∈ xs, Writes (ws x) (heights x)) :
    Writes (.list (xs.map ws)) (1 + tallest (xs.map heights)) :=
  .list (List.forall₂_map_left_iff.2 (List.forall₂_map_right_iff.2 (List.forall₂_same.2 h)))

theorem bracketless_name (a : Algorithm) : Bracketless (Token.text a.name).spell := by
  cases a <;> decide

/-- Numbers have no brackets, so an array of them has one. -/
theorem writes_numbers (ns : List Nat) : Writes (writeNumbers ns) 1 := by
  have h := writes_list fun n (_ : n ∈ ns) => Writes.natural n
  rwa [tallest_zeros] at h

theorem writes_key (a : Algorithm) (ns : List Nat) : Writes (writeKey a ns) 2 := by
  have halgorithm : Bracketless (Token.text "algorithm").spell := by decide
  have hkey : Bracketless (Token.text "public_key").spell := by decide
  have h : Writes (writeKey a ns) (1 + tallest [0, 1]) :=
    .record (.cons ⟨halgorithm, .text (bracketless_name a)⟩ (.cons ⟨hkey, writes_numbers ns⟩ .nil))
  exact h

section Children

variable {cs : List Sketch}

theorem writes_children (hw : ∀ c ∈ cs, Writes c.write c.height) :
    Writes (Format.writeChildren (writeAll cs)) (2 + maxHeight cs) := by
  have hkeys : Bracketless (Token.text "keys").spell := by decide
  have h : Writes (.record [("keys", .list (cs.map write))])
      (1 + tallest [1 + tallest (cs.map height)]) := .record (.cons ⟨hkeys, writes_list hw⟩ .nil)
  have hheight : 2 + maxHeight cs = 1 + tallest [1 + tallest (cs.map height)] := by
    rw [tallest_singleton, maxHeight_eq, ← Nat.add_assoc]
  rw [hheight, writeAll_eq_map]
  exact h

theorem writes_threshold (hw : ∀ c ∈ cs, Writes c.write c.height) (m : Nat) :
    Writes (writeThreshold m (writeAll cs)) (3 + maxHeight cs) := by
  have hthreshold : Bracketless (Token.text "threshold").spell := by decide
  have hkeys : Bracketless (Token.text "keys").spell := by decide
  have h : Writes (writeThreshold m (writeAll cs)) (1 + tallest [0, 2 + maxHeight cs]) :=
    .record (.cons ⟨hthreshold, .natural m⟩ (.cons ⟨hkeys, writes_children hw⟩ .nil))
  have hheight : 3 + maxHeight cs = 1 + tallest [0, 2 + maxHeight cs] := by
    simp only [tallest, List.foldr_cons, List.foldr_nil]
    omega
  rwa [hheight]

end Children

theorem writes (s : Sketch) : Writes s.write s.height := by
  induction s using Sketch.induction with
  | key a ns => exact .variant (by decide) (writes_key a ns)
  | allOf cs ih =>
    have hname : Bracketless (Token.text "KeyList").spell := by decide
    have h := Writes.variant hname (writes_children ih)
    rwa [← Nat.add_assoc] at h
  | threshold m cs ih =>
    have hname : Bracketless (Token.text "Threshold").spell := by decide
    have h := Writes.variant hname (writes_threshold ih m)
    rwa [← Nat.add_assoc] at h
  | contract n => exact .variant (by decide) (.natural n)
  | delegatableContract n => exact .variant (by decide) (.natural n)
  | rsa3072 ns => exact .variant (by decide) (writes_numbers ns)
  | ecdsaP384 ns => exact .variant (by decide) (writes_numbers ns)

/-! ## Reading what was written -/

section Leaves

variable (most : Nat)

/-- A number below the bound of its type is read as itself. -/
theorem reads_bounded {α : Type} {bound : Nat} {ofNat : Nat → α} {toNat : α → Nat}
    (h : ∀ n, n < bound → toNat (ofNat n) = n) (n : Nat) :
    Reads most ((Reader.natural bound).map ofNat) (.natural n) (fun _ => [.number n bound])
      (toNat · = n) := by
  refine (Reads.natural most bound n).map fun m hm => ?_
  obtain ⟨rfl, hlt⟩ := hm
  exact h m hlt

theorem reads_uint32 (n : Nat) :
    Reads most Format.uint32.read (.natural n) (fun _ => [.number n UInt32.size]) (·.toNat = n) :=
  reads_bounded most (fun _ => UInt32.toNat_ofNat_of_lt) n

theorem reads_uint64 (n : Nat) :
    Reads most Format.uint64.read (.natural n) (fun _ => [.number n UInt64.size]) (·.toNat = n) :=
  reads_bounded most (fun _ => UInt64.toNat_ofNat_of_lt) n

theorem reads_byte (n : Nat) :
    Reads most Format.byte.read (.natural n) (fun _ => [.number n UInt8.size]) (·.toNat = n) :=
  reads_bounded most (fun _ => UInt8.toNat_ofNat_of_lt) n

theorem reads_bytes (ns : List Nat) :
    Reads most Format.bytes.read (writeNumbers ns) (byteCheckpoints · ns)
      (·.map UInt8.toNat = ns) := by
  have hlist := Reads.list (fun n _ => Writes.natural n) (fun n (_ : n ∈ ns) => reads_byte most n)
  simp only [← List.map_eq_flatMap] at hlist
  exact hlist.mono (Nat.le_succ most)

theorem reads_algorithm (a : Algorithm) :
    Reads most Format.algorithm.read (.text a.name) (fun _ => []) (· = a) := by
  intro level room rest _
  rw [Writer.text]
  simp [Format.algorithm, Format.readAlgorithm, Meets]

/-- A key is checked at its closing bracket, behind all of its bytes. -/
theorem reads_key (a : Algorithm) (ns : List Nat) :
    Reads most Format.publicKey.read (writeKey a ns) (keyCheckpoints · a ns)
      (fun k => k.algorithm = a ∧ k.bytes.map UInt8.toNat = ns) := by
  have hfields : Reads.Fields most Format.publicKeyFields ⟨none, none⟩
      [("algorithm", .text a.name), ("public_key", writeNumbers ns)]
      (fun level => [] ++ (byteCheckpoints level ns ++ []))
      (fun s => ∃ bs, bs.map UInt8.toNat = ns ∧ s = ⟨some a, some bs⟩) := by
    refine .cons rfl rfl (.text (bracketless_name a)) (reads_algorithm most a) fun b hb => ?_
    refine .cons rfl rfl (writes_numbers ns) (reads_bytes most ns) fun bs hbs => ?_
    exact .nil ⟨bs, hbs, by rw [hb]⟩
  have hrecord := (Reads.record hfields).mono (Nat.le_succ most)
  simp only [List.nil_append, List.append_nil] at hrecord
  -- The check adds the last checkpoint, which sees the bytes as the numbers that were written.
  refine hrecord.check [.key a ns] fun limit s hs => ?_
  obtain ⟨bs, rfl, rfl⟩ := hs
  have hbytes : (bs.map UInt8.toNat).map UInt8.ofNat = bs := by simp [Function.comp_def]
  have hlast : firstViolation? limit [.key a (bs.map UInt8.toNat)] =
      Checkpoint.violation? limit (.key a (bs.map UInt8.toNat)) := by
    simp [firstViolation?]
  have hcheck : Format.publicKeyOfFields ⟨some a, some bs⟩ =
      (PublicKey.ofBytes a bs).mapError ReadError.key := rfl
  rw [hlast, Checkpoint.violation?, hbytes, hcheck]
  cases hkey : PublicKey.ofBytes a bs with
  | ok k =>
    obtain ⟨rfl, rfl⟩ := PublicKey.ofBytes_eq_ok_iff.1 hkey
    exact .inl ⟨k, rfl, ⟨rfl, rfl⟩, rfl⟩
  | error e => exact .inr ⟨.key e, rfl, rfl⟩

end Leaves

section Children

variable {most : Nat} {child : Reader Policy} {cs : List Sketch}

theorem reads_children (hw : ∀ c ∈ cs, Writes c.write c.height)
    (h : ∀ c ∈ cs, Reads most child c.write (checkpoints · c) (·.sketch = c)) :
    Reads most (Format.readChildren child) (Format.writeChildren (writeAll cs))
      (fun level => .bracket (level + 1) :: .bracket (level + 2) :: checkpointsOf (level + 2) cs)
      (Policy.sketches · = cs) := by
  have hlist := (Reads.list hw h).mono (Nat.le_succ most)
  have hfields : Reads.Fields most (Format.childrenFields child) none
      [("keys", .list (cs.map write))]
      (fun level => (.bracket (level + 1) :: cs.flatMap (checkpoints (level + 1))) ++ [])
      (fun s => ∃ ps, s = some ps ∧ Policy.sketches ps = cs) := by
    refine .cons rfl rfl (writes_list hw) hlist fun ps hps => .nil ⟨ps, rfl, ?_⟩
    rw [Policy.sketches_eq_map, hps]
  have hrecord := (Reads.record hfields).mono (Nat.le_succ most)
  rw [← writeAll_eq_map] at hrecord
  have hneed : Reads most (Format.readChildren child) _ _ (Policy.sketches · = cs) :=
    hrecord.check_of_ok fun s hs => by
      obtain ⟨ps, rfl, hps⟩ := hs
      exact ⟨ps, rfl, hps⟩
  simp only [List.append_nil] at hneed
  simp only [checkpointsOf_eq_flatMap]
  exact hneed

theorem reads_threshold (hw : ∀ c ∈ cs, Writes c.write c.height)
    (h : ∀ c ∈ cs, Reads most child c.write (checkpoints · c) (·.sketch = c)) (m : Nat) :
    Reads most (Format.readThreshold child) (writeThreshold m (writeAll cs))
      (fun level => .bracket (level + 1) :: .number m UInt32.size :: .bracket (level + 2) ::
        .bracket (level + 3) :: checkpointsOf (level + 3) cs)
      (fun t => t.1.toNat = m ∧ Policy.sketches t.2 = cs) := by
  have hfields : Reads.Fields most (Format.thresholdFields child) ⟨none, none⟩
      [("threshold", .natural m), ("keys", Format.writeChildren (writeAll cs))]
      (fun level => [.number m UInt32.size] ++ (.bracket (level + 1) :: .bracket (level + 2) ::
        checkpointsOf (level + 2) cs ++ []))
      (fun s => ∃ t : UInt32 × List Policy,
        (t.1.toNat = m ∧ Policy.sketches t.2 = cs) ∧ s = ⟨some t.1, some t.2⟩) := by
    refine .cons rfl rfl (.natural m) (reads_uint32 most m) fun n hn => ?_
    refine .cons rfl rfl (writes_children hw) (reads_children hw h) fun ps hps => ?_
    exact .nil ⟨(n, ps), ⟨hn, hps⟩, rfl⟩
  have hrecord := (Reads.record hfields).mono (Nat.le_succ most)
  simp only [List.append_nil] at hrecord
  refine hrecord.check_of_ok fun s hs => ?_
  obtain ⟨t, ht, rfl⟩ := hs
  exact ⟨t, rfl, ht⟩

end Children

/-- The reader of policies takes a sketch up to its first violation. -/
theorem reads (levels : Nat) (s : Sketch) :
    Reads levels (Format.readPolicyWithin levels) s.write (checkpoints · s) (·.sketch = s) := by
  induction levels generalizing s with
  | zero =>
    -- No level is left, and no room for the first bracket either.
    intro level room rest hroom
    obtain ⟨cps, hcps⟩ : ∃ cps, s.checkpoints level = .bracket (level + 1) :: cps := by
      cases s <;> exact ⟨_, rfl⟩
    obtain rfl := Nat.le_zero.1 hroom
    show firstViolation? level (s.checkpoints level) = some .malformed
    rw [hcps]
    exact firstViolation?_bracket_of_lt (Nat.lt_succ_self level) cps
  | succ levels ih =>
    cases s with
    | key a ns =>
      have h := reads_key levels a ns
      exact .variant rfl (h.map fun k hk => by rw [Policy.sketch, hk.1, hk.2])
    | allOf cs =>
      have h := reads_children (fun c _ => c.writes) fun c (_ : c ∈ cs) => ih c
      exact .variant rfl (h.map fun ps hps => by rw [Policy.sketch, hps])
    | threshold m cs =>
      have h := reads_threshold (fun c _ => c.writes) (fun c (_ : c ∈ cs) => ih c) m
      exact .variant rfl (h.map fun t ht => by rw [Policy.sketch, ht.1, ht.2])
    | contract n =>
      exact .variant rfl ((reads_uint64 levels n).map fun m hm => by rw [Policy.sketch, hm])
    | delegatableContract n =>
      exact .variant rfl ((reads_uint64 levels n).map fun m hm => by rw [Policy.sketch, hm])
    | rsa3072 ns =>
      exact .variant rfl ((reads_bytes levels ns).map fun bs hbs => by rw [Policy.sketch, hbs])
    | ecdsaP384 ns =>
      exact .variant rfl ((reads_bytes levels ns).map fun bs hbs => by rw [Policy.sketch, hbs])

end Sketch

end KeyPolicy
