import KeyPolicy.Bytes

/-!
# Keccak-256

The hash behind account addresses: the Keccak permutation on 25 lanes of 64 bits, absorbing blocks
of 136 bytes, with the padding of the first Keccak submission. That padding puts `01` behind the
message and `80` at the end of the last block, both in one byte `81` if only one byte is free. (The
later SHA-3 standard puts `06` instead of `01`, so its digests differ.)

The lane in column `x` and row `y` is number `x + 5 y` of the state. Each of the step mappings is
given lane by lane through `State.lane` and `State.ofLanes`; columns and rows are counted modulo
five, which is the arithmetic of `Fin 5`.
-/

namespace KeyPolicy.Keccak

/-- The 25 lanes that the permutation works on. -/
abbrev State := Vector UInt64 25

namespace State

/-- The lane in a column and a row. -/
def lane (s : State) (x y : Fin 5) : UInt64 := s[x.val + 5 * y.val]

def ofLanes (f : Fin 5 → Fin 5 → UInt64) : State :=
  Vector.ofFn fun i => f ⟨i.val % 5, by omega⟩ ⟨i.val / 5, by omega⟩

@[simp] theorem lane_ofLanes (f : Fin 5 → Fin 5 → UInt64) (x y : Fin 5) :
    (ofLanes f).lane x y = f x y := by
  have hx : (x.val + 5 * y.val) % 5 = x.val := by omega
  have hy : (x.val + 5 * y.val) / 5 = y.val := by omega
  simp [lane, ofLanes, hx, hy]

end State

def rotate (w : UInt64) (n : UInt64) : UInt64 := (w <<< n) ||| (w >>> (64 - n))

/-! ## The step mappings -/

/-- Exclusive or of the five lanes of each column. -/
def parities (s : State) : Vector UInt64 5 :=
  Vector.ofFn fun x => s.lane x 0 ^^^ s.lane x 1 ^^^ s.lane x 2 ^^^ s.lane x 3 ^^^ s.lane x 4

/-- Mix into each column the parities of its two neighbours. -/
def theta (s : State) : State :=
  let sums := parities s
  .ofLanes fun x y => s.lane x y ^^^ (sums[x - 1] ^^^ rotate sums[x + 1] 1)

/-- How far each lane is rotated, row by row. -/
def offsets : Vector UInt64 25 := #v[
  0, 1, 62, 28, 27,
  36, 44, 6, 55, 20,
  3, 10, 43, 25, 39,
  41, 45, 15, 21, 8,
  18, 2, 61, 56, 14]

/-- Rotate each lane by its offset and move it to its new place. -/
def rhoPi (s : State) : State :=
  .ofLanes fun x y => rotate (s.lane (x + 3 * y) x) (State.lane offsets (x + 3 * y) x)

/-- Combine each lane with the next two of its row; the only step that is not linear. -/
def chi (s : State) : State :=
  .ofLanes fun x y => s.lane x y ^^^ (~~~ s.lane (x + 1) y &&& s.lane (x + 2) y)

/-- Mix the constant of a round into the first lane. -/
def iota (constant : UInt64) (s : State) : State := s.set 0 (s.lane 0 0 ^^^ constant)

def roundConstants : List UInt64 := [
  0x0000000000000001, 0x0000000000008082, 0x800000000000808a, 0x8000000080008000,
  0x000000000000808b, 0x0000000080000001, 0x8000000080008081, 0x8000000000008009,
  0x000000000000008a, 0x0000000000000088, 0x0000000080008009, 0x000000008000000a,
  0x000000008000808b, 0x800000000000008b, 0x8000000000008089, 0x8000000000008003,
  0x8000000000008002, 0x8000000000000080, 0x000000000000800a, 0x800000008000000a,
  0x8000000080008081, 0x8000000000008080, 0x0000000080000001, 0x8000000080008008]

def round (s : State) (constant : UInt64) : State := iota constant (chi (rhoPi (theta s)))

def permute (s : State) : State := roundConstants.foldl round s

/-! ## Absorbing a message -/

def rate : Nat := 136

/-- The message filled up to a whole number of blocks. -/
def pad (message : Bytes) : Bytes :=
  match rate - message.length % rate - 1 with
  | 0 => message ++ [0x81]
  | gap + 1 => message ++ 0x01 :: (List.replicate gap 0x00 ++ [0x80])

theorem length_pad (message : Bytes) : (pad message).length % rate = 0 := by
  have : message.length % rate < rate := Nat.mod_lt _ (by decide)
  unfold pad
  split <;> simp [rate] at * <;> omega

/-- The lane that eight bytes write, least significant byte first. -/
def laneOfBytes (bs : Bytes) : UInt64 :=
  bs.foldr (fun b w => w <<< 8 ||| b.toUInt64) 0

/-- Mix a block into the first lanes of the state. -/
def mixBlock (s : State) (block : Bytes) : State :=
  Vector.ofFn fun i => s[i] ^^^ laneOfBytes ((block.drop (8 * i.val)).take 8)

/-- Absorb the given number of blocks. -/
def absorb : (blocks : Nat) → State → Bytes → State
  | 0, s, _ => s
  | blocks + 1, s, bs => absorb blocks (permute (mixBlock s (bs.take rate))) (bs.drop rate)

/-- Byte `i` of the state, least significant byte of each lane first. -/
def stateByte (s : State) (i : Fin 32) : UInt8 :=
  (s[i.val / 8] >>> UInt64.ofNat (8 * (i.val % 8))).toUInt8

end Keccak

def keccak256 (message : Bytes) : Vector UInt8 32 :=
  let padded := Keccak.pad message
  Vector.ofFn (Keccak.stateByte
    (Keccak.absorb (padded.length / Keccak.rate) (Vector.replicate 25 0) padded))

-- The published digest of the empty message.
example : (keccak256 []).toList =
    Bytes.ofNat 32 0xc5d2460186f7233c927e7db2dcc703c0e500b653ca82273b7bfad8045d85a470 := by
  decide +kernel

end KeyPolicy
