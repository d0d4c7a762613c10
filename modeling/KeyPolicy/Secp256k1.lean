import KeyPolicy.Bytes

/-!
# Points of secp256k1

The curve `y² = x³ + 7` over the integers modulo `p = 2²⁵⁶ - 2³² - 977`. A point is a pair of
coordinates below `p` that satisfies the equation; the point at infinity is not among them.

A point is written in one of four ways: the byte `04` and both coordinates, or one of the bytes
`02`, `03`, `05` and only the first coordinate, the second being the even root for `02` and `05`
and the odd root for `03`. Coordinates are 32 bytes, most significant first, and are refused, not
reduced, when they are not below `p`.

Because `p` leaves the remainder three when divided by four, `aᵉ` with `e = (p + 1) / 4` is a square
root of `a` whenever `a` has one. A candidate that is no root fails the equation of the curve, which
is always checked.
-/

namespace KeyPolicy.Secp256k1

def fieldPrime : Nat :=
  0xfffffffffffffffffffffffffffffffffffffffffffffffffffffffefffffc2f

/-- The two numbers are the reduced coordinates of a point of the curve. -/
structure OnCurve (x y : Nat) : Prop where
  x_lt : x < fieldPrime
  y_lt : y < fieldPrime
  equation : y * y % fieldPrime = (x * x * x + 7) % fieldPrime

instance (x y : Nat) : Decidable (OnCurve x y) :=
  decidable_of_iff
    (x < fieldPrime ∧ y < fieldPrime ∧ y * y % fieldPrime = (x * x * x + 7) % fieldPrime)
    ⟨fun h => ⟨h.1, h.2.1, h.2.2⟩, fun h => ⟨h.x_lt, h.y_lt, h.equation⟩⟩

/-- A point of the curve other than the point at infinity. -/
structure Point where
  x : Nat
  y : Nat
  onCurve : OnCurve x y
  deriving DecidableEq

/-- `base ^ exponent % modulus` for an exponent of at most `bits` bits, by repeated squaring. -/
def powMod (modulus : Nat) : (bits base exponent : Nat) → Nat
  | 0, _, _ => 1 % modulus
  | bits + 1, base, exponent =>
    let rest := powMod modulus bits (base * base % modulus) (exponent / 2)
    if exponent % 2 = 1 then base * rest % modulus else rest

/-- A square root of `a` modulo the field prime, if there is one. -/
def squareRoot (a : Nat) : Nat := powMod fieldPrime 256 a ((fieldPrime + 1) / 4)

namespace Point

def ofCoordinates? (x y : Nat) : Option Point :=
  if h : OnCurve x y then some ⟨x, y, h⟩ else none

/-- The point with the given first coordinate and parity of the second, if there is one. -/
def ofX? (odd : Bool) (x : Nat) : Option Point :=
  let root := squareRoot (x * x * x + 7)
  ofCoordinates? x (if decide (root % 2 = 1) = odd then root else fieldPrime - root)

/-- The point that a byte string writes, if it writes one. -/
def decode? : Bytes → Option Point
  | [] => none
  | tag :: coordinates =>
    if tag = 0x04 ∧ coordinates.length = 64 then
      ofCoordinates? (Bytes.toNat (coordinates.take 32)) (Bytes.toNat (coordinates.drop 32))
    else if (tag = 0x02 ∨ tag = 0x05) ∧ coordinates.length = 32 then
      ofX? false (Bytes.toNat coordinates)
    else if tag = 0x03 ∧ coordinates.length = 32 then
      ofX? true (Bytes.toNat coordinates)
    else
      none

/-- Both coordinates, 32 bytes each, without a tag. -/
def coordinateBytes (p : Point) : Bytes := Bytes.ofNat 32 p.x ++ Bytes.ofNat 32 p.y

end Point

end KeyPolicy.Secp256k1
