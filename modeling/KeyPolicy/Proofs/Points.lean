import Mathlib.FieldTheory.Finite.Basic
import Mathlib.Tactic.LinearCombination
import KeyPolicy.Address
import KeyPolicy.Proofs.FieldPrime

/-!
# Points and the byte strings that write them

`Writes x y bs` says without any computation that `bs` is one of the four ways to write the point
with coordinates `x` and `y`. Reading such a byte string takes a square root, since three of the
four ways leave out the second coordinate.

**Theorem (`Address.ofBytes?_writes`).** A byte string has an address exactly when it writes some
point of the curve, and the address is that of the point.

One candidate for the second coordinate is enough. If `x³ + 7` is a square at all, then the power
`squareRoot` takes of it is a root (`squareRoot_mul_self`), and the only other root is its negative
(`eq_or_add_eq`). The field prime is odd and no root is zero, because `-7` is not a cube
(`OnCurve.y_pos`). So one of the two roots is even and the other one is odd.
-/

namespace KeyPolicy

/-! ## Numbers and their bytes -/

theorem Bytes.toNat_concat (bs : Bytes) (b : UInt8) :
    Bytes.toNat (bs ++ [b]) = Bytes.toNat bs * 256 + b.toNat :=
  List.foldl_append

/-- A number that fits is read back from its bytes. -/
theorem Bytes.toNat_ofNat {width n : Nat} (h : n < 256 ^ width) :
    Bytes.toNat (Bytes.ofNat width n) = n := by
  induction width generalizing n with
  | zero =>
    rw [Nat.pow_zero] at h
    rw [Nat.lt_one_iff.1 h]
    rfl
  | succ width ih =>
    have hrest : n / 256 < 256 ^ width := Nat.div_lt_of_lt_mul (Nat.pow_succ' ▸ h)
    rw [Bytes.ofNat, Bytes.toNat_concat, ih hrest, UInt8.toNat_ofNat']
    exact Nat.div_add_mod' n 256

/-- A byte string is recovered from its length and the number that it writes. -/
theorem Bytes.ofNat_toNat {width : Nat} {bs : Bytes} (h : bs.length = width) :
    Bytes.ofNat width (Bytes.toNat bs) = bs := by
  subst h
  induction bs using List.reverseRecOn with
  | nil => rfl
  | append_singleton init b ih =>
    have hb : b.toNat < 256 := b.toNat_lt
    have hrest : Bytes.toNat (init ++ [b]) / 256 = Bytes.toNat init := by
      rw [Bytes.toNat_concat]
      omega
    have hlast : UInt8.ofNat (Bytes.toNat (init ++ [b])) = b := by
      apply UInt8.toNat_inj.1
      rw [UInt8.toNat_ofNat', Bytes.toNat_concat]
      omega
    rw [List.length_append, List.length_singleton, Bytes.ofNat, hrest, hlast, ih]

namespace Secp256k1

variable {x y z a : Nat}

instance : Fact fieldPrime.Prime := ⟨prime_fieldPrime⟩

/-! ## Square roots -/

/-- A square modulo a prime that leaves three modulo four has a power that is a root of it. -/
theorem pow_mul_pow_of_mul_self {n : Nat} [Fact n.Prime] (hn : n % 4 = 3) {a y : ZMod n}
    (h : y * y = a) : a ^ ((n + 1) / 4) * a ^ ((n + 1) / 4) = a := by
  have hexp : 2 * ((n + 1) / 4 + (n + 1) / 4) = n + 1 := by omega
  calc a ^ ((n + 1) / 4) * a ^ ((n + 1) / 4)
      = y ^ (2 * ((n + 1) / 4 + (n + 1) / 4)) := by rw [← pow_add, ← h, ← sq, ← pow_mul]
    _ = y ^ n * y := by rw [hexp, pow_succ]
    _ = a := by rw [ZMod.pow_card, h]

theorem squareRoot_eq (a : Nat) : squareRoot a = a ^ ((fieldPrime + 1) / 4) % fieldPrime :=
  powMod_eq fieldPrime (by decide)

theorem squareRoot_lt (a : Nat) : squareRoot a < fieldPrime := by
  rw [squareRoot_eq]
  exact Nat.mod_lt _ prime_fieldPrime.pos

/-- Whatever has a root has this one. -/
theorem squareRoot_mul_self (h : y * y % fieldPrime = a % fieldPrime) :
    squareRoot a * squareRoot a % fieldPrime = a % fieldPrime := by
  rw [← ZMod.natCast_eq_natCast_iff', Nat.cast_mul] at h ⊢
  rw [squareRoot_eq, ZMod.natCast_mod, Nat.cast_pow]
  exact pow_mul_pow_of_mul_self (by decide) h

/-- A square has no roots besides one and its negative. -/
theorem eq_or_add_eq (hy : y < fieldPrime) (hz : z < fieldPrime)
    (h : y * y % fieldPrime = z * z % fieldPrime) : y = z ∨ y + z = fieldPrime := by
  rw [← ZMod.natCast_eq_natCast_iff', Nat.cast_mul, Nat.cast_mul, mul_self_eq_mul_self_iff] at h
  rcases h with h | h
  · rw [ZMod.natCast_eq_natCast_iff', Nat.mod_eq_of_lt hy, Nat.mod_eq_of_lt hz] at h
    exact .inl h
  · have hsum : ((y + z : Nat) : ZMod fieldPrime) = 0 := by
      rw [Nat.cast_add, h, neg_add_cancel]
    have hdvd : fieldPrime ∣ y + z := (ZMod.natCast_eq_zero_iff _ _).1 hsum
    by_cases hzero : y + z = 0
    · exact .inl (by omega)
    · exact .inr (Nat.eq_of_dvd_of_lt_two_mul hzero hdvd (by omega))

/-! ## Points with one first coordinate -/

namespace OnCurve

/-- No second coordinate is zero. Otherwise `-7` would be a cube, and its power to a third of
`p - 1` would be one. -/
theorem y_pos (h : OnCurve x y) : 0 < y := by
  by_contra hy
  obtain rfl : y = 0 := Nat.eq_zero_of_not_pos hy
  have hcube : (x : ZMod fieldPrime) ^ 3 = ((fieldPrime - 7 : Nat) : ZMod fieldPrime) := by
    have h0 := (ZMod.natCast_eq_natCast_iff' _ _ _).2 h.equation
    have hle : 7 ≤ fieldPrime := by decide
    push_cast [hle, ZMod.natCast_self] at h0 ⊢
    linear_combination -h0
  have hx : (x : ZMod fieldPrime) ≠ 0 := by
    intro hx
    rw [hx, zero_pow (by decide), eq_comm, ZMod.natCast_eq_zero_iff] at hcube
    exact absurd hcube (by decide)
  have hpow : ((fieldPrime - 7 : Nat) : ZMod fieldPrime) ^ ((fieldPrime - 1) / 3) = 1 := by
    have hexp : 3 * ((fieldPrime - 1) / 3) = fieldPrime - 1 := by decide
    rw [← hcube, ← pow_mul, hexp, ZMod.pow_card_sub_one_eq_one hx]
  have hone : powMod fieldPrime 256 (fieldPrime - 7) ((fieldPrime - 1) / 3) = 1 :=
    (natCast_pow_eq_one_iff prime_fieldPrime.one_lt (by decide)).1 hpow
  exact absurd hone (by decide +kernel)

theorem neg (h : OnCurve x y) : OnCurve x (fieldPrime - y) where
  x_lt := h.x_lt
  y_lt := Nat.sub_lt prime_fieldPrime.pos h.y_pos
  equation := by
    rw [← h.equation, ← ZMod.natCast_eq_natCast_iff', Nat.cast_mul, Nat.cast_mul,
      Nat.cast_sub h.y_lt.le, ZMod.natCast_self, zero_sub, neg_mul_neg]

end OnCurve

namespace Point

variable {P : Point}

/-- The other point with the same first coordinate. -/
def neg (P : Point) : Point := ⟨P.x, fieldPrime - P.y, P.onCurve.neg⟩

theorem odd_neg (P : Point) : decide (P.neg.y % 2 = 1) = !decide (P.y % 2 = 1) := by
  have hy : P.neg.y = fieldPrime - P.y := rfl
  have hlt := P.onCurve.y_lt
  have hodd : fieldPrime % 2 = 1 := by decide
  rw [hy, ← decide_not, decide_eq_decide]
  omega

theorem ofCoordinates?_eq_some_iff : ofCoordinates? x y = some P ↔ P.x = x ∧ P.y = y := by
  unfold ofCoordinates?
  split
  · cases P
    simp [eq_comm]
  · next h =>
    refine iff_of_false nofun ?_
    rintro ⟨rfl, rfl⟩
    exact h P.onCurve

/-- Points are the solutions of the equation below the field prime. -/
theorem exists_coordinates_iff {Q : Nat → Nat → Prop} :
    (∃ x y, x < fieldPrime ∧ y < fieldPrime ∧ y ^ 2 % fieldPrime = (x ^ 3 + 7) % fieldPrime ∧
      Q x y) ↔ ∃ P : Point, Q P.x P.y := by
  simp only [sq, pow_three']
  constructor
  · rintro ⟨x, y, hx, hy, heq, hQ⟩
    exact ⟨⟨x, y, hx, hy, heq⟩, hQ⟩
  · rintro ⟨P, hQ⟩
    exact ⟨P.x, P.y, P.onCurve.x_lt, P.onCurve.y_lt, P.onCurve.equation, hQ⟩

/-- The point is found by its first coordinate and the parity of the second. -/
theorem ofX?_eq_some_iff {odd : Bool} :
    ofX? odd x = some P ↔ P.x = x ∧ decide (P.y % 2 = 1) = odd := by
  have hroot := squareRoot_lt (x * x * x + 7)
  have hodd : fieldPrime % 2 = 1 := by decide
  rw [ofX?, ofCoordinates?_eq_some_iff]
  refine and_congr_right fun hx => ?_
  subst hx
  have hsq : squareRoot (P.x * P.x * P.x + 7) * squareRoot (P.x * P.x * P.x + 7) % fieldPrime =
      P.y * P.y % fieldPrime :=
    (squareRoot_mul_self P.onCurve.equation).trans P.onCurve.equation.symm
  have hy := P.onCurve.y_pos
  have hlt := P.onCurve.y_lt
  -- The root that was computed is the second coordinate or its negative, of the other parity.
  generalize squareRoot (P.x * P.x * P.x + 7) = root at hroot hsq
  rcases eq_or_add_eq hroot hlt hsq with rfl | hsum
  · cases odd <;> by_cases hparity : P.y % 2 = 1 <;> simp [hparity] <;> omega
  · cases odd <;> by_cases hparity : root % 2 = 1 <;> simp [hparity] <;> omega

/-- There is a point with an odd second coordinate exactly where there is one with an even one. -/
theorem isSome_ofX?_eq (odd : Bool) (x : Nat) : (ofX? odd x).isSome = (ofX? (!odd) x).isSome := by
  have hneg : ∀ {odd}, (ofX? odd x).isSome = true → (ofX? (!odd) x).isSome = true := by
    intro odd h
    obtain ⟨P, hP⟩ := Option.isSome_iff_exists.1 h
    obtain ⟨hx, hparity⟩ := ofX?_eq_some_iff.1 hP
    have hP' : ofX? (!odd) x = some P.neg :=
      ofX?_eq_some_iff.2 ⟨hx, hparity ▸ P.odd_neg⟩
    exact Option.isSome_iff_exists.2 ⟨P.neg, hP'⟩
  rw [Bool.eq_iff_iff]
  refine ⟨hneg, fun h => ?_⟩
  have hback := hneg h
  rwa [Bool.not_not] at hback

end Point

/-! ## Byte strings -/

/-- The byte string writes the point with these coordinates. -/
inductive Writes (x y : Nat) : Bytes → Prop
  | both : Writes x y (0x04 :: (Bytes.ofNat 32 x ++ Bytes.ofNat 32 y))
  | even : y % 2 = 0 → Writes x y (0x02 :: Bytes.ofNat 32 x)
  | odd : y % 2 = 1 → Writes x y (0x03 :: Bytes.ofNat 32 x)
  | evenRoot : y % 2 = 0 → Writes x y (0x05 :: Bytes.ofNat 32 x)

theorem toNat_ofNat_of_lt (h : x < fieldPrime) : Bytes.toNat (Bytes.ofNat 32 x) = x :=
  Bytes.toNat_ofNat (h.trans (by decide))

namespace Point

variable {P : Point} {bs : Bytes}

theorem writes_of_decode? (h : decode? bs = some P) : Writes P.x P.y bs := by
  cases bs with
  | nil => cases h
  | cons tag coordinates =>
    rw [decode?] at h
    split_ifs at h with h₄ h₂ h₃
    · obtain ⟨rfl, hlen⟩ := h₄
      obtain ⟨hx, hy⟩ := ofCoordinates?_eq_some_iff.1 h
      have hbytes : coordinates = Bytes.ofNat 32 P.x ++ Bytes.ofNat 32 P.y := by
        rw [hx, hy, Bytes.ofNat_toNat (by simp [hlen]), Bytes.ofNat_toNat (by simp [hlen]),
          List.take_append_drop]
      exact hbytes ▸ .both
    · obtain ⟨htag, hlen⟩ := h₂
      obtain ⟨hx, hparity⟩ := ofX?_eq_some_iff.1 h
      have hbytes : coordinates = Bytes.ofNat 32 P.x := by rw [hx, Bytes.ofNat_toNat hlen]
      have heven : P.y % 2 = 0 := by simpa using hparity
      -- Two tags stand for an even second coordinate.
      rcases htag with rfl | rfl
      · exact hbytes ▸ .even heven
      · exact hbytes ▸ .evenRoot heven
    · obtain ⟨rfl, hlen⟩ := h₃
      obtain ⟨hx, hparity⟩ := ofX?_eq_some_iff.1 h
      have hbytes : coordinates = Bytes.ofNat 32 P.x := by rw [hx, Bytes.ofNat_toNat hlen]
      exact hbytes ▸ .odd (by simpa using hparity)

theorem decode?_of_writes (h : Writes P.x P.y bs) : decode? bs = some P := by
  have hx := toNat_ofNat_of_lt P.onCurve.x_lt
  have hy := toNat_ofNat_of_lt P.onCurve.y_lt
  have hlen : (Bytes.ofNat 32 P.x).length = 32 := Bytes.length_ofNat 32 P.x
  cases h with
  | both =>
    rw [decode?, if_pos ⟨rfl, by simp⟩, List.take_left' hlen, List.drop_left' hlen, hx, hy]
    exact ofCoordinates?_eq_some_iff.2 ⟨rfl, rfl⟩
  | even hparity | evenRoot hparity =>
    rw [decode?, if_neg (by simp), if_pos ⟨by decide, hlen⟩, hx]
    exact ofX?_eq_some_iff.2 ⟨rfl, by simp [hparity]⟩
  | odd hparity =>
    rw [decode?, if_neg (by simp), if_neg (by simp), if_pos ⟨rfl, hlen⟩, hx]
    exact ofX?_eq_some_iff.2 ⟨rfl, by simp [hparity]⟩

/-- A byte string is read as a point exactly when it writes the point. -/
theorem decode?_eq_some_iff : decode? bs = some P ↔ Writes P.x P.y bs :=
  ⟨writes_of_decode?, decode?_of_writes⟩

/-- The base point of the curve. -/
example : (decode? (0x02 :: Bytes.ofNat 32
      0x79be667ef9dcbbac55a06295ce870b07029bfcdb2dce28d959f2815b16f81798)).map (·.y) =
    some 0x483ada7726a3c4655da4fbfc0e1108a8fd17b448a68554199c47d08ffb10d4b8 := by
  decide +kernel

end Point

end Secp256k1

/-! ## Addresses -/

open Secp256k1

namespace Address

variable {bs : Bytes} {a : Address}

theorem ofBytes?_eq_some_iff :
    ofBytes? bs = some a ↔ ∃ P : Point, Writes P.x P.y bs ∧ P.address = a := by
  simp only [ofBytes?, Option.map_eq_some_iff, Point.decode?_eq_some_iff]

theorem ofBytes?_of_writes {P : Point} (h : Writes P.x P.y bs) : ofBytes? bs = some P.address :=
  ofBytes?_eq_some_iff.2 ⟨P, h, rfl⟩

theorem ofBytes?_eq_none_iff : ofBytes? bs = none ↔ ¬ ∃ P : Point, Writes P.x P.y bs := by
  rw [ofBytes?, Option.map_eq_none_iff, Option.eq_none_iff_forall_ne_some, not_exists]
  exact forall_congr' fun P => not_congr Point.decode?_eq_some_iff

theorem isSome_ofBytes?_odd (xs : Bytes) :
    (ofBytes? (0x03 :: xs)).isSome = (ofBytes? (0x02 :: xs)).isSome := by
  by_cases hlen : xs.length = 32 <;>
    simp [ofBytes?, Point.decode?, hlen, Point.isSome_ofX?_eq true]

theorem ofBytes?_evenRoot (xs : Bytes) : ofBytes? (0x05 :: xs) = ofBytes? (0x02 :: xs) := by
  simp [ofBytes?, Point.decode?]

/-- The last 20 bytes of the digest of both coordinates. -/
theorem toList_address (P : Point) :
    P.address.toList = (keccak256 P.coordinateBytes).toList.drop 12 :=
  Vector.toList_drop

/-- **Which byte strings have an address, and which one.** A byte string has an address exactly when
it writes a point of the curve over the integers modulo the prime `p`, and the address is then the
end of the digest of the coordinates. A point has one address in all its forms. The forms that leave
out the second coordinate have an address together or not at all. -/
theorem ofBytes?_writes (bs : Bytes) :
    let p := 2 ^ 256 - 2 ^ 32 - 977
    p.Prime ∧
    (∀ a, ofBytes? bs = some a ↔
      ∃ x y, x < p ∧ y < p ∧ y ^ 2 % p = (x ^ 3 + 7) % p ∧ Writes x y bs ∧
        a.toList = (keccak256 (Bytes.ofNat 32 x ++ Bytes.ofNat 32 y)).toList.drop 12) ∧
    (ofBytes? bs = none ↔
      ¬ ∃ x y, x < p ∧ y < p ∧ y ^ 2 % p = (x ^ 3 + 7) % p ∧ Writes x y bs) ∧
    (∀ P : Point, ofBytes? (0x04 :: P.coordinateBytes) = some P.address ∧
      ofBytes? ((if P.y % 2 = 0 then 0x02 else 0x03) :: Bytes.ofNat 32 P.x) = some P.address) ∧
    ∀ xs, (ofBytes? (0x03 :: xs)).isSome = (ofBytes? (0x02 :: xs)).isSome ∧
      ofBytes? (0x05 :: xs) = ofBytes? (0x02 :: xs) := by
  intro p
  have hp : p = fieldPrime := by decide
  rw [hp]
  refine ⟨prime_fieldPrime, fun a => ?_, ?_, fun P => ⟨?_, ?_⟩, fun xs => ⟨?_, ?_⟩⟩
  · rw [Point.exists_coordinates_iff, ofBytes?_eq_some_iff]
    refine exists_congr fun P => and_congr_right fun _ => ?_
    rw [← Vector.toList_inj, toList_address, eq_comm, Point.coordinateBytes]
  · rw [Point.exists_coordinates_iff, ofBytes?_eq_none_iff]
  · exact ofBytes?_of_writes .both
  · split
    · next heven => exact ofBytes?_of_writes (.even heven)
    · next hodd => exact ofBytes?_of_writes (.odd (by omega))
  · exact isSome_ofBytes?_odd xs
  · exact ofBytes?_evenRoot xs

end Address

end KeyPolicy
