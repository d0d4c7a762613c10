import Mathlib.Data.List.Prime
import Mathlib.NumberTheory.LucasPrimality
import Mathlib.Tactic.NormNum.Prime
import KeyPolicy.Secp256k1

/-!
# The field of secp256k1

The coordinates of a point are numbers modulo `p = 2²⁵⁶ - 2³² - 977`.

**Theorem (`prime_fieldPrime`).** The number `p` is prime.

The proof is Lucas's test (`lucas_primality`): if the power of some number to `n - 1` is one modulo
`n`, and its power to `(n - 1) / q` is not, for any prime factor `q` of `n - 1`, then `n` is prime.
All prime factors of `p - 1` are small but one of 237 bits, which is tested in the same way. The
chain of large factors has six members, and the factors below them are small. The powers are those
of `powMod`, with one or two products for each bit of the exponent.
-/

namespace KeyPolicy.Secp256k1

/-! ## Powers by repeated squaring -/

theorem powMod_eq (n : Nat) {bits a k : Nat} (h : k < 2 ^ bits) :
    powMod n bits a k = a ^ k % n := by
  induction bits generalizing a k with
  | zero =>
    rw [Nat.pow_zero] at h
    rw [Nat.lt_one_iff.1 h]
    rfl
  | succ bits ih =>
    have hhalf : k / 2 < 2 ^ bits := Nat.div_lt_of_lt_mul (Nat.pow_succ' ▸ h)
    have hrest : powMod n bits (a * a % n) (k / 2) = a ^ (2 * (k / 2)) % n := by
      rw [ih hhalf, ← Nat.pow_mod, pow_mul, sq]
    have hk : 2 * (k / 2) + k % 2 = k := Nat.div_add_mod k 2
    rw [powMod, hrest]
    split
    · next hodd => rw [Nat.mul_mod_mod, ← pow_succ', ← hodd, hk]
    · next heven =>
      have hzero : k % 2 = 0 := by omega
      rw [← hk, hzero, Nat.add_zero, Nat.mul_div_cancel_left _ Nat.two_pos]

theorem natCast_pow_eq_one_iff {n bits a k : Nat} (hn : 1 < n) (hk : k < 2 ^ bits) :
    (a : ZMod n) ^ k = 1 ↔ powMod n bits a k = 1 := by
  rw [powMod_eq n hk, ← Nat.cast_pow, ← Nat.cast_one, ZMod.natCast_eq_natCast_iff',
    Nat.mod_eq_of_lt hn]

/-! ## Lucas's test -/

/-- A number to be tested, a base for the powers, and the prime factors of the number less one with
their multiplicities. -/
structure LucasTest where
  number : Nat
  base : Nat
  factors : List (Nat × Nat)

namespace LucasTest

/-- The powers are as Lucas's test asks, and the factors make up the number less one. -/
def Passes (t : LucasTest) : Prop :=
  1 < t.number ∧ t.number < 2 ^ 256 ∧
    (t.factors.map fun f => f.1 ^ f.2).prod = t.number - 1 ∧
    powMod t.number 256 t.base (t.number - 1) = 1 ∧
    ∀ f ∈ t.factors, powMod t.number 256 t.base ((t.number - 1) / f.1) ≠ 1

instance (t : LucasTest) : Decidable t.Passes := inferInstanceAs (Decidable (_ ∧ _))

theorem Passes.prime {t : LucasTest} (h : t.Passes) (hfactors : ∀ f ∈ t.factors, f.1.Prime) :
    t.number.Prime := by
  obtain ⟨hn, hbits, hprod, hone, hne⟩ := h
  have hlt : ∀ k ≤ t.number - 1, k < 2 ^ 256 := fun k hk =>
    (hk.trans (Nat.sub_le _ 1)).trans_lt hbits
  apply lucas_primality t.number (t.base : ZMod t.number)
  · exact (natCast_pow_eq_one_iff hn (hlt _ le_rfl)).2 hone
  · intro q hq hdvd
    rw [← hprod, hq.prime.dvd_prod_iff] at hdvd
    obtain ⟨x, hx, hqx⟩ := hdvd
    obtain ⟨f, hf, rfl⟩ := List.mem_map.1 hx
    have hqf : q = f.1 := (Nat.prime_dvd_prime_iff_eq hq (hfactors f hf)).1 (hq.dvd_of_dvd_pow hqx)
    rw [Ne, natCast_pow_eq_one_iff hn (hlt _ (Nat.div_le_self ..)), hqf]
    exact hne f hf

/-- Each test passes, with factors that are among the given numbers or were tested before. -/
def Chain : List Nat → List LucasTest → Prop
  | _, [] => True
  | primes, t :: ts =>
    t.Passes ∧ (∀ f ∈ t.factors, f.1 ∈ primes) ∧ Chain (t.number :: primes) ts

instance decidableChain : ∀ primes ts, Decidable (Chain primes ts)
  | _, [] => inferInstanceAs (Decidable True)
  | primes, t :: ts =>
    have := decidableChain (t.number :: primes) ts
    inferInstanceAs (Decidable (_ ∧ _ ∧ _))

theorem Chain.prime {primes : List Nat} {ts : List LucasTest} (h : Chain primes ts)
    (hprimes : ∀ q ∈ primes, q.Prime) : ∀ t ∈ ts, t.number.Prime := by
  induction ts generalizing primes with
  | nil => exact fun t ht => absurd ht List.not_mem_nil
  | cons t ts ih =>
    obtain ⟨hpasses, hfactors, hrest⟩ := h
    have ht : t.number.Prime := hpasses.prime fun f hf => hprimes _ (hfactors f hf)
    exact List.forall_mem_cons.2 ⟨ht, ih hrest (List.forall_mem_cons.2 ⟨ht, hprimes⟩)⟩

end LucasTest

/-! ## The certificate -/

def smallFactors : List Nat :=
  [2, 3, 5, 7, 11, 29, 31, 1627, 2621, 2657, 4423, 5323, 7723, 13441, 24809, 41201, 96557, 7240687,
    13331831, 107590001]

theorem prime_of_mem_smallFactors : ∀ q ∈ smallFactors, q.Prime := by
  simp only [smallFactors, List.forall_mem_cons]
  norm_num

/-- The field prime and the large factors below it, the smallest first. -/
def certificate : List LucasTest := [
  ⟨173378833005251801, 6, [(2, 3), (5, 2), (2621, 1), (24809, 1), (13331831, 1)]⟩,
  ⟨22149492674086928081353, 5, [(2, 3), (3, 1), (5323, 1), (173378833005251801, 1)]⟩,
  ⟨132896956044521568488119, 6, [(2, 1), (3, 1), (22149492674086928081353, 1)]⟩,
  ⟨255515944373312847190720520512484175977, 3,
    [(2, 3), (7, 2), (11, 1), (1627, 1), (2657, 1), (4423, 1), (41201, 1), (96557, 1), (7240687, 1),
      (107590001, 1)]⟩,
  ⟨205115282021455665897114700593932402728804164701536103180137503955397371, 10,
    [(2, 1), (3, 1), (5, 1), (29, 2), (31, 1), (7723, 1), (132896956044521568488119, 1),
      (255515944373312847190720520512484175977, 1)]⟩,
  ⟨fieldPrime, 3,
    [(2, 1), (3, 1), (7, 1), (13441, 1),
      (205115282021455665897114700593932402728804164701536103180137503955397371, 1)]⟩]

/-- **The field prime is prime.** -/
theorem prime_fieldPrime : fieldPrime.Prime := by
  have hchain : LucasTest.Chain smallFactors certificate := by decide +kernel
  have hne : certificate ≠ [] := List.cons_ne_nil _ _
  exact hchain.prime prime_of_mem_smallFactors (certificate.getLast hne) (List.getLast_mem hne)

end KeyPolicy.Secp256k1
