/-!
# Byte strings

Keys, signatures and digests are byte strings of any length. A byte string is a list, so that
"leading bytes" is the prefix order on lists; it has a hexadecimal text with two lowercase digits
a byte, and a value when its bytes are read as one number, the most significant byte first.
-/

namespace KeyPolicy

abbrev Bytes := List UInt8

/-- The two lowercase hexadecimal digits of a byte. -/
def hexDigits (b : UInt8) : List Char :=
  [Nat.digitChar (b.toNat / 16), Nat.digitChar (b.toNat % 16)]

def Bytes.hex (bs : Bytes) : String :=
  String.ofList (bs.flatMap hexDigits)

/-- The number that a byte string writes in base 256, most significant byte first. -/
def Bytes.toNat (bs : Bytes) : Nat :=
  bs.foldl (fun n b => n * 256 + b.toNat) 0

/-- The lowest `width` bytes of a number, most significant byte first. -/
def Bytes.ofNat : (width n : Nat) → Bytes
  | 0, _ => []
  | width + 1, n => Bytes.ofNat width (n / 256) ++ [UInt8.ofNat n]

@[simp] theorem Bytes.length_ofNat (width n : Nat) : (Bytes.ofNat width n).length = width := by
  induction width generalizing n with
  | zero => rfl
  | succ width ih => simp [Bytes.ofNat, ih]

end KeyPolicy
