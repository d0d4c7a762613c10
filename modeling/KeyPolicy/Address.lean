import KeyPolicy.Keccak
import KeyPolicy.PublicKey
import KeyPolicy.Secp256k1

/-!
# Account addresses of keys

A secp256k1 key also names an account: the last 20 bytes of the Keccak-256 digest of its point's
coordinates. Only the point counts, so every way of writing a point gives the same address. Bytes
that are no point have none; a key with such bytes can still be matched against signatures. Ed25519
keys have no address.
-/

namespace KeyPolicy

/-- The address of an account: 20 bytes. -/
abbrev Address := Vector UInt8 20

def Secp256k1.Point.address (p : Secp256k1.Point) : Address :=
  (keccak256 p.coordinateBytes).drop 12

/-- The address of the point that a byte string writes, if it writes one. -/
def Address.ofBytes? (bs : Bytes) : Option Address :=
  (Secp256k1.Point.decode? bs).map (·.address)

def PublicKey.address? (k : PublicKey) : Option Address :=
  match k.algorithm with
  | .ed25519 => none
  | .ecdsaSecp256k1 => Address.ofBytes? k.bytes

end KeyPolicy
