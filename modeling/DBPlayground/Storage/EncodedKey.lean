import DBPlayground.Lib.ByteReader
import DBPlayground.Storage.Config
import Mathlib.Data.List.Lex
import Mathlib.Order.Lattice

namespace DBPlayground.Storage

open ByteReader

structure EncodedKey where
  bytes : Bytes
  length_eq : bytes.length = kKeyLen
  deriving DecidableEq

namespace EncodedKey

instance : Inhabited EncodedKey := ⟨⟨List.replicate kKeyLen 0, List.length_replicate⟩⟩

def ordinals (k : EncodedKey) : List Nat := k.bytes.map BitVec.toNat

theorem ordinals_injective : Function.Injective ordinals := by
  rintro ⟨a, ha⟩ ⟨b, hb⟩ h
  have hinj : Function.Injective (BitVec.toNat : Byte → Nat) := fun x y => BitVec.eq_of_toNat_eq
  have hab : a = b := List.map_injective_iff.mpr hinj h
  subst hab
  rfl

/-- The order of `memcmp`: the bytes are compared one by one as unsigned
numbers. -/
instance : LinearOrder EncodedKey := LinearOrder.lift' ordinals ordinals_injective

end EncodedKey

/-- `EncodedKeyFromSlice` behind the size check of `ToKey`. -/
def toKey (key : Bytes) : Option EncodedKey :=
  if h : key.length = kKeyLen then some ⟨key, h⟩ else none

end DBPlayground.Storage
