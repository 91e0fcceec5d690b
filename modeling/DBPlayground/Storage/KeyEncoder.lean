import DBPlayground.Storage.EncodedKey
import Mathlib.Order.Compare

namespace DBPlayground.Storage

open ByteReader

def memcmp : Bytes → Bytes → Ordering
  | a :: as, b :: bs => (compare a.toNat b.toNat).then (memcmp as bs)
  | _, _ => .eq

def bigEndian : Nat → BitVec 64 → Bytes
  | 0, _ => []
  | k + 1, v => bigEndian k (v >>> 8) ++ [v.setWidth 8]

def putBigEndian64 (v : BitVec 64) : Bytes := bigEndian 8 v

def encodeInt (v : BitVec 64) : Bytes := putBigEndian64 (v ^^^ (1 <<< 63))

def encodeInt64 (v : BitVec 64) : Bytes := encodeInt v

def encodeInt32 (v : BitVec 32) : Bytes := encodeInt (v.signExtend 64)

def encodeDouble (bits : BitVec 64) : Bytes :=
  putBigEndian64 (if bits.msb then ~~~bits else bits ||| (1 <<< 63))

theorem memcmp_append {a b c d : Bytes} (h : a.length = b.length) :
    memcmp (a ++ c) (b ++ d) = (memcmp a b).then (memcmp c d) := by
  induction a generalizing b with
  | nil =>
      rw [List.eq_nil_of_length_eq_zero h.symm]
      rfl
  | cons x a ih =>
      obtain ⟨y, b, rfl⟩ := List.exists_cons_of_length_eq_add_one h.symm
      rw [List.cons_append, List.cons_append, memcmp, memcmp, ih (Nat.succ.inj h), Ordering.then_assoc]

theorem length_bigEndian (k : Nat) (v : BitVec 64) : (bigEndian k v).length = k := by
  induction k generalizing v with
  | zero => rfl
  | succ k ih => rw [bigEndian, List.length_append, ih, List.length_singleton]

theorem compare_digits {a b x y : Nat} (hx : x < 256) (hy : y < 256) :
    (compare a b).then (compare x y) = compare (256 * a + x) (256 * b + y) := by
  rcases Nat.lt_trichotomy a b with h | rfl | h
  · rw [Nat.compare_eq_lt.mpr h, Nat.compare_eq_lt.mpr (show 256 * a + x < 256 * b + y by omega)]
    rfl
  · rw [Nat.compare_eq_eq.mpr rfl, Ordering.eq_then]
    rcases Nat.lt_trichotomy x y with h | rfl | h
    · rw [Nat.compare_eq_lt.mpr h, Nat.compare_eq_lt.mpr (by omega)]
    · rw [Nat.compare_eq_eq.mpr rfl, Nat.compare_eq_eq.mpr rfl]
    · rw [Nat.compare_eq_gt.mpr h, Nat.compare_eq_gt.mpr (by omega)]
  · rw [Nat.compare_eq_gt.mpr h, Nat.compare_eq_gt.mpr (show 256 * b + y < 256 * a + x by omega)]
    rfl

theorem compare_eq_of {m n : Nat} {o : Ordering} (hlt : m < n → o = .lt) (heq : m = n → o = .eq)
    (hgt : n < m → o = .gt) : compare m n = o := by
  rcases Nat.lt_trichotomy m n with h | h | h
  · rw [hlt h, Nat.compare_eq_lt.mpr h]
  · rw [heq h, Nat.compare_eq_eq.mpr h]
  · rw [hgt h, Nat.compare_eq_gt.mpr h]

theorem memcmp_bigEndian (k : Nat) (u v : BitVec 64) :
    memcmp (bigEndian k u) (bigEndian k v) = compare (u.toNat % 256 ^ k) (v.toNat % 256 ^ k) := by
  induction k generalizing u v with
  | zero => simp [bigEndian, memcmp, Nat.mod_one]
  | succ k ih =>
      have hdigits : ∀ w : BitVec 64,
          w.toNat % 256 ^ (k + 1) = 256 * ((w >>> 8).toNat % 256 ^ k) + (w.setWidth 8).toNat := by
        intro w
        rw [BitVec.toNat_ushiftRight, Nat.shiftRight_eq_div_pow, BitVec.toNat_setWidth, pow_succ,
          Nat.mul_comm (256 ^ k), Nat.mod_mul, Nat.add_comm]
      rw [bigEndian, bigEndian, memcmp_append (by rw [length_bigEndian, length_bigEndian]), ih, hdigits, hdigits,
        ← compare_digits (BitVec.isLt _) (BitVec.isLt _)]
      simp [memcmp]

theorem memcmp_putBigEndian64 (u v : BitVec 64) :
    memcmp (putBigEndian64 u) (putBigEndian64 v) = compare u.toNat v.toNat := by
  rw [putBigEndian64, putBigEndian64, memcmp_bigEndian, Nat.mod_eq_of_lt (show u.toNat < 256 ^ 8 from u.isLt),
    Nat.mod_eq_of_lt (show v.toNat < 256 ^ 8 from v.isLt)]

theorem memcmp_lt_iff {a b : Bytes} (h : a.length = b.length) :
    memcmp a b = .lt ↔ a.map BitVec.toNat < b.map BitVec.toNat := by
  induction a generalizing b with
  | nil =>
      rw [List.eq_nil_of_length_eq_zero h.symm]
      exact iff_of_false nofun (List.lt_irrefl _)
  | cons x a ih =>
      obtain ⟨y, b, rfl⟩ := List.exists_cons_of_length_eq_add_one h.symm
      rw [memcmp, List.map_cons, List.map_cons, List.cons_lt_cons_iff, ← ih (Nat.succ.inj h),
        Ordering.then_eq_lt, Nat.compare_eq_lt, Nat.compare_eq_eq]

theorem memcmp_eq_iff {a b : Bytes} (h : a.length = b.length) : memcmp a b = .eq ↔ a = b := by
  induction a generalizing b with
  | nil =>
      rw [List.eq_nil_of_length_eq_zero h.symm]
      exact iff_of_true rfl rfl
  | cons x a ih =>
      obtain ⟨y, b, rfl⟩ := List.exists_cons_of_length_eq_add_one h.symm
      rw [memcmp, List.cons.injEq, ← ih (Nat.succ.inj h), Ordering.then_eq_eq, Nat.compare_eq_eq, BitVec.toNat_inj]

namespace EncodedKey

theorem lt_iff_memcmp {a b : EncodedKey} : a < b ↔ memcmp a.bytes b.bytes = .lt :=
  (memcmp_lt_iff (a.length_eq.trans b.length_eq.symm)).symm

theorem eq_iff_memcmp {a b : EncodedKey} : a = b ↔ memcmp a.bytes b.bytes = .eq := by
  rw [memcmp_eq_iff (a.length_eq.trans b.length_eq.symm)]
  obtain ⟨a, ha⟩ := a
  obtain ⟨b, hb⟩ := b
  exact mk.injEq a ha b hb ▸ Iff.rfl

end EncodedKey

namespace EncodedKey

def less (a b : EncodedKey) : Bool := memcmp a.bytes b.bytes = .lt

def equal (a b : EncodedKey) : Bool := memcmp a.bytes b.bytes = .eq

@[simp] theorem less_iff {a b : EncodedKey} : a.less b = true ↔ a < b := by
  simp [less, lt_iff_memcmp]

@[simp] theorem equal_iff {a b : EncodedKey} : a.equal b = true ↔ a = b := by
  simp [equal, eq_iff_memcmp]

end EncodedKey

section Integers

def int64Key (v : BitVec 64) : EncodedKey := ⟨encodeInt64 v, length_bigEndian 8 _⟩

def int32Key (v : BitVec 32) : EncodedKey := ⟨encodeInt32 v, length_bigEndian 8 _⟩

theorem toNat_flip (v : BitVec 64) : ((v ^^^ (1 <<< 63)).toNat : Int) = v.toInt + 2 ^ 63 := by
  have hdiv : (v.toNat ^^^ 2 ^ 63) / 2 ^ 63 = v.toNat / 2 ^ 63 ^^^ 1 := Nat.xor_div_two_pow
  have hmod : (v.toNat ^^^ 2 ^ 63) % 2 ^ 63 = v.toNat % 2 ^ 63 ^^^ 0 := Nat.xor_mod_two_pow
  have hlt := v.isLt
  have hval : (v ^^^ (1 <<< 63)).toNat = v.toNat ^^^ 2 ^ 63 := rfl
  rw [Nat.xor_zero] at hmod
  rw [hval, BitVec.toInt_eq_toNat_cond]
  generalize v.toNat ^^^ 2 ^ 63 = w at hdiv hmod
  obtain h | h : v.toNat / 2 ^ 63 = 0 ∨ v.toNat / 2 ^ 63 = 1 := by omega
  · rw [h, Nat.zero_xor] at hdiv
    omega
  · rw [h, Nat.xor_self] at hdiv
    omega

theorem memcmp_encodeInt (u v : BitVec 64) : memcmp (encodeInt u) (encodeInt v) = compare u.toInt v.toInt := by
  have hu := toNat_flip u
  have hv := toNat_flip v
  rw [encodeInt, encodeInt, memcmp_putBigEndian64]
  apply compare_eq_of
  · intro h
    rw [compare_lt_iff_lt]
    omega
  · intro h
    rw [compare_eq_iff_eq]
    omega
  · intro h
    rw [compare_gt_iff_gt]
    omega

/-- The encodings of the integers are ordered like the integers, and so are the keys
made from them. -/
theorem int_order :
    (∀ x y : BitVec 64, memcmp (encodeInt64 x) (encodeInt64 y) = compare x.toInt y.toInt) ∧
    (∀ x y : BitVec 32, memcmp (encodeInt32 x) (encodeInt32 y) = compare x.toInt y.toInt) ∧
    (∀ (x : BitVec 32) (y : BitVec 64), x.toInt = y.toInt → encodeInt32 x = encodeInt64 y) ∧
    (∀ x y : BitVec 64, ((int64Key x).less (int64Key y) = true ↔ x.toInt < y.toInt) ∧
      ((int64Key x).equal (int64Key y) = true ↔ x.toInt = y.toInt)) ∧
    (∀ x y : BitVec 32, ((int32Key x).less (int32Key y) = true ↔ x.toInt < y.toInt) ∧
      ((int32Key x).equal (int32Key y) = true ↔ x.toInt = y.toInt)) ∧
    IsStrictTotalOrder EncodedKey (fun a b => a.less b = true) ∧ ∀ a b : EncodedKey, a.equal b = true ↔ a = b := by
  have h32 : ∀ x y : BitVec 32, memcmp (encodeInt32 x) (encodeInt32 y) = compare x.toInt y.toInt := by
    intro x y
    rw [encodeInt32, encodeInt32, memcmp_encodeInt, BitVec.toInt_signExtend_of_le (by decide),
      BitVec.toInt_signExtend_of_le (by decide)]
  refine ⟨memcmp_encodeInt, h32, ?_, ?_, ?_, ?_, fun a b => EncodedKey.equal_iff⟩
  · intro x y h
    have hxy : x.signExtend 64 = y := by
      apply BitVec.eq_of_toInt_eq
      rw [BitVec.toInt_signExtend_of_le (by decide), h]
    rw [encodeInt32, encodeInt64, hxy]
  · intro x y
    simp [EncodedKey.less, EncodedKey.equal, int64Key, encodeInt64, memcmp_encodeInt, compare_lt_iff_lt]
  · intro x y
    simp [EncodedKey.less, EncodedKey.equal, int32Key, h32, compare_lt_iff_lt]
  · simp only [EncodedKey.less_iff]
    infer_instance

end Integers

section Doubles

variable {x y : BitVec 64}

def magnitude (bits : BitVec 64) : Nat := bits.toNat % 2 ^ 63

/-- A number in the order of the doubles that are no NaN; it is zero for both
zeros. -/
def doubleRank (bits : BitVec 64) : Int := if bits.msb then -(magnitude bits : Int) else magnitude bits

def doubleKey (bits : BitVec 64) : EncodedKey := ⟨encodeDouble bits, length_bigEndian 8 _⟩

theorem toNat_eq_magnitude (bits : BitVec 64) :
    bits.toNat = (if bits.msb then 2 ^ 63 else 0) + magnitude bits := by
  have hlt := bits.isLt
  rw [magnitude, BitVec.msb_eq_decide]
  by_cases h : 2 ^ 63 ≤ bits.toNat
  · rw [decide_eq_true h, if_pos rfl]
    omega
  · rw [decide_eq_false h, if_neg nofun]
    omega

theorem toNat_flipped (bits : BitVec 64) :
    (if bits.msb then ~~~bits else bits ||| (1 <<< 63)).toNat =
      if bits.msb then 2 ^ 63 - 1 - magnitude bits else 2 ^ 63 + magnitude bits := by
  have h := toNat_eq_magnitude bits
  cases hm : bits.msb with
  | true =>
      rw [hm, if_pos rfl] at h
      rw [if_pos rfl, if_pos rfl, BitVec.toNat_not]
      omega
  | false =>
      rw [hm, if_neg nofun, Nat.zero_add] at h
      have hlt : magnitude bits < 2 ^ 63 := Nat.mod_lt _ (by decide)
      rw [if_neg nofun, if_neg nofun, BitVec.toNat_or, h, show (1 <<< 63 : BitVec 64).toNat = 2 ^ 63 * 1 from rfl,
        Nat.or_comm, ← Nat.two_pow_add_eq_or_of_lt hlt, Nat.mul_one]

theorem eq_iff_magnitude : x = y ↔ x.msb = y.msb ∧ magnitude x = magnitude y := by
  constructor
  · rintro rfl
    exact ⟨rfl, rfl⟩
  · rintro ⟨hm, hmag⟩
    apply BitVec.eq_of_toNat_eq
    rw [toNat_eq_magnitude x, toNat_eq_magnitude y, hm, hmag]

/-- The stored numbers are in the order of the doubles, except that the negative
zero comes before the other one. -/
theorem memcmp_encodeDouble : memcmp (encodeDouble x) (encodeDouble y) =
    (compare (doubleRank x) (doubleRank y)).then (compare y.msb.toNat x.msb.toNat) := by
  have hx : magnitude x < 2 ^ 63 := Nat.mod_lt _ (by decide)
  have hy : magnitude y < 2 ^ 63 := Nat.mod_lt _ (by decide)
  rw [encodeDouble, encodeDouble, memcmp_putBigEndian64, toNat_flipped, toNat_flipped, doubleRank, doubleRank]
  refine compare_eq_of ?_ ?_ ?_
  · rw [Ordering.then_eq_lt, compare_lt_iff_lt, compare_eq_iff_eq, Nat.compare_eq_lt]
    cases x.msb <;> cases y.msb <;> simp only [Bool.false_eq_true, if_false, if_true, Bool.toNat_false,
      Bool.toNat_true] <;> omega
  · rw [Ordering.then_eq_eq, compare_eq_iff_eq, Nat.compare_eq_eq]
    cases x.msb <;> cases y.msb <;> simp only [Bool.false_eq_true, if_false, if_true, Bool.toNat_false,
      Bool.toNat_true, and_true] <;> omega
  · rw [Ordering.then_eq_gt, compare_gt_iff_gt, compare_eq_iff_eq, Nat.compare_eq_gt]
    cases x.msb <;> cases y.msb <;> simp only [Bool.false_eq_true, if_false, if_true, Bool.toNat_false,
      Bool.toNat_true] <;> omega

theorem doubleRank_eq_zero {bits : BitVec 64} : doubleRank bits = 0 ↔ magnitude bits = 0 := by
  rw [doubleRank]
  split <;> omega

/-- The encodings of two doubles are ordered like their values, unless these are
the two zeros. -/
theorem double_order_iff (x y : BitVec 64) :
    (memcmp (encodeDouble x) (encodeDouble y) = compare (doubleRank x) (doubleRank y) ∧
        (doubleKey x = doubleKey y ↔ doubleRank x = doubleRank y) ∧
        (doubleKey x < doubleKey y ↔ doubleRank x < doubleRank y)) ↔
      x = y ∨ doubleRank x ≠ 0 ∨ doubleRank y ≠ 0 := by
  rw [EncodedKey.eq_iff_memcmp, EncodedKey.lt_iff_memcmp, doubleKey, doubleKey]
  dsimp only
  constructor
  · rintro ⟨h, _⟩
    by_contra hzero
    rw [not_or, not_or, not_not, not_not] at hzero
    obtain ⟨hne, hx, hy⟩ := hzero
    rw [memcmp_encodeDouble, hx, hy, compare_eq_iff_eq.mpr rfl, Ordering.eq_then, Nat.compare_eq_eq] at h
    refine hne (eq_iff_magnitude.mpr ⟨?_, ?_⟩)
    · cases hxm : x.msb <;> cases hym : y.msb <;> rw [hxm, hym] at h <;> first | rfl | cases h
    · rw [doubleRank_eq_zero.mp hx, doubleRank_eq_zero.mp hy]
  · intro h
    have hcmp : memcmp (encodeDouble x) (encodeDouble y) = compare (doubleRank x) (doubleRank y) := by
      rw [memcmp_encodeDouble]
      by_cases heq : doubleRank x = doubleRank y
      · have hsign : x.msb = y.msb := by
          rcases h with rfl | h
          · rfl
          · rw [doubleRank, doubleRank] at heq h
            cases hxm : x.msb <;> cases hym : y.msb <;> rw [hxm, hym] at heq h <;>
              simp only [Bool.false_eq_true, if_false, if_true] at heq h <;> omega
        rw [hsign, Nat.compare_eq_eq.mpr rfl, Ordering.then_eq]
      · cases hc : compare (doubleRank x) (doubleRank y) with
        | eq => exact absurd (compare_eq_iff_eq.mp hc) heq
        | lt | gt => rfl
    rw [hcmp, compare_eq_iff_eq, compare_lt_iff_lt]
    exact ⟨rfl, Iff.rfl, Iff.rfl⟩

/-- The two zeros, of equal value, get two keys. -/
theorem zeros_differ : doubleRank 0 = doubleRank (1 <<< 63) ∧ doubleKey 0 ≠ doubleKey (1 <<< 63) ∧
    memcmp (encodeDouble 0) (encodeDouble (1 <<< 63)) = .gt := by decide

end Doubles

end DBPlayground.Storage
