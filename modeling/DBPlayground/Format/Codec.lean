import DBPlayground.Table.CheckedColumn

namespace DBPlayground.Format

open ByteReader Table

/-- `max_size` of a `std::string`. -/
def maxSize : Nat := 2 ^ 63 - 1

def appendString (out s : Bytes) : Except Failure Bytes :=
  if out.length + s.length ≤ maxSize then .ok (out ++ s) else .error (.threw .lengthError)

namespace PlainCodec

def encodeValue : Value → Bytes
  | .string s => leBytes 4 s.length ++ s
  | v => v.pod

def invalidType : Exn := .invalidArgument "PlainCodec::Encode: invalid column type"

def encodeFrom (col : Column) : Nat → Nat → Bytes → Except Failure Bytes
  | _, 0, out => pure out
  | i, n + 1, out => do
    let v ← col.readAs invalidType col.type i
    let out' ← appendString out (encodeValue v)
    encodeFrom col (i + 1) n out'

def encode (col : Column) : Except Failure Bytes := do
  throwIf (col.type.isValid = false) (.threw invalidType : Failure)
  encodeFrom col 0 col.size []

def podValue (type : FieldType) (p : Bytes) : Value :=
  match type with
  | .int32 => .int32 (BitVec.ofNat 32 (leNat p))
  | .int64 => .int64 (BitVec.ofNat 64 (leNat p))
  | .float => .float (BitVec.ofNat 32 (leNat p))
  | .double => .double (BitVec.ofNat 64 (leNat p))
  | .bool => .bool (decide (leNat p ≠ 0))
  | _ => .string p

def copyFixed (type : FieldType) (width : Nat) : Nat → Bytes → Column → Except Failure Unit × Column
  | 0, _, out => (.ok (), out)
  | n + 1, p, out =>
    if width ≤ p.length then copyFixed type width n (p.drop width) (out.appendValue (podValue type (p.take width)))
    else (.error .outOfBounds, out)

def decodeFixed (type : FieldType) (width : Nat) (bytes : Bytes) (n : Nat) (out : Column) :
    Except Failure Unit × Column :=
  if bytes.length < n * width % 2 ^ 64 then
    (.error (.threw (.runtimeError "PlainCodec: truncated fixed-width payload")), out)
  else copyFixed type width n bytes out

def decodeVar : Nat → Bytes → Column → Except Failure Unit × Column
  | 0, _, out => (.ok (), out)
  | n + 1, p, out =>
    if p.length < 4 then (.error (.threw (.runtimeError "PlainCodec: truncated var-length header")), out)
    else
      let len := leNat (p.take 4)
      let rest := p.drop 4
      if rest.length < len then
        (.error (.threw (.runtimeError "PlainCodec: truncated var-length payload")), out)
      else decodeVar n (rest.drop len) (out.appendBytes (rest.take len))

def fixedWidth : FieldType → Nat
  | .int32 | .float => 4
  | .int64 | .double => 8
  | .bool => 1
  | _ => 0

/-- `Decode`, with the column as it is left when a payload is cut short. -/
def decode (bytes : Bytes) (valueCount : Nat) (out : Column) : Except Failure Unit × Column :=
  match out.type with
  | .string | .blob => decodeVar valueCount bytes out
  | .invalid | .unknown _ =>
    (.error (.threw (.invalidArgument "PlainCodec::Decode: invalid column type")), out)
  | type => decodeFixed type (fixedWidth type) bytes valueCount out

section RoundTrip

variable {type : FieldType} {vals : List Value}

theorem encodeFrom_ofValues (ht : ∀ v ∈ vals, v.hasType type = true) (n : Nat) {i : Nat} (out : Bytes)
    (hn : i + n = vals.length) (hout : out.length ≤ maxSize) :
    encodeFrom (Column.ofValues type vals) i n out =
      if (out ++ ((Column.wrapped vals).drop i).flatMap encodeValue).length ≤ maxSize then
        .ok (out ++ ((Column.wrapped vals).drop i).flatMap encodeValue)
      else .error (.threw .lengthError) := by
  induction n generalizing i out with
  | zero =>
      rw [List.drop_eq_nil_of_le (by rw [Column.length_wrapped]; omega), List.flatMap_nil, List.append_nil,
        if_pos hout]
      rfl
  | succ n ih =>
      have hi : i < vals.length := by omega
      have hi' : i < (Column.wrapped vals).length := by rwa [Column.length_wrapped]
      rw [encodeFrom, Column.type_ofValues, Column.readAs_ofValues ht hi hi', List.drop_eq_getElem_cons hi',
        List.flatMap_cons, ← List.append_assoc]
      show (appendString out (encodeValue (Column.wrapped vals)[i]) >>= _) = _
      rw [appendString, ← List.length_append]
      by_cases hfit : (out ++ encodeValue (Column.wrapped vals)[i]).length ≤ maxSize
      · rw [if_pos hfit]
        exact ih _ (by omega) hfit
      · rw [if_neg hfit, if_neg]
        · rfl
        · rw [List.length_append]
          omega

theorem encode_ofValues (hvalid : type.isValid = true) (ht : ∀ v ∈ vals, v.hasType type = true) :
    encode (Column.ofValues type vals) =
      if ((Column.wrapped vals).flatMap encodeValue).length ≤ maxSize then
        .ok ((Column.wrapped vals).flatMap encodeValue)
      else .error (.threw .lengthError) := by
  have h := encodeFrom_ofValues ht vals.length [] (Nat.zero_add _) (Nat.zero_le _)
  rw [List.nil_append, List.drop_zero] at h
  rw [encode, Column.type_ofValues, Column.size_ofValues, ← h, hvalid]
  rfl

theorem length_pod_of_hasType {v : Value} (ht : v.hasType type = true) (hw : fixedWidth type ≠ 0) :
    v.pod.length = fixedWidth type := by
  cases type with
  | invalid | unknown c | string | blob => exact absurd rfl hw
  | _ => cases v <;> first | exact length_leBytes _ _ | cases ht

theorem podValue_pod {v : Value} (ht : v.hasType type = true) (hw : fixedWidth type ≠ 0) :
    podValue type v.pod = v := by
  cases type with
  | invalid | unknown c | string | blob => exact absurd rfl hw
  | bool =>
      cases v with
      | bool b => cases b <;> rfl
      | _ => cases ht
  | int32 | float =>
      cases v <;> cases ht
      rw [podValue, Value.pod, ofNat_leNat_leBytes _ (by decide)]
  | int64 | double =>
      cases v <;> cases ht
      rw [podValue, Value.pod, ofNat_leNat_leBytes _ (by decide)]

theorem encodeValue_fixed {v : Value} (ht : v.hasType type = true) (hw : fixedWidth type ≠ 0) :
    encodeValue v = v.pod := by
  cases v with
  | string s => cases type <;> first | exact absurd rfl hw | cases ht
  | _ => rfl

theorem encodeValue_ne_nil (v : Value) : 0 < (encodeValue v).length := by
  cases v with
  | string s =>
      rw [encodeValue, List.length_append, length_leBytes]
      omega
  | _ =>
      show 0 < (leBytes _ _).length
      rw [length_leBytes]
      decide

theorem length_le_encoded (vals : List Value) : vals.length ≤ (vals.flatMap encodeValue).length := by
  induction vals with
  | nil => exact Nat.le_refl 0
  | cons v vals ih =>
      have hv := encodeValue_ne_nil v
      rw [List.flatMap_cons, List.length_append, List.length_cons]
      omega

theorem length_encoded_fixed (ht : ∀ v ∈ vals, v.hasType type = true) (hw : fixedWidth type ≠ 0) :
    (vals.flatMap encodeValue).length = vals.length * fixedWidth type := by
  induction vals with
  | nil => simp
  | cons v vals ih =>
      have hv := ht v List.mem_cons_self
      rw [List.flatMap_cons, List.length_append, encodeValue_fixed hv hw, length_pod_of_hasType hv hw,
        ih fun u hu => ht u (List.mem_cons_of_mem v hu), List.length_cons, Nat.succ_mul, Nat.add_comm]

theorem copyFixed_encoded (us : List Value) (ht : ∀ v ∈ vals, v.hasType type = true) (hw : fixedWidth type ≠ 0) :
    copyFixed type (fixedWidth type) vals.length (vals.flatMap encodeValue) (Column.ofValues type us) =
      (.ok (), Column.ofValues type (us ++ vals)) := by
  induction vals generalizing us with
  | nil => rw [List.append_nil]; rfl
  | cons v vals ih =>
      have hv := ht v List.mem_cons_self
      have hlen := length_pod_of_hasType hv hw
      rw [List.flatMap_cons, encodeValue_fixed hv hw, List.length_cons, copyFixed,
        if_pos (by rw [List.length_append]; omega), List.take_left' hlen, List.drop_left' hlen,
        podValue_pod hv hw, ← Column.ofValues_append_singleton,
        ih _ fun u hu => ht u (List.mem_cons_of_mem v hu), List.append_assoc]
      rfl

theorem decodeVar_encoded (us : List Value) (hs : ∀ v ∈ vals, ∃ s, v = .string s ∧ s.length < 2 ^ 32) :
    decodeVar vals.length (vals.flatMap encodeValue) (Column.ofValues type us) =
      (.ok (), Column.ofValues type (us ++ vals)) := by
  induction vals generalizing us with
  | nil => rw [List.append_nil]; rfl
  | cons v vals ih =>
      obtain ⟨s, rfl, hlen⟩ := hs v List.mem_cons_self
      have hhead : (leBytes 4 s.length).length = 4 := length_leBytes _ _
      have hnat : leNat (leBytes 4 s.length) = s.length := by
        rw [leNat_leBytes]
        exact Nat.mod_eq_of_lt hlen
      have happ : (Column.ofValues type us).appendBytes s = Column.ofValues type (us ++ [.string s]) := by
        rw [Column.ofValues_append_singleton]
        rfl
      rw [List.flatMap_cons, encodeValue, List.append_assoc, List.length_cons, decodeVar,
        if_neg (by rw [List.length_append]; omega)]
      dsimp only
      rw [List.take_left' hhead, List.drop_left' hhead, hnat, if_neg (by rw [List.length_append]; omega),
        List.take_left' rfl, List.drop_left' rfl, happ, ih _ fun u hu => hs u (List.mem_cons_of_mem _ hu),
        List.append_assoc]
      rfl

theorem decode_fixed {out : Column} {bytes : Bytes} {n : Nat} (hw : fixedWidth out.type ≠ 0) :
    decode bytes n out = decodeFixed out.type (fixedWidth out.type) bytes n out := by
  rw [decode]
  generalize out.type = type at hw
  cases type <;> first | rfl | exact absurd rfl hw

theorem hasType_string {v : Value} (ht : v.hasType type = true) (hw : fixedWidth type = 0) :
    ∃ s, v = .string s := by
  cases v with
  | string s => exact ⟨s, rfl⟩
  | _ => cases type <;> first | exact absurd hw (by decide) | cases ht

theorem decode_encoded (us : List Value) (hvalid : type.isValid = true) (ht : ∀ v ∈ vals, v.hasType type = true)
    (hs : ∀ v ∈ vals, v.asString.length < 2 ^ 32) :
    decode (vals.flatMap encodeValue) vals.length (Column.ofValues type us) =
      (.ok (), Column.ofValues type (us ++ vals)) := by
  by_cases hw : fixedWidth type = 0
  · have hvar : decodeVar vals.length (vals.flatMap encodeValue) (Column.ofValues type us) =
        (.ok (), Column.ofValues type (us ++ vals)) := by
      refine decodeVar_encoded us ?_
      intro v hv
      obtain ⟨s, rfl⟩ := hasType_string (ht v hv) hw
      exact ⟨s, rfl, hs _ hv⟩
    rw [decode, Column.type_ofValues]
    cases type <;> first | exact absurd hw (by decide) | exact absurd hvalid Bool.false_ne_true | exact hvar
  · have htype : (Column.ofValues type us).type = type := Column.type_ofValues
    have hlen := length_encoded_fixed ht hw
    have hmod := Nat.mod_le (vals.length * fixedWidth type) (2 ^ 64)
    rw [decode_fixed (by rwa [htype]), htype, decodeFixed, if_neg (by omega), copyFixed_encoded us ht hw]

end RoundTrip

end PlainCodec

/-- zlib's `compress2` and `uncompress`, each with `none` for a return code
other than `Z_OK`. -/
structure Zlib where
  compress : Bytes → Option Bytes
  uncompress : Bytes → Nat → Option Bytes

def Zlib.Inverts (Z : Zlib) : Prop :=
  ∀ s, ∃ t, Z.compress s = some t ∧ Z.uncompress t s.length = some s

inductive CompressionId
  | invalid | none | zlib
  deriving DecidableEq, Repr

def CompressionId.code : CompressionId → Byte
  | .invalid => 0
  | .none => 1
  | .zlib => 2

inductive Compression
  | noCompression | zlibCompression
  deriving DecidableEq, Repr

namespace CodecRegistry

def getEncoding (id : Byte) : Except Failure Unit :=
  throwIf (id ≠ 1) (.threw (.invalidArgument "CodecRegistry: unknown EncodingId") : Failure)

def getCompression (id : Byte) : Except Failure Compression :=
  if id = 1 then .ok .noCompression
  else if id = 2 then .ok .zlibCompression
  else .error (.threw (.invalidArgument "CodecRegistry: unknown CompressionId"))

end CodecRegistry

namespace Compression

variable {Z : Zlib} {c : Compression}

def compress (Z : Zlib) (c : Compression) (s : Bytes) : Except Failure Bytes :=
  match c with
  | .noCompression => .ok s
  | .zlibCompression =>
    match Z.compress s with
    | some t => .ok t
    | none => .error (.threw (.runtimeError "ZlibCompression: compress2 failed"))

def decompress (Z : Zlib) (c : Compression) (s : Bytes) (rawSize : Nat) : Except Failure Bytes :=
  match c with
  | .noCompression => .ok s
  | .zlibCompression =>
    if rawSize = 0 then .ok []
    else if maxSize < rawSize then .error (.threw .lengthError)
    else
      match Z.uncompress s rawSize with
      | some t =>
        if t.length = rawSize then .ok t
        else .error (.threw (.runtimeError "ZlibCompression: uncompress failed or size mismatch"))
      | none => .error (.threw (.runtimeError "ZlibCompression: uncompress failed or size mismatch"))

theorem exists_compress (hZ : Z.Inverts) (s : Bytes) (hs : s.length ≤ maxSize) :
    ∃ t, compress Z c s = .ok t ∧ decompress Z c t s.length = .ok s := by
  cases c with
  | noCompression => exact ⟨s, rfl, rfl⟩
  | zlibCompression =>
      obtain ⟨t, hc, hu⟩ := hZ s
      refine ⟨t, by simp only [compress, hc], ?_⟩
      by_cases h0 : s.length = 0
      · rw [decompress, if_pos h0, List.eq_nil_of_length_eq_zero h0]
      · simp only [decompress, if_neg h0, if_neg (Nat.not_lt.mpr hs), hu, if_pos]

end Compression

end DBPlayground.Format
