import DBPlayground.Table.Column
import Mathlib.Data.List.Zip

namespace DBPlayground.RowCodec

open ByteReader Table

def asInt32 : Value → BitVec 32
  | .int32 v => v
  | .int64 v => v.setWidth 32
  | .bool b => if b then 1 else 0
  | _ => 0

def asInt64 : Value → BitVec 64
  | .int32 v => v.signExtend 64
  | .int64 v => v
  | .bool b => if b then 1 else 0
  | _ => 0

def asFloat : Value → BitVec 32
  | .float bits => bits
  | _ => 0

def asDouble : Value → BitVec 64
  | .double bits => bits
  | _ => 0

def asBool : Value → Bool
  | .int32 v => v ≠ 0
  | .int64 v => v ≠ 0
  | .bool b => b
  | _ => false

def encodeField (type : FieldType) (v : Value) : Except Exn Bytes :=
  match type with
  | .int32 => .ok (leBytes 4 (asInt32 v).toNat)
  | .int64 => .ok (leBytes 8 (asInt64 v).toNat)
  | .float => .ok (leBytes 4 (asFloat v).toNat)
  | .double => .ok (leBytes 8 (asDouble v).toNat)
  | .bool => .ok (leBytes 1 (if asBool v then 1 else 0))
  | .string | .blob => .ok (leBytes 4 v.asString.length ++ v.asString)
  | .invalid | .unknown _ => .error (.invalidArgument "RowCodec::Encode: invalid field type")

def encodeFields : Schema → List Value → Except Exn Bytes
  | f :: fs, v :: vs => do
    let b ← encodeField f.type v
    let bs ← encodeFields fs vs
    pure (b ++ bs)
  | _, _ => pure []

def encode (schema : Schema) (row : List Value) : Except Exn Bytes := do
  throwIf (row.length ≠ schema.length)
    (.invalidArgument "RowCodec::Encode: row arity does not match schema" : Exn)
  encodeFields schema row

def truncated (place : String) : Exn := .runtimeError ("RowCodec: truncated row blob in " ++ place)

/-- Read one field off the front of a row blob. `place` is the caller named in
the messages, `Decode` or `DecodeInto`. -/
def readField (place : String) (type : FieldType) : Reader Exn Value :=
  match type with
  | .int32 => do
    let p ← raw (truncated place) 4
    pure (.int32 (BitVec.ofNat 32 (leNat p)))
  | .int64 => do
    let p ← raw (truncated place) 8
    pure (.int64 (BitVec.ofNat 64 (leNat p)))
  | .float => do
    let p ← raw (truncated place) 4
    pure (.float (BitVec.ofNat 32 (leNat p)))
  | .double => do
    let p ← raw (truncated place) 8
    pure (.double (BitVec.ofNat 64 (leNat p)))
  | .bool => do
    let p ← raw (truncated place) 1
    pure (.bool (decide (leNat p ≠ 0)))
  | .string | .blob => do
    let len ← raw (truncated place) 4
    let s ← raw (truncated place) (leNat len)
    pure (.string s)
  | .invalid | .unknown _ => throw (.invalidArgument ("RowCodec::" ++ place ++ ": invalid field type"))

def readRow (place : String) : Schema → Reader Exn (List Value)
  | [] => pure []
  | f :: fs => do
    let v ← readField place f.type
    let row ← readRow place fs
    pure (v :: row)

def decode (schema : Schema) (blob : Bytes) : Except Exn (List Value) := do
  let r ← readRow "Decode" schema blob
  pure r.1

/-- The output position of schema field `i`: the last `k` with
`projection[k] = i`. -/
def outPos (projection : List Int) (i : Nat) : Option Nat :=
  projection.zipIdx.foldl (fun pos p => if p.1 = (i : Int) then some p.2 else pos) none

def appendAt (pos : Option Nat) (v : Value) (cols : List Column) : List Column :=
  match pos with
  | some k => cols.modify k (·.appendValue v)
  | none => cols

def decodeFields (pos : Nat → Option Nat) : Nat → Schema → List Column → Reader Exn (List Column)
  | _, [], cols => pure cols
  | i, f :: fs, cols => do
    let v ← readField "DecodeInto" f.type
    decodeFields pos (i + 1) fs (appendAt (pos i) v cols)

def decodeInto (schema : Schema) (blob : Bytes) (projection : List Int) (cols : List Column) :
    Except Exn (List Column) := do
  let r ← decodeFields (outPos projection) 0 schema cols blob
  pure r.1

def Typed (schema : Schema) (row : List Value) : Prop :=
  List.Forall₂ (fun f v => Value.hasType v f.type = true) schema row

theorem readField_encodeField {place : String} {type : FieldType} {v : Value} {b : Bytes}
    (ht : v.hasType type = true) (hb : encodeField type v = .ok b) (hs : v.asString.length < 2 ^ 32) :
    Reads (readField place type) b v := by
  have fixed : ∀ {w n : Nat} {val : Bytes → Value}, val (leBytes w n) = v → b = leBytes w n →
      Reads (do let p ← raw (truncated place) w; pure (val p) : Reader Exn Value) b v := by
    intro w n val hv hbn
    subst hbn
    have hraw := Reads.raw (truncated place) (leBytes w n)
    rw [length_leBytes] at hraw
    have h := hraw.map val
    rwa [hv] at h
  have var : ∀ s, v = .string s → b = leBytes 4 s.length ++ s →
      Reads (do
        let len ← raw (truncated place) 4
        let s ← raw (truncated place) (leNat len)
        pure (.string s) : Reader Exn Value) b v := by
    intro s hv hbs
    subst hv hbs
    have hlt : s.length < 256 ^ 4 := hs
    have hlen := Reads.raw (truncated place) (leBytes 4 s.length)
    rw [length_leBytes] at hlen
    refine hlen.bind ?_
    rw [leNat_leBytes, Nat.mod_eq_of_lt hlt]
    exact (Reads.raw (truncated place) s).map Value.string
  cases v with
  | int32 w =>
      cases type <;> cases ht
      cases hb
      exact fixed (congrArg Value.int32 (ofNat_leNat_leBytes w (by decide))) rfl
  | int64 w =>
      cases type <;> cases ht
      cases hb
      exact fixed (congrArg Value.int64 (ofNat_leNat_leBytes w (by decide))) rfl
  | float w =>
      cases type <;> cases ht
      cases hb
      exact fixed (congrArg Value.float (ofNat_leNat_leBytes w (by decide))) rfl
  | double w =>
      cases type <;> cases ht
      cases hb
      exact fixed (congrArg Value.double (ofNat_leNat_leBytes w (by decide))) rfl
  | bool w =>
      cases type <;> cases ht
      cases hb
      exact fixed (by cases w <;> rfl) rfl
  | string s =>
      cases type <;> cases ht
      · cases hb
        exact var s rfl rfl
      · cases hb
        exact var s rfl rfl

theorem length_asString_le {type : FieldType} {v : Value} {b : Bytes} (ht : v.hasType type = true)
    (hb : encodeField type v = .ok b) : v.asString.length ≤ b.length := by
  cases v with
  | string s =>
      cases type <;> cases ht <;> cases hb <;>
        simp only [Value.asString, List.length_append, length_leBytes] <;> omega
  | _ => exact Nat.zero_le _

theorem length_asString_le_row {schema : Schema} {row : List Value} {b : Bytes} (ht : Typed schema row)
    (hb : encodeFields schema row = .ok b) {v : Value} (hv : v ∈ row) : v.asString.length ≤ b.length := by
  induction ht generalizing b with
  | nil => cases hv
  | cons hf _ ih =>
      obtain ⟨b₁, h₁, hb⟩ := Except.bind_ok.mp hb
      obtain ⟨b₂, h₂, hb⟩ := Except.bind_ok.mp hb
      cases hb
      rw [List.length_append]
      rcases List.mem_cons.mp hv with rfl | hv
      · exact Nat.le_add_right_of_le (length_asString_le hf h₁)
      · exact Nat.le_add_left_of_le (ih h₂ hv)

def appendFields (pos : Nat → Option Nat) : Nat → List Value → List Column → List Column
  | _, [], cols => cols
  | i, v :: row, cols => appendFields pos (i + 1) row (appendAt (pos i) v cols)

theorem reads_decodeFields {schema : Schema} {row : List Value} {b : Bytes} (pos : Nat → Option Nat) (i : Nat)
    (cols : List Column) (ht : Typed schema row) (hb : encodeFields schema row = .ok b) (hs : b.length < 2 ^ 32) :
    Reads (decodeFields pos i schema cols) b (appendFields pos i row cols) := by
  induction ht generalizing b i cols with
  | nil =>
      cases hb
      exact Reads.pure _
  | cons hv _ ih =>
      obtain ⟨b₁, h₁, hb⟩ := Except.bind_ok.mp hb
      obtain ⟨b₂, h₂, hb⟩ := Except.bind_ok.mp hb
      cases hb
      rw [List.length_append] at hs
      have hstr := length_asString_le hv h₁
      exact (readField_encodeField hv h₁ (by omega)).bind (ih (i + 1) _ h₂ (by omega))

theorem decodeInto_typed {schema : Schema} {row : List Value} {b : Bytes} (projection : List Int)
    (cols : List Column) (ht : Typed schema row) (hb : encode schema row = .ok b) (hs : b.length < 2 ^ 32) :
    decodeInto schema b projection cols = .ok (appendFields (outPos projection) 0 row cols) := by
  obtain ⟨_, _, hb⟩ := Except.bind_ok.mp hb
  have h := reads_decodeFields (outPos projection) 0 cols ht hb hs []
  rw [List.append_nil] at h
  exact Except.bind_ok.mpr ⟨_, h, rfl⟩

theorem appendFields_in_order {pos : Nat → Option Nat} (row : List Value) (done todo : List Column)
    (hp : ∀ i < done.length + row.length, pos i = some i) (hl : todo.length = row.length) :
    appendFields pos done.length row (done ++ todo) = done ++ List.zipWith Column.appendValue todo row := by
  induction row generalizing done todo with
  | nil =>
      rw [List.length_eq_zero_iff.mp hl]
      rfl
  | cons v row ih =>
      obtain ⟨c, cs, rfl⟩ := List.exists_cons_of_length_eq_add_one hl
      have hmod : appendAt (pos done.length) v (done ++ c :: cs) = (done ++ [c.appendValue v]) ++ cs := by
        rw [hp done.length (by rw [List.length_cons]; omega), appendAt, List.modify_eq_set_getElem?]
        simp
      have hrest := ih (done ++ [c.appendValue v]) cs (fun i hi => hp i (by simp at hi ⊢; omega)) (by simpa using hl)
      rw [appendFields, hmod]
      simpa using hrest

theorem outPos_identity {n i : Nat} (h : i < n) : outPos ((List.range n).map Int.ofNat) i = some i := by
  induction n with
  | zero => omega
  | succ n ih =>
      rw [outPos, List.range_succ, List.map_append, List.zipIdx_append, List.foldl_append]
      by_cases hi : i = n
      · subst hi
        simp
      · have hn := ih (by omega)
        rw [outPos] at hn
        rw [hn]
        simp [Ne.symm hi]

theorem appendFields_identity {n : Nat} {row : List Value} {cols : List Column} (hc : cols.length = n)
    (hr : row.length = n) :
    appendFields (outPos ((List.range n).map Int.ofNat)) 0 row cols = List.zipWith Column.appendValue cols row := by
  refine appendFields_in_order row [] cols ?_ (hc.trans hr.symm)
  intro i hi
  refine outPos_identity ?_
  simpa [hr] using hi

theorem decodeInto_encode {schema : Schema} {row : List Value} {b : Bytes} {cols : List Column}
    (ht : Typed schema row) (hb : encode schema row = .ok b) (hs : b.length < 2 ^ 32)
    (hl : cols.length = schema.length) :
    decodeInto schema b ((List.range schema.length).map Int.ofNat) cols =
      .ok (List.zipWith Column.appendValue cols row) := by
  rw [decodeInto_typed _ cols ht hb hs, appendFields_identity hl ht.length_eq.symm]

end DBPlayground.RowCodec
