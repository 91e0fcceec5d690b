import DBPlayground.Lib.ByteReader
import Mathlib.Data.List.Induction

namespace DBPlayground.Table

open ByteReader

inductive Exn
  | invalidArgument (what : String)
  | runtimeError (what : String)
  | outOfRange (what : String)
  | lengthError
  deriving DecidableEq, Repr

/-- `enum class Type : uint8_t`. A byte read back from an object may name
none of its members. -/
inductive FieldType
  | invalid | int32 | int64 | float | double | bool | string | blob
  | unknown (code : Fin 248)
  deriving DecidableEq, Repr

def FieldType.code : FieldType → Byte
  | .invalid => 0
  | .int32 => 1
  | .int64 => 2
  | .float => 3
  | .double => 4
  | .bool => 5
  | .string => 6
  | .blob => 7
  | .unknown c => BitVec.ofNat 8 (c.val + 8)

def FieldType.ofCode (b : Byte) : FieldType :=
  match b.toNat with
  | 0 => .invalid
  | 1 => .int32
  | 2 => .int64
  | 3 => .float
  | 4 => .double
  | 5 => .bool
  | 6 => .string
  | 7 => .blob
  | n + 8 => .unknown (Fin.ofNat 248 n)

theorem FieldType.ofCode_code (t : FieldType) : ofCode t.code = t := by
  cases t with
  | unknown c =>
      have h : (BitVec.ofNat 8 (c.val + 8)).toNat = c.val + 8 := by
        rw [BitVec.toNat_ofNat]
        omega
      simp only [ofCode, code, h, Fin.ofNat_val_eq_self]
  | _ => rfl

theorem FieldType.code_ofCode (b : Byte) : (ofCode b).code = b := by
  apply BitVec.eq_of_toNat_eq
  have hb : b.toNat < 256 := b.isLt
  unfold ofCode
  split <;> rename_i h
  all_goals rw [h]
  all_goals try rfl
  next n =>
    simp only [code, Fin.ofNat, BitVec.toNat_ofNat]
    omega

structure Field where
  name : Bytes
  type : FieldType
  deriving DecidableEq, Repr

abbrev Schema := List Field

/-- One cell. Floating point cells are the bits of their in-memory representation;
what is lost of them in a `Value` is left to `Value.viaDouble`. -/
inductive Value
  | int32 (v : BitVec 32)
  | int64 (v : BitVec 64)
  | float (bits : BitVec 32)
  | double (bits : BitVec 64)
  | bool (b : Bool)
  | string (s : Bytes)
  deriving DecidableEq, Repr

def Value.hasType : Value → FieldType → Bool
  | .int32 _, .int32 | .int64 _, .int64 | .float _, .float | .double _, .double
  | .bool _, .bool | .string _, .string | .string _, .blob => true
  | _, _ => false

def Value.pod : Value → Bytes
  | .int32 v | .float v => leBytes 4 v.toNat
  | .int64 v | .double v => leBytes 8 v.toNat
  | .bool b => leBytes 1 (if b then 1 else 0)
  | .string _ => []

def Value.asString : Value → Bytes
  | .string s => s
  | _ => []

/-- A signaling NaN: the exponent is all ones, the first bit of the fraction is zero and
another one is not. -/
def signaling (bits : BitVec 32) : Bool :=
  bits.extractLsb' 23 8 = 255 && !bits.getLsbD 22 && bits.extractLsb' 0 22 ≠ 0

/-- A float that was converted to a double and back: a signaling NaN is quiet then. -/
def quieted (bits : BitVec 32) : BitVec 32 := if signaling bits then bits ||| 0x00400000 else bits

theorem signaling_of_quiet {bits : BitVec 32} (h : bits.getLsbD 22 = true) : signaling bits = false := by
  simp [signaling, h]

theorem quieted_eq_iff {bits : BitVec 32} : quieted bits = bits ↔ signaling bits = false := by
  constructor
  · intro h
    by_contra hs
    rw [quieted, if_pos (Bool.eq_true_of_not_eq_false hs)] at h
    refine hs (signaling_of_quiet ?_)
    rw [← h]
    simp
  · intro h
    rw [quieted, if_neg (by rw [h]; exact Bool.false_ne_true)]

theorem signaling_quieted (bits : BitVec 32) : signaling (quieted bits) = false := by
  unfold quieted
  split
  · exact signaling_of_quiet (by simp)
  · next h => exact Bool.eq_false_of_not_eq_true h

/-- What `Value::Float` keeps of a cell, as `AsFloat` reads it. -/
def Value.viaDouble : Value → Value
  | .float bits => .float (quieted bits)
  | v => v

theorem Value.viaDouble_viaDouble (v : Value) : v.viaDouble.viaDouble = v.viaDouble := by
  cases v with
  | float bits => exact congrArg Value.float (quieted_eq_iff.mpr (signaling_quieted bits))
  | _ => rfl

structure Column where
  type : FieldType
  size : Nat
  fixed : Bytes
  offsets : List (BitVec 32)
  varBytes : Bytes
  deriving DecidableEq, Repr

namespace Column

def new (type : FieldType) : Column := ⟨type, 0, [], [0], []⟩

def append (c : Column) (pod : Bytes) : Column :=
  { c with fixed := c.fixed ++ pod, size := c.size + 1 }

def appendBytes (c : Column) (s : Bytes) : Column :=
  { c with
    varBytes := c.varBytes ++ s
    offsets := c.offsets ++ [BitVec.ofNat 32 (c.varBytes ++ s).length]
    size := c.size + 1 }

def get (c : Column) (width i : Nat) : Nat := leNat ((c.fixed.drop (i * width)).take width)

def getBytes (c : Column) (i : Nat) : Bytes :=
  let start := c.offsets.getD i 0
  let stop := c.offsets.getD (i + 1) 0
  (c.varBytes.drop start.toNat).take (stop - start).toNat

/-- The cell a reader of the column sees, unless the column has no valid type. -/
def cell? (c : Column) (row : Nat) : Option Value :=
  match c.type with
  | .int32 => some (.int32 (BitVec.ofNat 32 (c.get 4 row)))
  | .int64 => some (.int64 (BitVec.ofNat 64 (c.get 8 row)))
  | .float => some (.float (quieted (BitVec.ofNat 32 (c.get 4 row))))
  | .double => some (.double (BitVec.ofNat 64 (c.get 8 row)))
  | .bool => some (.bool (decide (c.get 1 row ≠ 0)))
  | .string | .blob => some (.string (c.getBytes row))
  | .invalid | .unknown _ => none

theorem viaDouble_of_cell {c : Column} {row : Nat} {v : Value} (h : c.cell? row = some v) : v.viaDouble = v := by
  unfold cell? at h
  split at h <;> cases h <;> first | rfl | exact Value.viaDouble_viaDouble (.float _)

def appendValue (c : Column) : Value → Column
  | .string s => c.appendBytes s
  | v => c.append v.pod

def ofValues (type : FieldType) (vals : List Value) : Column := vals.foldl appendValue (new type)

section Cells

variable {type : FieldType} {vals : List Value}

theorem ofValues_append_singleton (v : Value) :
    ofValues type (vals ++ [v]) = (ofValues type vals).appendValue v := by
  rw [ofValues, List.foldl_append]
  rfl

@[simp] theorem type_appendValue (c : Column) (v : Value) : (c.appendValue v).type = c.type := by
  cases v <;> rfl

@[simp] theorem size_appendValue (c : Column) (v : Value) : (c.appendValue v).size = c.size + 1 := by
  cases v <;> rfl

theorem type_ofValues : (ofValues type vals).type = type := by
  induction vals using List.reverseRecOn with
  | nil => rfl
  | append_singleton vals v ih => rw [ofValues_append_singleton, type_appendValue, ih]

theorem size_ofValues : (ofValues type vals).size = vals.length := by
  induction vals using List.reverseRecOn with
  | nil => rfl
  | append_singleton vals v ih =>
      rw [ofValues_append_singleton, size_appendValue, ih, List.length_append, List.length_singleton]

theorem fixed_ofValues : (ofValues type vals).fixed = vals.flatMap Value.pod := by
  induction vals using List.reverseRecOn with
  | nil => rfl
  | append_singleton vals v ih =>
      rw [ofValues_append_singleton, List.flatMap_append, ← ih]
      cases v <;> simp [appendValue, append, appendBytes, Value.pod]

theorem get_ofValues {width i : Nat} (hw : ∀ v ∈ vals, v.pod.length = width) (hi : i < vals.length) :
    (ofValues type vals).get width i = leNat vals[i].pod := by
  rw [get, fixed_ofValues]
  congr 1
  induction vals generalizing i with
  | nil => simp at hi
  | cons v vals ih =>
      have hv : v.pod.length = width := hw v List.mem_cons_self
      cases i with
      | zero => simp [← hv]
      | succ i =>
          have h := ih (fun u hu => hw u (List.mem_cons_of_mem v hu)) (Nat.lt_of_succ_lt_succ hi)
          rw [List.flatMap_cons, Nat.succ_mul, Nat.add_comm, ← List.drop_drop, List.drop_left' hv, h,
            List.getElem_cons_succ]

theorem varBytes_ofValues (hs : ∀ v ∈ vals, ∃ s, v = .string s) :
    (ofValues type vals).varBytes = vals.flatMap Value.asString := by
  induction vals using List.reverseRecOn with
  | nil => rfl
  | append_singleton vals v ih =>
      obtain ⟨s, rfl⟩ := hs v (by simp)
      rw [ofValues_append_singleton, List.flatMap_append, ← ih (fun u hu => hs u (by simp [hu]))]
      simp [appendValue, appendBytes, Value.asString]

theorem offsets_ofValues (hs : ∀ v ∈ vals, ∃ s, v = .string s) :
    (ofValues type vals).offsets = (List.range (vals.length + 1)).map fun i =>
      BitVec.ofNat 32 ((vals.take i).flatMap Value.asString).length := by
  induction vals using List.reverseRecOn with
  | nil => rfl
  | append_singleton vals v ih =>
      obtain ⟨s, rfl⟩ := hs v (by simp)
      have hs' : ∀ u ∈ vals, ∃ s, u = .string s := fun u hu => hs u (by simp [hu])
      rw [ofValues_append_singleton, List.length_append, List.length_singleton, List.range_succ, List.map_append]
      simp only [appendValue, appendBytes, ih hs', varBytes_ofValues hs']
      congr 1
      · refine List.map_congr_left ?_
        intro i hi
        rw [List.take_append_of_le_length (by simpa [Nat.lt_succ_iff] using hi)]
      · rw [List.map_singleton, List.take_of_length_le (by simp), List.flatMap_append, List.flatMap_singleton]
        rfl

theorem getBytes_ofValues {i : Nat} (hs : ∀ v ∈ vals, ∃ s, v = .string s)
    (hlen : (vals.flatMap Value.asString).length < 2 ^ 32) (hi : i < vals.length) :
    (ofValues type vals).getBytes i = vals[i].asString := by
  have hoff : ∀ j ≤ vals.length, (ofValues type vals).offsets.getD j 0 =
      BitVec.ofNat 32 ((vals.take j).flatMap Value.asString).length := by
    intro j hj
    rw [offsets_ofValues hs, List.getD_eq_getElem?_getD, List.getElem?_map,
      List.getElem?_range (Nat.lt_succ_of_le hj)]
    rfl
  have hsplit : vals.flatMap Value.asString = (vals.take i).flatMap Value.asString ++
      (vals[i].asString ++ (vals.drop (i + 1)).flatMap Value.asString) := by
    rw [← List.flatMap_cons, ← List.drop_eq_getElem_cons hi, ← List.flatMap_append, List.take_append_drop]
  have htake : (vals.take (i + 1)).flatMap Value.asString =
      (vals.take i).flatMap Value.asString ++ vals[i].asString := by
    rw [← List.take_concat_get' vals i hi, List.flatMap_append, List.flatMap_singleton]
  simp only [getBytes, hoff i (Nat.le_of_lt hi), hoff (i + 1) hi, varBytes_ofValues hs, htake]
  have hbound := congrArg List.length hsplit
  simp only [List.length_append] at hbound
  have hstart : (BitVec.ofNat 32 ((vals.take i).flatMap Value.asString).length).toNat =
      ((vals.take i).flatMap Value.asString).length := by
    rw [BitVec.toNat_ofNat, Nat.mod_eq_of_lt (by omega)]
  have hwidth : (BitVec.ofNat 32 ((vals.take i).flatMap Value.asString ++ vals[i].asString).length -
      BitVec.ofNat 32 ((vals.take i).flatMap Value.asString).length).toNat = vals[i].asString.length := by
    rw [List.length_append, BitVec.toNat_sub, BitVec.toNat_ofNat, BitVec.toNat_ofNat]
    omega
  rw [hstart, hwidth, hsplit, List.drop_left' rfl, List.take_left' rfl]

theorem cell_ofValues {i : Nat} (ht : ∀ v ∈ vals, v.hasType type = true)
    (hlen : (vals.flatMap Value.asString).length < 2 ^ 32) (hi : i < vals.length) :
    (ofValues type vals).cell? i = some vals[i].viaDouble := by
  have hfixed : ∀ w, (∀ v : Value, v.hasType type = true → v.pod.length = w) →
      (ofValues type vals).get w i = leNat vals[i].pod :=
    fun w hw => get_ofValues (fun v hv => hw v (ht v hv)) hi
  have hvar : (∀ v : Value, v.hasType type = true → ∃ s, v = .string s) →
      (ofValues type vals).getBytes i = vals[i].asString :=
    fun h => getBytes_ofValues (fun v hv => h v (ht v hv)) hlen hi
  have hcell := ht vals[i] (List.getElem_mem hi)
  rw [cell?, type_ofValues]
  generalize vals[i] = v at hcell hfixed hvar
  cases type with
  | invalid | unknown c => cases v <;> cases hcell
  | string | blob =>
      dsimp only
      rw [hvar (fun u hu => by cases u <;> first | exact ⟨_, rfl⟩ | cases hu)]
      cases v <;> first | rfl | cases hcell
  | bool =>
      dsimp only
      rw [hfixed 1 (fun u hu => by cases u <;> first | exact length_leBytes _ _ | cases hu)]
      cases v with
      | bool b => cases b <;> rfl
      | _ => cases hcell
  | int32 | float =>
      dsimp only
      rw [hfixed 4 (fun u hu => by cases u <;> first | exact length_leBytes _ _ | cases hu)]
      cases v <;> cases hcell
      rw [Value.pod, ofNat_leNat_leBytes _ (by decide)]
      rfl
  | int64 | double =>
      dsimp only
      rw [hfixed 8 (fun u hu => by cases u <;> first | exact length_leBytes _ _ | cases hu)]
      cases v <;> cases hcell
      rw [Value.pod, ofNat_leNat_leBytes _ (by decide)]
      rfl

end Cells

end Column

structure Chunk where
  columnIds : List Int
  columns : List Column
  rowCount : Nat
  deriving DecidableEq, Repr

def Chunk.row (c : Chunk) (r : Nat) : List (Option Value) := c.columns.map (·.cell? r)

def Chunk.rows (c : Chunk) : List (List (Option Value)) := (List.range c.rowCount).map c.row

def schemasEqual (left right : Schema) : Bool :=
  left.length == right.length &&
    (left.zip right).all fun p => p.1.name == p.2.name && p.1.type == p.2.type

theorem schemasEqual_iff {left right : Schema} : schemasEqual left right = true ↔ left = right := by
  induction left generalizing right with
  | nil => cases right <;> simp [schemasEqual]
  | cons f fs ih =>
      cases right with
      | nil => simp [schemasEqual]
      | cons g gs =>
          have hfg : f = g ↔ f.name = g.name ∧ f.type = g.type := by
            cases f
            cases g
            simp
          have hs := @ih gs
          simp only [schemasEqual, Bool.and_eq_true, beq_iff_eq] at hs
          simp only [schemasEqual, List.length_cons, List.zip_cons_cons, List.all_cons, Bool.and_eq_true,
            beq_iff_eq, Nat.add_right_cancel_iff, List.cons.injEq, hfg, ← hs]
          tauto

def isFullSchemaChunk (chunk : Chunk) (schema : Schema) : Bool :=
  chunk.rowCount != 0 && chunk.columns.length == schema.length &&
    chunk.columnIds.length == schema.length &&
    (List.range schema.length).all fun i =>
      chunk.columnIds[i]? == some (i : Int) &&
        chunk.columns[i]?.map (·.type) == schema[i]?.map (·.type) &&
        chunk.columns[i]?.map (·.size) == some chunk.rowCount

theorem isFullSchemaChunk_types {chunk : Chunk} {schema : Schema}
    (h : isFullSchemaChunk chunk schema = true) :
    chunk.columns.map (·.type) = schema.map (·.type) := by
  simp only [isFullSchemaChunk, Bool.and_eq_true, beq_iff_eq, List.all_eq_true, List.mem_range] at h
  obtain ⟨⟨⟨_, hl⟩, _⟩, hall⟩ := h
  refine List.ext_getElem? ?_
  intro i
  rw [List.getElem?_map, List.getElem?_map]
  by_cases hi : i < schema.length
  · exact (hall i hi).1.2
  · rw [List.getElem?_eq_none (by omega), List.getElem?_eq_none (by omega)]
    rfl

theorem isFullSchemaChunk_ids {chunk : Chunk} {schema : Schema} (h : isFullSchemaChunk chunk schema = true) :
    chunk.columnIds = (List.range schema.length).map Int.ofNat := by
  simp only [isFullSchemaChunk, Bool.and_eq_true, beq_iff_eq, List.all_eq_true, List.mem_range] at h
  obtain ⟨⟨_, hl⟩, hall⟩ := h
  refine List.ext_getElem? ?_
  intro i
  rw [List.getElem?_map]
  by_cases hi : i < schema.length
  · rw [(hall i hi).1.1, List.getElem?_range hi]
    rfl
  · rw [List.getElem?_eq_none (by omega), List.getElem?_eq_none (by simpa using hi)]
    rfl

end DBPlayground.Table
