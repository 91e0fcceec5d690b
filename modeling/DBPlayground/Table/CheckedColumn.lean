import DBPlayground.Table.Column

namespace DBPlayground.Table

open ByteReader

/-- How a call may fail: with an exception, or by a read outside of a buffer,
after which C++ promises nothing. -/
inductive Failure
  | threw (e : Exn)
  | outOfBounds
  deriving DecidableEq, Repr

def FieldType.isValid : FieldType → Bool
  | .invalid | .unknown _ => false
  | _ => true

namespace Column

def getChecked (c : Column) (width i : Nat) : Except Failure Nat :=
  if (i + 1) * width ≤ c.fixed.length then .ok (c.get width i) else .error .outOfBounds

def getBytesChecked (c : Column) (i : Nat) : Except Failure Bytes :=
  match c.offsets[i]?, c.offsets[i + 1]? with
  | some start, some stop =>
    if start.toNat + (stop - start).toNat ≤ c.varBytes.length then .ok (c.getBytes i) else .error .outOfBounds
  | _, _ => .error .outOfBounds

/-- The `i`-th value, read as one of the given type. `e` is what the caller
throws where the type is not valid. -/
def readAs (c : Column) (e : Exn) (type : FieldType) (i : Nat) : Except Failure Value :=
  match type with
  | .int32 => do
    let n ← c.getChecked 4 i
    pure (.int32 (BitVec.ofNat 32 n))
  | .int64 => do
    let n ← c.getChecked 8 i
    pure (.int64 (BitVec.ofNat 64 n))
  | .float => do
    let n ← c.getChecked 4 i
    pure (.float (BitVec.ofNat 32 n))
  | .double => do
    let n ← c.getChecked 8 i
    pure (.double (BitVec.ofNat 64 n))
  | .bool => do
    let n ← c.getChecked 1 i
    pure (.bool (decide (n ≠ 0)))
  | .string | .blob => do
    let s ← c.getBytesChecked i
    pure (.string s)
  | .invalid | .unknown _ => .error (.threw e)

def readRangeAs (c : Column) (e : Exn) (type : FieldType) : Nat → Nat → Except Failure (List Value)
  | _, 0 => if type.isValid then pure [] else .error (.threw e)
  | first, count + 1 => do
    let v ← c.readAs e type first
    let vs ← readRangeAs c e type (first + 1) count
    pure (v :: vs)

def appendAll (c : Column) (vals : List Value) : Column := vals.foldl appendValue c

theorem appendAll_ofValues (type : FieldType) (us vs : List Value) :
    (ofValues type us).appendAll vs = ofValues type (us ++ vs) := by
  rw [appendAll, ofValues, ofValues, List.foldl_append]

def strings (vals : List Value) : Bytes := vals.flatMap Value.asString

theorem strings_append (us vs : List Value) : strings (us ++ vs) = strings us ++ strings vs :=
  List.flatMap_append

theorem strings_split {vals : List Value} {i : Nat} (hi : i < vals.length) :
    strings vals = strings (vals.take i) ++ (vals[i].asString ++ strings (vals.drop (i + 1))) := by
  rw [strings, strings, strings, ← List.flatMap_cons, ← List.drop_eq_getElem_cons hi, ← List.flatMap_append,
    List.take_append_drop]

theorem strings_take_succ {vals : List Value} {i : Nat} (hi : i < vals.length) :
    strings (vals.take (i + 1)) = strings (vals.take i) ++ vals[i].asString := by
  rw [← List.take_concat_get' vals i hi, strings_append]
  exact congrArg _ (List.flatMap_singleton _ _)

/-- The values as a column returns them: the offsets of a variable-length
column are kept modulo 2^32. -/
def wrapped (vals : List Value) : List Value :=
  vals.mapIdx fun i v => match v with
    | .string s => .string (((strings vals).drop ((strings (vals.take i)).length % 2 ^ 32)).take (s.length % 2 ^ 32))
    | v => v

@[simp] theorem length_wrapped (vals : List Value) : (wrapped vals).length = vals.length := List.length_mapIdx

section Cells

variable {type : FieldType} {vals : List Value} {e : Exn}

theorem getElem_wrapped {i : Nat} (hi : i < vals.length) (hi' : i < (wrapped vals).length) :
    (wrapped vals)[i] = match vals[i] with
      | .string s =>
        .string (((strings vals).drop ((strings (vals.take i)).length % 2 ^ 32)).take (s.length % 2 ^ 32))
      | v => v := List.getElem_mapIdx

theorem hasType_wrapped (ht : ∀ v ∈ vals, v.hasType type = true) :
    ∀ v ∈ wrapped vals, v.hasType type = true := by
  intro v hv
  obtain ⟨i, hi, rfl⟩ := List.getElem_of_mem hv
  have hi' : i < vals.length := by rwa [length_wrapped] at hi
  have hcell := ht vals[i] (List.getElem_mem hi')
  rw [getElem_wrapped hi']
  generalize vals[i] = u at hcell
  cases u with
  | string s => cases type <;> first | rfl | cases hcell
  | _ => exact hcell

theorem length_string_wrapped {v : Value} (hv : v ∈ wrapped vals) : v.asString.length < 2 ^ 32 := by
  obtain ⟨i, hi, rfl⟩ := List.getElem_of_mem hv
  have hi' : i < vals.length := by rwa [length_wrapped] at hi
  rw [getElem_wrapped hi']
  cases vals[i] with
  | string s =>
      have hmod := Nat.mod_lt s.length (show 0 < 2 ^ 32 by decide)
      simp only [Value.asString, List.length_take]
      omega
  | _ => exact Nat.two_pow_pos 32

/-- Every value is shorter than `2 ^ 32` bytes, and one that is not empty starts below
`2 ^ 32`. -/
def Early (vals : List Value) : Prop :=
  ∀ i, (hi : i < vals.length) →
    vals[i].asString.length < 2 ^ 32 ∧ (vals[i].asString ≠ [] → (strings (vals.take i)).length < 2 ^ 32)

theorem early_of_small (hlen : (strings vals).length < 2 ^ 32) : Early vals := by
  intro i hi
  have hbound := congrArg List.length (strings_split hi)
  simp only [List.length_append] at hbound
  exact ⟨by omega, fun _ => by omega⟩

theorem Early.middle {before after : List Value} (h : Early (before ++ vals ++ after)) : Early vals := by
  intro i hi
  have hb : before.length + i < (before ++ vals).length := by
    rw [List.length_append]
    omega
  have hlt : before.length + i < (before ++ vals ++ after).length := by
    simp only [List.length_append]
    omega
  obtain ⟨hlen, hstart⟩ := h (before.length + i) hlt
  have hget : (before ++ vals ++ after)[before.length + i] = vals[i] := by
    rw [List.getElem_append_left hb, List.getElem_append_right (Nat.le_add_right ..)]
    simp only [Nat.add_sub_cancel_left]
  rw [hget] at hlen hstart
  refine ⟨hlen, fun hne => Nat.lt_of_le_of_lt ?_ (hstart hne)⟩
  rw [List.append_assoc, List.take_length_add_append, strings_append, List.length_append,
    List.take_append_of_le_length (Nat.le_of_lt hi)]
  exact Nat.le_add_left ..

theorem wrapped_of_early (h : Early vals) : wrapped vals = vals := by
  refine List.ext_getElem (length_wrapped vals) ?_
  intro i hi hi'
  obtain ⟨hlen, hstart⟩ := h i hi'
  rw [getElem_wrapped hi']
  have hsplit := strings_split hi'
  generalize vals[i] = v at hsplit hlen hstart
  cases v with
  | string s =>
      dsimp only [Value.asString] at hsplit hlen hstart ⊢
      refine congrArg Value.string ?_
      by_cases hnil : s = []
      · rw [hnil]
        rfl
      · rw [Nat.mod_eq_of_lt hlen, Nat.mod_eq_of_lt (hstart hnil), hsplit, List.drop_left' rfl, List.take_left' rfl]
  | _ => rfl

theorem wrapped_eq_self (hlen : (strings vals).length < 2 ^ 32) : wrapped vals = vals :=
  wrapped_of_early (early_of_small hlen)

theorem length_fixed_ofValues {width : Nat} (hw : ∀ v ∈ vals, v.pod.length = width) :
    (ofValues type vals).fixed.length = vals.length * width := by
  rw [fixed_ofValues]
  induction vals with
  | nil => simp
  | cons v vals ih =>
      rw [List.flatMap_cons, List.length_append, hw v List.mem_cons_self,
        ih fun u hu => hw u (List.mem_cons_of_mem v hu), List.length_cons, Nat.succ_mul, Nat.add_comm]

theorem getChecked_ofValues {width i : Nat} (hw : ∀ v ∈ vals, v.pod.length = width) (hi : i < vals.length) :
    (ofValues type vals).getChecked width i = .ok (leNat vals[i].pod) := by
  rw [getChecked, length_fixed_ofValues hw, if_pos (Nat.mul_le_mul_right width hi), get_ofValues hw hi]

theorem getBytesChecked_ofValues {i : Nat} (hs : ∀ v ∈ vals, ∃ s, v = .string s) (hi : i < vals.length) :
    (ofValues type vals).getBytesChecked i = .ok (((strings vals).drop
      ((strings (vals.take i)).length % 2 ^ 32)).take (vals[i].asString.length % 2 ^ 32)) := by
  have hoff : ∀ j ≤ vals.length, (ofValues type vals).offsets[j]? =
      some (BitVec.ofNat 32 (strings (vals.take j)).length) := by
    intro j hj
    rw [offsets_ofValues hs, List.getElem?_map, List.getElem?_range (Nat.lt_succ_of_le hj)]
    rfl
  have hbytes : (ofValues type vals).varBytes = strings vals := varBytes_ofValues hs
  have hstart : (BitVec.ofNat 32 (strings (vals.take i)).length).toNat =
      (strings (vals.take i)).length % 2 ^ 32 := BitVec.toNat_ofNat _ _
  have hwidth : (BitVec.ofNat 32 (strings (vals.take (i + 1))).length -
      BitVec.ofNat 32 (strings (vals.take i)).length).toNat = vals[i].asString.length % 2 ^ 32 := by
    rw [strings_take_succ hi, List.length_append, BitVec.toNat_sub, BitVec.toNat_ofNat, BitVec.toNat_ofNat]
    omega
  have hbound := congrArg List.length (strings_split hi)
  simp only [List.length_append] at hbound
  have hin : (strings (vals.take i)).length % 2 ^ 32 + vals[i].asString.length % 2 ^ 32 ≤
      (strings vals).length := by
    have h1 := Nat.mod_le (strings (vals.take i)).length (2 ^ 32)
    have h2 := Nat.mod_le vals[i].asString.length (2 ^ 32)
    omega
  simp only [getBytesChecked, getBytes, List.getD_eq_getElem?_getD, hoff i (Nat.le_of_lt hi), hoff (i + 1) hi,
    Option.getD_some, hbytes, hstart, hwidth, if_pos hin]

theorem readAs_ofValues {i : Nat} (ht : ∀ v ∈ vals, v.hasType type = true) (hi : i < vals.length)
    (hi' : i < (wrapped vals).length) :
    (ofValues type vals).readAs e type i = .ok (wrapped vals)[i] := by
  have hfixed : ∀ w, (∀ v : Value, v.hasType type = true → v.pod.length = w) →
      (ofValues type vals).getChecked w i = .ok (leNat vals[i].pod) :=
    fun w hw => getChecked_ofValues (fun v hv => hw v (ht v hv)) hi
  have hvar : (∀ v : Value, v.hasType type = true → ∃ s, v = .string s) →
      (ofValues type vals).getBytesChecked i = .ok (((strings vals).drop
        ((strings (vals.take i)).length % 2 ^ 32)).take (vals[i].asString.length % 2 ^ 32)) :=
    fun h => getBytesChecked_ofValues (fun v hv => h v (ht v hv)) hi
  have hcell := ht vals[i] (List.getElem_mem hi)
  rw [getElem_wrapped hi]
  generalize vals[i] = v at hcell hfixed hvar
  cases type with
  | invalid | unknown c => cases v <;> cases hcell
  | string | blob =>
      rw [readAs, hvar (fun u hu => by cases u <;> first | exact ⟨_, rfl⟩ | cases hu)]
      cases v <;> first | rfl | cases hcell
  | bool =>
      rw [readAs, hfixed 1 (fun u hu => by cases u <;> first | exact length_leBytes _ _ | cases hu)]
      cases v with
      | bool b => cases b <;> rfl
      | _ => cases hcell
  | int32 | float =>
      rw [readAs, hfixed 4 (fun u hu => by cases u <;> first | exact length_leBytes _ _ | cases hu)]
      cases v <;> cases hcell
      show Except.ok _ = _
      rw [Value.pod, ofNat_leNat_leBytes _ (by decide)]
  | int64 | double =>
      rw [readAs, hfixed 8 (fun u hu => by cases u <;> first | exact length_leBytes _ _ | cases hu)]
      cases v <;> cases hcell
      show Except.ok _ = _
      rw [Value.pod, ofNat_leNat_leBytes _ (by decide)]

theorem readRangeAs_ofValues {first count : Nat} (hvalid : type.isValid = true)
    (ht : ∀ v ∈ vals, v.hasType type = true) (hle : first + count ≤ vals.length) :
    (ofValues type vals).readRangeAs e type first count = .ok (((wrapped vals).drop first).take count) := by
  induction count generalizing first with
  | zero =>
      rw [readRangeAs, if_pos hvalid, List.take_zero]
      rfl
  | succ count ih =>
      have hlt : first < vals.length := by omega
      have hlt' : first < (wrapped vals).length := by rwa [length_wrapped]
      rw [readRangeAs, readAs_ofValues ht hlt hlt', ih (by omega), List.drop_eq_getElem_cons hlt',
        List.take_succ_cons]
      rfl

end Cells

def readCell (c : Column) (row : Nat) : Except Failure Value :=
  c.readAs (.invalidArgument "ReadCell: invalid column type") c.type row

end Column

def Chunk.readRow (c : Chunk) (row : Nat) : Except Failure (List Value) := c.columns.mapM (·.readCell row)

/-- The rows `CollectProjected` takes out of one chunk. -/
def Chunk.readRows (c : Chunk) : Except Failure (List (List Value)) := (List.range c.rowCount).mapM c.readRow

end DBPlayground.Table
