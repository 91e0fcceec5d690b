import DBPlayground.Table.Column

namespace DBPlayground.Table.Column

open ByteReader

def ofBytes (type : FieldType) (calls : List Bytes) : Column := calls.foldl appendBytes (new type)

variable {type : FieldType} {calls : List Bytes} {i : Nat}

theorem ofBytes_eq : ofBytes type calls = ofValues type (calls.map .string) := by
  rw [ofBytes, ofValues, List.foldl_map]
  rfl

theorem asString_strings : (calls.map Value.string).flatMap Value.asString = calls.flatten := by
  induction calls with
  | nil => rfl
  | cons s calls ih => rw [List.map_cons, List.flatMap_cons, ih, List.flatten_cons, Value.asString]

theorem size_ofBytes : (ofBytes type calls).size = calls.length := by
  rw [ofBytes_eq, size_ofValues, List.length_map]

theorem varBytes_ofBytes : (ofBytes type calls).varBytes = calls.flatten := by
  rw [ofBytes_eq, varBytes_ofValues (by simp), asString_strings]

theorem offsets_ofBytes (hi : i ≤ calls.length) :
    (ofBytes type calls).offsets.getD i 0 = BitVec.ofNat 32 (calls.take i).flatten.length := by
  rw [ofBytes_eq, offsets_ofValues (by simp), List.getD_eq_getElem?_getD, List.getElem?_map,
    List.getElem?_range (by simpa [Nat.lt_succ_iff] using hi), Option.map_some, Option.getD_some, ← List.map_take,
    asString_strings]

theorem getBytes_ofBytes (hi : i < calls.length) : (ofBytes type calls).getBytes i =
    (calls.flatten.drop ((calls.take i).flatten.length % 2 ^ 32)).take (calls[i].length % 2 ^ 32) := by
  have hnext : (calls.take (i + 1)).flatten.length = (calls.take i).flatten.length + calls[i].length := by
    rw [← List.take_concat_get' calls i hi, List.flatten_append, List.length_append, List.flatten_singleton]
  have hlength : (BitVec.ofNat 32 ((calls.take i).flatten.length + calls[i].length) -
      BitVec.ofNat 32 (calls.take i).flatten.length).toNat = calls[i].length % 2 ^ 32 := by
    rw [BitVec.toNat_sub, BitVec.toNat_ofNat, BitVec.toNat_ofNat]
    omega
  rw [getBytes, offsets_ofBytes (Nat.le_of_lt hi), offsets_ofBytes hi, varBytes_ofBytes, hnext, hlength,
    BitVec.toNat_ofNat]

theorem getBytes_of_early (hi : i < calls.length) (hlen : calls[i].length < 2 ^ 32)
    (hstart : calls[i] ≠ [] → (calls.take i).flatten.length < 2 ^ 32) : (ofBytes type calls).getBytes i = calls[i] := by
  rw [getBytes_ofBytes hi, Nat.mod_eq_of_lt hlen]
  by_cases hnil : calls[i] = []
  · simp [hnil]
  · have hsplit : calls.flatten = (calls.take i).flatten ++ (calls[i] ++ (calls.drop (i + 1)).flatten) := by
      rw [← List.flatten_cons, ← List.drop_eq_getElem_cons hi, ← List.flatten_append, List.take_append_drop]
    rw [Nat.mod_eq_of_lt (hstart hnil), hsplit, List.drop_left' rfl, List.take_left' rfl]

def marked (before : List Nat) (n : Nat) (after : List Nat) : List Bytes :=
  before.map (List.replicate · 0) ++ List.replicate n 1 :: after.map (List.replicate · 0)

theorem flatten_zeros (sizes : List Nat) :
    (sizes.map fun n => List.replicate n (0 : Byte)).flatten = List.replicate sizes.sum 0 := by
  induction sizes with
  | nil => rfl
  | cons n sizes ih => rw [List.map_cons, List.flatten_cons, ih, List.sum_cons, List.replicate_add]

section marked

variable {before after : List Nat} {n : Nat}

theorem length_marked : (marked before n after).map List.length = before ++ n :: after := by
  simp [marked, Function.comp_def]

theorem getBytes_marked : (ofBytes type (marked before n after)).getBytes before.length =
    ((marked before n after).flatten.drop (before.sum % 2 ^ 32)).take (n % 2 ^ 32) := by
  have hi : before.length < (marked before n after).length := by simp [marked]
  have hget : (marked before n after)[before.length] = List.replicate n 1 := by simp [marked]
  have htake : (marked before n after).take before.length = before.map (List.replicate · 0) := by simp [marked]
  rw [getBytes_ofBytes hi, hget, htake, flatten_zeros, List.length_replicate, List.length_replicate]

theorem getBytes_late (hn : n ≠ 0) (hlen : n < 2 ^ 32) (hlate : 2 ^ 32 ≤ before.sum) :
    ((ofBytes type (marked before n after)).getBytes before.length).head? = some 0 := by
  have hwrap : before.sum % 2 ^ 32 < before.sum := by omega
  obtain ⟨k, hk⟩ : ∃ k, before.sum - before.sum % 2 ^ 32 = k + 1 := ⟨_, (Nat.succ_pred_eq_of_pos (by omega)).symm⟩
  obtain ⟨m, rfl⟩ : ∃ m, n = m + 1 := ⟨_, (Nat.succ_pred_eq_of_pos (Nat.pos_of_ne_zero hn)).symm⟩
  rw [getBytes_marked, Nat.mod_eq_of_lt hlen, marked, List.flatten_append, flatten_zeros,
    List.drop_append_of_le_length (by simp; omega), List.drop_replicate, hk]
  rfl

end marked

/-- Whatever the bytes are, `GetBytes` returns what was appended, exactly if every value
is shorter than `2 ^ 32` bytes and every one that is not empty starts below `2 ^ 32`. -/
theorem getBytes_returns_iff (type : FieldType) (sizes : List Nat) :
    (∀ calls : List Bytes, calls.map List.length = sizes →
      ∀ i < (ofBytes type calls).size, calls[i]? = some ((ofBytes type calls).getBytes i)) ↔
    ∀ i, (hi : i < sizes.length) → sizes[i] < 2 ^ 32 ∧ (sizes[i] ≠ 0 → (sizes.take i).sum < 2 ^ 32) := by
  constructor
  · intro h i hi
    have hsizes : sizes = sizes.take i ++ sizes[i] :: sizes.drop (i + 1) := by
      rw [← List.drop_eq_getElem_cons hi, List.take_append_drop]
    have hbefore : (sizes.take i).length = i := List.length_take_of_le (Nat.le_of_lt hi)
    generalize sizes.take i = before at hsizes hbefore
    generalize sizes[i] = n at hsizes
    generalize sizes.drop (i + 1) = after at hsizes
    have hgot : some (List.replicate n 1) = some ((ofBytes type (marked before n after)).getBytes before.length) := by
      rw [← h (marked before n after) (length_marked.trans hsizes.symm) before.length (by rw [size_ofBytes]; simp [marked])]
      simp [marked]
    rw [Option.some.injEq] at hgot
    have hlen : n < 2 ^ 32 := by
      have hle := congrArg List.length hgot
      rw [getBytes_marked, List.length_replicate, List.length_take] at hle
      omega
    refine ⟨hlen, fun hn => ?_⟩
    by_contra hlate
    have hhead : ((ofBytes type (marked before n after)).getBytes before.length).head? = some 0 :=
      getBytes_late hn hlen (Nat.not_lt.mp hlate)
    rw [← hgot, List.head?_replicate, if_neg hn] at hhead
    exact absurd hhead (by decide)
  · rintro h calls rfl i hi
    rw [size_ofBytes] at hi
    obtain ⟨hlen, hstart⟩ := h i (by simpa using hi)
    rw [List.getElem_map] at hlen hstart
    rw [List.getElem?_eq_getElem hi, getBytes_of_early hi hlen]
    intro hne
    rw [List.length_flatten, List.map_take]
    exact hstart (by simpa using hne)

/-- After a value of `2 ^ 32` zeros, the one appended next is read from the beginning,
and the zeros are lost. -/
theorem getBytes_aliased :
    (ofBytes .string [List.replicate (2 ^ 32) 0, [1]]).size = 2 ∧
    (ofBytes .string [List.replicate (2 ^ 32) 0, [1]]).getBytes 1 = [0] ∧
    (ofBytes .string [List.replicate (2 ^ 32) 0, [1]]).getBytes 0 = [] := by
  generalize hn : 2 ^ 32 = n
  obtain ⟨m, rfl⟩ : ∃ m, n = m + 1 := ⟨2 ^ 32 - 1, by omega⟩
  have hone : 1 % (m + 1) = 1 := Nat.mod_eq_of_lt (by omega)
  refine ⟨rfl, ?_, ?_⟩
  · rw [getBytes_ofBytes (by simp)]
    simp [hn, hone, List.replicate_succ]
  · rw [getBytes_ofBytes (by simp)]
    simp [hn]

end DBPlayground.Table.Column
