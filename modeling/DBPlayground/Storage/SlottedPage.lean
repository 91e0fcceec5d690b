import DBPlayground.Storage.ValuePage

namespace DBPlayground.Storage

open ByteReader

section bytes

variable {bytes data : Bytes} {off o len : Nat} {v : BitVec 32}

theorem length_overwrite (h : off + data.length ≤ bytes.length) : (overwrite bytes off data).length = bytes.length := by
  simp only [overwrite, List.length_append, List.length_take, List.length_drop]
  omega

theorem slice_overwrite_self (h : off + data.length ≤ bytes.length) :
    slice (overwrite bytes off data) off data.length = data := by
  have hl : (bytes.take off).length = off := by
    rw [List.length_take]
    omega
  unfold slice overwrite
  rw [List.append_assoc, List.drop_left' hl, List.take_left]

theorem slice_overwrite_before (h : off + data.length ≤ bytes.length) (ho : o + len ≤ off) :
    slice (overwrite bytes off data) o len = slice bytes o len := by
  have hl : (bytes.take off).length = off := by
    rw [List.length_take]
    omega
  unfold slice overwrite
  rw [List.append_assoc, List.drop_append_of_le_length (by omega), List.take_append_of_le_length
    (by rw [List.length_drop]; omega), List.drop_take, List.take_take]
  congr 1
  omega

theorem slice_overwrite_after (h : off + data.length ≤ bytes.length) (ho : off + data.length ≤ o) :
    slice (overwrite bytes off data) o len = slice bytes o len := by
  have hl : (bytes.take off ++ data).length = off + data.length := by
    rw [List.length_append, List.length_take]
    omega
  unfold slice overwrite
  rw [List.drop_append, List.drop_eq_nil_of_le (by omega), List.nil_append, List.drop_drop, hl]
  congr 2
  omega

theorem slice_overwrite (h : off + data.length ≤ bytes.length) (ho : o + len ≤ off ∨ off + data.length ≤ o) :
    slice (overwrite bytes off data) o len = slice bytes o len :=
  ho.elim (slice_overwrite_before h) (slice_overwrite_after h)

theorem read32_overwrite (h : off + data.length ≤ bytes.length) (ho : o + 4 ≤ off ∨ off + data.length ≤ o) :
    read32 (overwrite bytes off data) o = read32 bytes o := by
  unfold read32
  rw [slice_overwrite h ho]

theorem length_write32 (h : off + 4 ≤ bytes.length) : (write32 bytes off v).length = bytes.length :=
  length_overwrite (by rwa [length_leBytes])

theorem read32_write32_self (h : off + 4 ≤ bytes.length) : read32 (write32 bytes off v) off = v := by
  have hs : slice (overwrite bytes off (leBytes 4 v.toNat)) off (leBytes 4 v.toNat).length = _ :=
    slice_overwrite_self (by rwa [length_leBytes])
  rw [length_leBytes] at hs
  unfold read32 write32
  rw [hs]
  exact ofNat_leNat_leBytes v rfl

theorem slice_write32 (h : off + 4 ≤ bytes.length) (ho : o + len ≤ off ∨ off + 4 ≤ o) :
    slice (write32 bytes off v) o len = slice bytes o len :=
  slice_overwrite (by rwa [length_leBytes]) (by rwa [length_leBytes])

theorem read32_write32 (h : off + 4 ≤ bytes.length) (ho : o + 4 ≤ off ∨ off + 4 ≤ o) :
    read32 (write32 bytes off v) o = read32 bytes o :=
  read32_overwrite (by rwa [length_leBytes]) (by rwa [length_leBytes])

end bytes

namespace ValuePage

def slotStart (v : ValuePage) (i : Nat) : Nat := (read32 v.bytes (slotOffset i)).toNat

def HoldsSlot (v : ValuePage) (i : Nat) : Option Bytes → Prop
  | none => v.slotLength i = kTombstone
  | some b => b.length ≤ maxValueSize ∧ v.slotLength i = BitVec.ofNat 32 b.length ∧ v.freePtr.toNat ≤ v.slotStart i ∧
      v.slotStart i + b.length ≤ pageSize ∧ slice v.bytes (v.slotStart i) b.length = b

/-- The page holds these slots, a tombstone as `none`: the slot directory ends
before the free space, and the values lie apart from each other behind it. -/
structure Slotted (v : ValuePage) (slots : List (Option Bytes)) : Prop where
  length_bytes : v.bytes.length = pageSize
  count : v.numSlots.toNat = slots.length
  dir_le : slotOffset slots.length ≤ v.freePtr.toNat
  ptr_le : v.freePtr.toNat ≤ pageSize
  holds : ∀ {i x}, slots[i]? = some x → v.HoldsSlot i x
  apart : ∀ {i j b c}, i ≠ j → slots[i]? = some (some b) → slots[j]? = some (some c) →
    v.slotStart i + b.length ≤ v.slotStart j ∨ v.slotStart j + c.length ≤ v.slotStart i

variable {v v' : ValuePage} {slots : List (Option Bytes)} {value b : Bytes} {x : Option Bytes} {idx : BitVec 32} {i : Nat}
  {next : PageId}

theorem slotOffset_eq (i : Nat) : slotOffset i = 12 + 8 * i := rfl

theorem pageSize_eq : pageSize = 16384 := rfl

theorem maxValueSize_eq : maxValueSize = 16364 := rfl

theorem valueSlotSize_eq : valueSlotSize = 8 := rfl

theorem valuePageHeaderSize_eq : valuePageHeaderSize = 12 := rfl

theorem toNat_length (h : value.length ≤ maxValueSize) : (BitVec.ofNat 32 value.length).toNat = value.length := by
  rw [maxValueSize_eq] at h
  rw [BitVec.toNat_ofNat]
  omega

theorem ofNat_ne_tombstone (h : value.length ≤ maxValueSize) : BitVec.ofNat 32 value.length ≠ kTombstone := by
  intro he
  have ht := congrArg BitVec.toNat he
  rw [toNat_length h] at ht
  rw [maxValueSize_eq, ht] at h
  exact absurd h (by decide)

theorem HoldsSlot.congr (h : v.HoldsSlot i x) (hstart : v'.slotStart i = v.slotStart i)
    (hlen : v'.slotLength i = v.slotLength i) (hptr : v'.freePtr.toNat ≤ v.freePtr.toNat)
    (hslice : ∀ b, x = some b → slice v'.bytes (v.slotStart i) b.length = slice v.bytes (v.slotStart i) b.length) :
    v'.HoldsSlot i x := by
  cases x with
  | none => exact hlen.trans h
  | some b =>
      obtain ⟨hb, hl, hlo, hhi, hs⟩ := h
      refine ⟨hb, hlen.trans hl, ?_, ?_, ?_⟩
      · rw [hstart]
        exact hptr.trans hlo
      · rw [hstart]
        exact hhi
      · rw [hstart, hslice b rfl]
        exact hs

theorem slotted_init (h : v.bytes.length = pageSize) : Slotted (v.init next) [] where
  length_bytes := h
  count := rfl
  dir_le := show slotOffset 0 ≤ (BitVec.ofNat 32 pageSize).toNat by decide
  ptr_le := show (BitVec.ofNat 32 pageSize).toNat ≤ pageSize by decide
  holds hi := nomatch hi
  apart _ hi := nomatch hi

theorem Slotted.entry_le (h : Slotted v slots) (hi : i < slots.length) : slotOffset i + 8 ≤ v.freePtr.toNat := by
  have hd := h.dir_le
  rw [slotOffset_eq] at hd ⊢
  omega

theorem Slotted.inPage (h : Slotted v slots) (hi : i < slots.length) : InPage (slotOffset i) valueSlotSize := by
  have hentry := h.entry_le hi
  have hptr := h.ptr_le
  refine ⟨Nat.le_add_right _ _, ?_⟩
  rw [valueSlotSize_eq]
  omega

theorem Slotted.freeSpace (h : Slotted v slots) : v.freeSpace.toNat = v.freePtr.toNat - slotOffset slots.length := by
  have hd := h.dir_le
  have hp := h.ptr_le
  have hc := h.count
  rw [slotOffset_eq] at hd ⊢
  rw [pageSize_eq] at hp
  have h12 : (BitVec.ofNat 64 valuePageHeaderSize).toNat = 12 := rfl
  have h8 : (BitVec.ofNat 64 valueSlotSize).toNat = 8 := rfl
  have hn : (v.numSlots.setWidth 64).toNat = v.numSlots.toNat := by
    rw [BitVec.toNat_setWidth]
    have := v.numSlots.isLt
    omega
  have hf : (v.freePtr.setWidth 64).toNat = v.freePtr.toNat := by
    rw [BitVec.toNat_setWidth]
    have := v.freePtr.isLt
    omega
  unfold ValuePage.freeSpace
  rw [BitVec.toNat_sub, BitVec.toNat_add, BitVec.toNat_mul, h12, h8, hn, hf, hc]
  omega

theorem Slotted.value_in (h : Slotted v slots) (hi : slots[i]? = some (some b)) {len : Nat} (hlen : len ≤ b.length) :
    InPage (v.slotStart i) len := by
  obtain ⟨_, _, hlo, hhi, _⟩ := h.holds hi
  have hd := h.dir_le
  rw [slotOffset_eq] at hd
  unfold InPage
  rw [valuePageHeaderSize_eq]
  omega

theorem Slotted.get (h : Slotted v slots) : v.get idx = some (slots[idx.toNat]?).join := by
  unfold ValuePage.get
  by_cases hi : idx.toNat < slots.length
  · rw [if_pos (h.count ▸ hi), if_pos (h.inPage hi)]
    cases hs : slots[idx.toNat]? with
    | none => exact absurd (List.getElem?_eq_none_iff.mp hs) (by omega)
    | some x =>
        cases x with
        | none => exact if_pos (h.holds hs)
        | some b =>
            obtain ⟨hb, hlen, _, _, hbytes⟩ := h.holds hs
            dsimp only
            rw [hlen, if_neg (ofNat_ne_tombstone hb), toNat_length hb]
            refine (if_pos (h.value_in hs (Nat.le_refl _))).trans ?_
            exact congrArg (some ∘ some) hbytes
  · rw [if_neg (by rw [h.count]; exact hi), List.getElem?_eq_none_iff.mpr (by omega)]
    rfl

def added (v : ValuePage) (value : Bytes) : ValuePage :=
  let off := v.freePtr - BitVec.ofNat 32 value.length
  { v with
    freePtr := off
    numSlots := v.numSlots + 1
    bytes := write32 (write32 (overwrite v.bytes off.toNat value) (slotOffset v.numSlots.toNat) off)
      (slotOffset v.numSlots.toNat + 4) (BitVec.ofNat 32 value.length) }

def Fits (v : ValuePage) (value : Bytes) : Prop :=
  value.length ≤ maxValueSize ∧ valueSlotSize + value.length ≤ v.freeSpace.toNat

theorem Slotted.room (h : Slotted v slots) (hf : v.Fits value) :
    (v.freePtr - BitVec.ofNat 32 value.length).toNat = v.freePtr.toNat - value.length ∧
      slotOffset slots.length + 8 + value.length ≤ v.freePtr.toNat := by
  obtain ⟨hv, hn⟩ := hf
  have hd := h.dir_le
  rw [h.freeSpace, valueSlotSize_eq] at hn
  refine ⟨?_, by omega⟩
  rw [BitVec.toNat_sub, toNat_length hv]
  have := v.freePtr.isLt
  omega

theorem Slotted.put (h : Slotted v slots) (hf : v.Fits value) :
    v.put value = some (BitVec.ofNat 32 slots.length, v.added value) := by
  obtain ⟨hoff, hroom⟩ := h.room hf
  have hp := h.ptr_le
  have hso := slotOffset_eq slots.length
  have hin : InPage (v.freePtr - BitVec.ofNat 32 value.length).toNat value.length ∧
      InPage (slotOffset v.numSlots.toNat) valueSlotSize := by
    rw [hoff, h.count]
    unfold InPage
    rw [valuePageHeaderSize_eq, valueSlotSize_eq]
    omega
  have hidx : BitVec.ofNat 32 slots.length = v.numSlots := by
    rw [← h.count, BitVec.ofNat_toNat, BitVec.setWidth_eq]
  rw [hidx]
  exact if_pos hin

section added

variable (h : Slotted v slots) (hf : v.Fits value)

include h hf

theorem Slotted.bytes_added : (v.added value).bytes =
    write32 (write32 (overwrite v.bytes (v.freePtr.toNat - value.length) value) (slotOffset slots.length)
      (v.freePtr - BitVec.ofNat 32 value.length)) (slotOffset slots.length + 4) (BitVec.ofNat 32 value.length) := by
  rw [added, (h.room hf).1, h.count]

theorem Slotted.length_added : (v.added value).bytes.length = pageSize := by
  have hroom := (h.room hf).2
  have hp := h.ptr_le
  have hl := h.length_bytes
  rw [h.bytes_added hf, length_write32, length_write32, length_overwrite (by omega), hl]
  · rw [length_overwrite (by omega)]
    omega
  · rw [length_write32, length_overwrite (by omega)]
    · omega
    · rw [length_overwrite (by omega)]
      omega

theorem Slotted.slice_added {o len : Nat} (ho : o + len ≤ slotOffset slots.length ∨ slotOffset slots.length + 8 ≤ o)
    (ho' : o + len ≤ v.freePtr.toNat - value.length ∨ v.freePtr.toNat ≤ o) :
    slice (v.added value).bytes o len = slice v.bytes o len := by
  have hroom := (h.room hf).2
  have hp := h.ptr_le
  have hl := h.length_bytes
  have hl₁ : (overwrite v.bytes (v.freePtr.toNat - value.length) value).length = pageSize := by
    rw [length_overwrite (by omega), hl]
  rw [h.bytes_added hf, slice_write32 (by rw [length_write32 (by omega)]; omega) (by omega),
    slice_write32 (by omega) (by omega), slice_overwrite (by omega) (by omega)]

theorem Slotted.slotStart_new : (v.added value).slotStart slots.length = v.freePtr.toNat - value.length := by
  obtain ⟨hoff, hroom⟩ := h.room hf
  have hp := h.ptr_le
  have hl₁ : (overwrite v.bytes (v.freePtr.toNat - value.length) value).length = pageSize := by
    rw [length_overwrite (by rw [h.length_bytes]; omega), h.length_bytes]
  rw [slotStart, h.bytes_added hf, read32_write32 (by rw [length_write32 (by omega)]; omega) (by omega),
    read32_write32_self (by omega), hoff]

theorem Slotted.holds_new : (v.added value).HoldsSlot slots.length (some value) := by
  have hroom := (h.room hf).2
  have hoff := (h.room hf).1
  have hp := h.ptr_le
  have hl := h.length_bytes
  have hl₁ : (overwrite v.bytes (v.freePtr.toNat - value.length) value).length = pageSize := by
    rw [length_overwrite (by omega), hl]
  have hstart := h.slotStart_new hf
  refine ⟨hf.1, ?_, ?_, ?_, ?_⟩
  · rw [slotLength, h.bytes_added hf, read32_write32_self (by rw [length_write32 (by omega)]; omega)]
  · rw [hstart]
    exact Nat.le_of_eq hoff
  · rw [hstart]
    omega
  · rw [hstart, h.bytes_added hf, slice_write32 (by rw [length_write32 (by omega)]; omega) (by omega),
      slice_write32 (by omega) (by omega), slice_overwrite_self (by omega)]

theorem Slotted.slotStart_added (hi : i < slots.length) : (v.added value).slotStart i = v.slotStart i := by
  have hroom := (h.room hf).2
  have hentry : slotOffset i + 8 ≤ slotOffset slots.length := by
    rw [slotOffset_eq, slotOffset_eq]
    omega
  unfold slotStart read32
  rw [h.slice_added hf (by omega) (by omega)]

theorem Slotted.add : Slotted (v.added value) (slots ++ [some value]) := by
  have hroom := (h.room hf).2
  have hoff := (h.room hf).1
  have hp := h.ptr_le
  have hc := h.count
  have hso := slotOffset_eq slots.length
  have hps := pageSize_eq
  have hnew : ∀ {i x}, (slots ++ [some value])[i]? = some x → i < slots.length ∧ slots[i]? = some x ∨
      i = slots.length ∧ x = some value := by
    intro i x hi
    obtain ⟨hlt, _⟩ := List.getElem?_eq_some_iff.mp hi
    rw [List.length_append, List.length_singleton] at hlt
    by_cases hlast : i = slots.length
    · rw [hlast, List.getElem?_concat_length] at hi
      exact .inr ⟨hlast, (Option.some.inj hi).symm⟩
    · rw [List.getElem?_append_left (by omega)] at hi
      exact .inl ⟨by omega, hi⟩
  -- the values lie at or behind the old end of the free space, the new one before it
  have hbehind : ∀ {i b}, slots[i]? = some (some b) → v.freePtr.toNat ≤ v.slotStart i := fun hi => (h.holds hi).2.2.1
  have hstart : (v.added value).slotStart slots.length + value.length ≤ v.freePtr.toNat := by
    rw [h.slotStart_new hf]
    omega
  refine ⟨h.length_added hf, ?_, ?_, ?_, ?_, ?_⟩
  · show (v.numSlots + 1).toNat = _
    rw [BitVec.toNat_add, hc, List.length_append]
    show (slots.length + 1) % 2 ^ 32 = slots.length + 1
    omega
  · show slotOffset (slots ++ [some value]).length ≤ (v.freePtr - BitVec.ofNat 32 value.length).toNat
    rw [hoff, List.length_append, List.length_singleton, slotOffset_eq]
    omega
  · show (v.freePtr - BitVec.ofNat 32 value.length).toNat ≤ pageSize
    omega
  · intro i x hi
    obtain ⟨hlt, hi⟩ | ⟨rfl, rfl⟩ := hnew hi
    · have hentry : slotOffset i + 8 ≤ slotOffset slots.length := by
        rw [slotOffset_eq, slotOffset_eq]
        omega
      refine (h.holds hi).congr (h.slotStart_added hf hlt) ?_ (by show (v.freePtr - _).toNat ≤ _; omega) ?_
      · unfold slotLength read32
        rw [h.slice_added hf (by omega) (by omega)]
      · rintro b rfl
        have := hbehind hi
        exact h.slice_added hf (by omega) (by omega)
    · exact h.holds_new hf
  · intro i j b c hij hi hj
    obtain ⟨hli, hi'⟩ | ⟨rfl, hb⟩ := hnew hi <;> obtain ⟨hlj, hj'⟩ | ⟨rfl, hc⟩ := hnew hj
    · rw [h.slotStart_added hf hli, h.slotStart_added hf hlj]
      exact h.apart hij hi' hj'
    · obtain rfl := Option.some.inj hc
      right
      rw [h.slotStart_added hf hli]
      exact hstart.trans (hbehind hi')
    · obtain rfl := Option.some.inj hb
      left
      rw [h.slotStart_added hf hlj]
      exact hstart.trans (hbehind hj')
    · exact absurd rfl hij

end added

theorem Slotted.change (h : Slotted v slots) (hlen : v'.bytes.length = pageSize) (hn : v'.numSlots = v.numSlots)
    (hptr : v'.freePtr = v.freePtr) (hi : i < slots.length) (hx : v'.HoldsSlot i x)
    (hdir : ∀ j, j < slots.length → v'.slotStart j = v.slotStart j ∧ (j ≠ i → v'.slotLength j = v.slotLength j))
    (hsub : ∀ c, x = some c → ∃ b, slots[i]? = some (some b) ∧ c.length ≤ b.length)
    (hslice : ∀ {j b}, j ≠ i → slots[j]? = some (some b) →
      slice v'.bytes (v.slotStart j) b.length = slice v.bytes (v.slotStart j) b.length) : Slotted v' (slots.set i x) := by
  have hset : ∀ {j y}, (slots.set i x)[j]? = some y → j = i ∧ y = x ∨ j ≠ i ∧ slots[j]? = some y ∧ j < slots.length := by
    intro j y hj
    by_cases hji : j = i
    · rw [hji, List.getElem?_set_self hi] at hj
      exact .inl ⟨hji, (Option.some.inj hj).symm⟩
    · rw [List.getElem?_set_ne (Ne.symm hji)] at hj
      exact .inr ⟨hji, hj, (List.getElem?_eq_some_iff.mp hj).1⟩
  refine ⟨hlen, ?_, ?_, ?_, ?_, ?_⟩
  · rw [hn, List.length_set]
    exact h.count
  · rw [hptr, List.length_set]
    exact h.dir_le
  · rw [hptr]
    exact h.ptr_le
  · intro j y hj
    obtain ⟨rfl, rfl⟩ | ⟨hji, hj, hlt⟩ := hset hj
    · exact hx
    · refine (h.holds hj).congr (hdir j hlt).1 ((hdir j hlt).2 hji) (Nat.le_of_eq (congrArg BitVec.toNat hptr)) ?_
      rintro b rfl
      exact hslice hji hj
  · intro j k b c hjk hj hk
    obtain ⟨rfl, hb⟩ | ⟨hji, hj', hlj⟩ := hset hj <;> obtain ⟨rfl, hc⟩ | ⟨hki, hk', hlk⟩ := hset hk
    · exact absurd rfl hjk
    · obtain ⟨b', hb', hle⟩ := hsub b hb.symm
      have hap := h.apart hjk hb' hk'
      rw [(hdir j hi).1, (hdir k hlk).1]
      omega
    · obtain ⟨c', hc', hle⟩ := hsub c hc.symm
      have hap := h.apart hjk hj' hc'
      rw [(hdir j hlj).1, (hdir k hi).1]
      omega
    · rw [(hdir j hlj).1, (hdir k hlk).1]
      exact h.apart hjk hj' hk'

theorem Slotted.write_length (h : Slotted v slots) (hi : i < slots.length) (n : BitVec 32) {bytes : Bytes}
    (hb : bytes.length = pageSize)
    (hdir : ∀ j, j < slots.length → read32 bytes (slotOffset j) = read32 v.bytes (slotOffset j) ∧
      read32 bytes (slotOffset j + 4) = read32 v.bytes (slotOffset j + 4)) (j : Nat) (hj : j < slots.length) :
    ({ v with bytes := write32 bytes (slotOffset i + 4) n } : ValuePage).slotStart j = v.slotStart j ∧
      (j ≠ i → ({ v with bytes := write32 bytes (slotOffset i + 4) n } : ValuePage).slotLength j = v.slotLength j) := by
  have hentry := h.entry_le hi
  have hp := h.ptr_le
  have hoi := slotOffset_eq i
  have hoj := slotOffset_eq j
  constructor
  · show (read32 (write32 bytes (slotOffset i + 4) n) (slotOffset j)).toNat = _
    rw [read32_write32 (by omega) (by omega), (hdir j hj).1]
    rfl
  · intro hji
    show read32 (write32 bytes (slotOffset i + 4) n) (slotOffset j + 4) = _
    rw [read32_write32 (by omega) (by omega), (hdir j hj).2]
    rfl

def removed (v : ValuePage) (i : Nat) : ValuePage := { v with bytes := write32 v.bytes (slotOffset i + 4) kTombstone }

theorem Slotted.remove (h : Slotted v slots) (hi : i < slots.length) : Slotted (v.removed i) (slots.set i none) := by
  have hentry := h.entry_le hi
  have hp := h.ptr_le
  have hl := h.length_bytes
  refine h.change ?_ rfl rfl hi ?_ (h.write_length hi _ hl fun _ _ => ⟨rfl, rfl⟩) (fun _ hc => nomatch hc) ?_
  · show (write32 v.bytes (slotOffset i + 4) kTombstone).length = pageSize
    rw [length_write32 (by omega), hl]
  · exact read32_write32_self (by omega)
  · intro j b _ hj
    have hlo := (h.holds hj).2.2.1
    exact slice_write32 (by omega) (by omega)

theorem Slotted.delete (h : Slotted v slots) : v.delete idx =
    some ((slots[idx.toNat]?).join.isSome, if (slots[idx.toNat]?).join.isSome then v.removed idx.toNat else v) := by
  unfold ValuePage.delete
  by_cases hi : idx.toNat < slots.length
  · rw [if_pos (h.count ▸ hi), if_pos (h.inPage hi)]
    cases hs : slots[idx.toNat]? with
    | none => exact absurd (List.getElem?_eq_none_iff.mp hs) (by omega)
    | some x =>
        cases x with
        | none => exact if_pos (h.holds hs)
        | some b =>
            obtain ⟨hb, hlen, _⟩ := h.holds hs
            exact if_neg (hlen ▸ ofNat_ne_tombstone hb)
  · rw [if_neg (by rw [h.count]; exact hi), List.getElem?_eq_none_iff.mpr (by omega)]
    rfl

def overwritten (v : ValuePage) (i : Nat) (value : Bytes) : ValuePage :=
  { v with
    bytes := write32 (overwrite v.bytes (v.slotStart i) value) (slotOffset i + 4) (BitVec.ofNat 32 value.length) }

theorem Slotted.replace (h : Slotted v slots) (hi : slots[i]? = some (some b)) (hle : value.length ≤ b.length) :
    Slotted (v.overwritten i value) (slots.set i (some value)) := by
  obtain ⟨hb, _, hlo, hhi, _⟩ := h.holds hi
  obtain ⟨hlt, _⟩ := List.getElem?_eq_some_iff.mp hi
  have hentry := h.entry_le hlt
  have hl := h.length_bytes
  have hl₁ : (overwrite v.bytes (v.slotStart i) value).length = pageSize := by
    rw [length_overwrite (by omega), hl]
  have hdir : ∀ j, j < slots.length →
      read32 (overwrite v.bytes (v.slotStart i) value) (slotOffset j) = read32 v.bytes (slotOffset j) ∧
      read32 (overwrite v.bytes (v.slotStart i) value) (slotOffset j + 4) = read32 v.bytes (slotOffset j + 4) := by
    intro j hj
    have := h.entry_le hj
    exact ⟨read32_overwrite (by omega) (by omega), read32_overwrite (by omega) (by omega)⟩
  have hkeep := h.write_length hlt (BitVec.ofNat 32 value.length) hl₁ hdir
  refine h.change ?_ rfl rfl hlt ?_ hkeep (fun c hc => ⟨b, hi, ?_⟩) ?_
  · show (write32 (overwrite v.bytes (v.slotStart i) value) (slotOffset i + 4) _).length = pageSize
    rw [length_write32 (by omega), hl₁]
  · have hstart : (v.overwritten i value).slotStart i = v.slotStart i := (hkeep i hlt).1
    refine ⟨hle.trans hb, read32_write32_self (by omega), ?_, ?_, ?_⟩ <;> rw [hstart]
    · exact hlo
    · omega
    · show slice (write32 (overwrite v.bytes (v.slotStart i) value) (slotOffset i + 4) _) _ _ = _
      rw [slice_write32 (by omega) (by omega), slice_overwrite_self (by omega)]
  · obtain rfl := Option.some.inj hc
    exact hle
  · intro j c hji hj
    have hap := h.apart hji hj hi
    have hloj := (h.holds hj).2.2.1
    show slice (write32 (overwrite v.bytes (v.slotStart i) value) (slotOffset i + 4) _) _ _ = _
    rw [slice_write32 (by omega) (by omega), slice_overwrite (by omega) (by omega)]

theorem Slotted.update_fits (h : Slotted v slots) (hi : slots[idx.toNat]? = some (some b)) (hle : value.length ≤ b.length) :
    v.update idx value = some (some (v.overwritten idx.toNat value)) := by
  obtain ⟨hb, hlen, _⟩ := h.holds hi
  obtain ⟨hlt, _⟩ := List.getElem?_eq_some_iff.mp hi
  unfold ValuePage.update
  rw [if_pos (h.count ▸ hlt), if_pos (h.inPage hlt)]
  refine (if_pos ⟨?_, ?_⟩).trans (if_pos (h.value_in hi hle))
  · rw [hlen]
    exact ofNat_ne_tombstone hb
  · rw [hlen, toNat_length hb]
    exact hle

theorem Slotted.update_grows (h : Slotted v slots) (hno : ∀ b, (slots[idx.toNat]?).join = some b → b.length < value.length) :
    v.update idx value = some none := by
  unfold ValuePage.update
  by_cases hi : idx.toNat < slots.length
  · rw [if_pos (h.count ▸ hi), if_pos (h.inPage hi)]
    refine if_neg ?_
    rintro ⟨hne, hle⟩
    cases hs : slots[idx.toNat]? with
    | none => exact absurd (List.getElem?_eq_none_iff.mp hs) (by omega)
    | some x =>
        cases x with
        | none => exact hne (h.holds hs)
        | some b =>
            obtain ⟨hb, hlen, _⟩ := h.holds hs
            have hlt := hno b (by rw [hs, Option.join_some])
            rw [hlen, toNat_length hb] at hle
            omega
  · rw [if_neg (by rw [h.count]; exact hi)]

end ValuePage

end DBPlayground.Storage
