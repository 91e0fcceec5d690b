import DBPlayground.Format.RoundTrip

namespace DBPlayground.Format

open ByteReader Table

namespace PlainCodec

variable {type : FieldType} {w n k : Nat} {p : Bytes}

def podValues (type : FieldType) (w : Nat) : Nat → Bytes → List Value
  | 0, _ => []
  | n + 1, p => podValue type (p.take w) :: podValues type w n (p.drop w)

@[simp] theorem length_podValues (type : FieldType) (w n : Nat) (p : Bytes) : (podValues type w n p).length = n := by
  induction n generalizing p with
  | zero => rfl
  | succ n ih => rw [podValues, List.length_cons, ih]

theorem hasType_podValue (hw : fixedWidth type ≠ 0) (p : Bytes) : (podValue type p).hasType type = true := by
  cases type <;> first | rfl | exact absurd rfl hw

theorem hasType_podValues (hw : fixedWidth type ≠ 0) : ∀ v ∈ podValues type w n p, v.hasType type = true := by
  induction n generalizing p with
  | zero => exact nofun
  | succ n ih => exact List.forall_mem_cons.mpr ⟨hasType_podValue hw _, ih⟩

theorem drop_podValues : (podValues type w n p).drop k = podValues type w (n - k) (p.drop (k * w)) := by
  induction k generalizing n p with
  | zero => rw [Nat.zero_mul]; rfl
  | succ k ih =>
      cases n with
      | zero => rw [Nat.zero_sub]; rfl
      | succ n =>
          rw [podValues, List.drop_succ_cons, ih, Nat.add_sub_add_right, List.drop_drop, Nat.succ_mul, Nat.add_comm w]

theorem take_podValues (hk : k ≤ n) : (podValues type w n p).take k = podValues type w k p := by
  induction k generalizing n p with
  | zero => rfl
  | succ k ih =>
      obtain ⟨n, rfl⟩ := Nat.exists_eq_add_one_of_ne_zero (show n ≠ 0 by omega)
      rw [podValues, podValues, List.take_succ_cons, ih (by omega)]

theorem podValues_take (hn : n * w ≤ k) : podValues type w n (p.take k) = podValues type w n p := by
  induction n generalizing p k with
  | zero => rfl
  | succ n ih =>
      rw [Nat.succ_mul] at hn
      rw [podValues, podValues, List.take_take, Nat.min_eq_left (by omega), List.drop_take, ih (by omega)]

theorem copyFixed_eq (out : Column) (hn : n * w ≤ p.length) :
    copyFixed type w n p out = (.ok (), out.appendAll (podValues type w n p)) := by
  induction n generalizing p out with
  | zero => rfl
  | succ n ih =>
      rw [Nat.succ_mul] at hn
      rw [copyFixed, if_pos (by omega), ih _ (by rw [List.length_drop]; omega)]
      rfl

theorem isValid_of_fixedWidth (hw : fixedWidth type ≠ 0) : type.isValid = true := by
  cases type <;> first | rfl | exact absurd rfl hw

theorem decode_podValues {out : Column} (ht : out.type = type) (hw : fixedWidth type ≠ 0)
    (hn : n * fixedWidth type ≤ p.length) :
    decode p n out = (.ok (), out.appendAll (podValues type (fixedWidth type) n p)) := by
  subst ht
  have hmod := Nat.mod_le (n * fixedWidth out.type) (2 ^ 64)
  rw [decode_fixed hw, decodeFixed, if_neg (by omega), copyFixed_eq out hn]

end PlainCodec

/-- The values of a fixed-width page, as a column that keeps them unchanged. -/
def pageData (type : FieldType) (hw : PlainCodec.fixedWidth type ≠ 0) (n : Nat) (p : Bytes) : ColumnData :=
  ⟨type, PlainCodec.podValues type (PlainCodec.fixedWidth type) n p, PlainCodec.isValid_of_fixedWidth hw,
    PlainCodec.hasType_podValues hw⟩

theorem appendRange_pageData {type : FieldType} {hw : PlainCodec.fixedWidth type ≠ 0} {n first count : Nat}
    {p : Bytes} {out : Column} (ht : out.type = type) (hle : first + count ≤ n) :
    appendRange out (pageData type hw n p).column first count =
      .ok (out.appendAll (((pageData type hw n p).vals.drop first).take count)) := by
  have hread := (pageData type hw n p).readRangeAs_column
    (.invalidArgument "NativeColumnar: invalid column type") (show first + count ≤ _ by simpa [pageData] using hle)
  rw [wrapped_fixed hw] at hread
  rw [appendRange, ht]
  exact Except.bind_ok.mpr ⟨_, hread, rfl⟩

structure RangeCall where
  first : BitVec 64
  count : BitVec 64
  out : Column

def readEach (Z : Zlib) (file : Bytes) : PageAccessor → List RangeCall → List (Except Failure Column)
  | _, [] => []
  | acc, c :: calls =>
    let r := readRows Z file acc c.first c.count c.out
    r.1 :: readEach Z file r.2 calls

structure PlainPage (file : Bytes) (page : ColumnMeta) (type : FieldType) : Prop where
  encoding : page.encoding = kWriteEncoding
  compression : page.compression = CompressionId.none.code
  fixed : PlainCodec.fixedWidth type ≠ 0
  inside : page.offset.toNat + page.storedSize.toNat ≤ file.length
  stored : page.storedSize.toNat = page.valueCount.toNat * PlainCodec.fixedWidth type

namespace PlainPage

variable {Z : Zlib} {file : Bytes} {page : ColumnMeta} {type : FieldType} (h : PlainPage file page type)

include h

def data : ColumnData := pageData type h.fixed page.valueCount.toNat (file.drop page.offset.toNat)

theorem length_data : h.data.vals.length = page.valueCount.toNat := PlainCodec.length_podValues _ _ _ _

theorem decodePage_data : decodePage Z file page type = .ok h.data.column := by
  have hin := h.inside
  have hread : readAt file page.offset page.storedSize =
      some ((file.drop page.offset.toNat).take page.storedSize.toNat) := by
    rw [readAt, if_neg (by omega)]
  have hlen : page.valueCount.toNat * PlainCodec.fixedWidth type ≤
      ((file.drop page.offset.toNat).take page.storedSize.toNat).length := by
    rw [List.length_take, List.length_drop, ← h.stored]
    omega
  have hdecode := PlainCodec.decode_podValues (show (Column.new type).type = type from rfl) h.fixed hlen
  rw [PlainCodec.podValues_take (Nat.le_of_eq h.stored.symm)] at hdecode
  have hbytes : (CodecRegistry.getCompression page.compression >>= fun c => c.decompress Z
      ((file.drop page.offset.toNat).take page.storedSize.toNat) page.rawSize.toNat) =
        .ok ((file.drop page.offset.toNat).take page.storedSize.toNat) := by
    rw [h.compression]
    rfl
  simp only [decodePage, hread, hbytes, h.encoding, hdecode]
  rfl

theorem readAt_data (hsize : file.length < 2 ^ 64) {first count : BitVec 64}
    (hle : first.toNat + count.toNat ≤ page.valueCount.toNat) :
    readAt file (page.offset + first * BitVec.ofNat 64 (PlainCodec.fixedWidth type))
        (count * BitVec.ofNat 64 (PlainCodec.fixedWidth type)) =
      some (((file.drop page.offset.toNat).drop (first.toNat * PlainCodec.fixedWidth type)).take
        (count.toNat * PlainCodec.fixedWidth type)) := by
  have hin := h.inside
  have hmul := Nat.mul_le_mul_right (PlainCodec.fixedWidth type) hle
  rw [Nat.add_mul, ← h.stored] at hmul
  have hfirst := @toNat_mul_fixedWidth first type (by omega)
  have hcount := @toNat_mul_fixedWidth count type (by omega)
  have hoffset : (page.offset + first * BitVec.ofNat 64 (PlainCodec.fixedWidth type)).toNat =
      page.offset.toNat + first.toNat * PlainCodec.fixedWidth type := by
    rw [BitVec.toNat_add, hfirst, Nat.mod_eq_of_lt (by omega)]
  rw [readAt, hoffset, hcount, if_neg (by omega), List.drop_drop]

theorem readRows_data (hsize : file.length < 2 ^ 64) {first count : BitVec 64} {out : Column} (ht : out.type = type)
    (hle : first.toNat + count.toNat ≤ page.valueCount.toNat) :
    (readRows Z file (.fixedWidthDirect page (PlainCodec.fixedWidth type)) first count out =
        (.ok (out.appendAll ((h.data.vals.drop first.toNat).take count.toNat)),
          .fixedWidthDirect page (PlainCodec.fixedWidth type))) ∧
      ∀ memo, memo = none ∨ memo = some h.data.column →
        readRows Z file (.wholePage page type memo) first count out =
          (.ok (out.appendAll ((h.data.vals.drop first.toNat).take count.toNat)),
            .wholePage page type (some h.data.column)) := by
  constructor
  · have hin := h.inside
    have hmul := Nat.mul_le_mul_right (PlainCodec.fixedWidth type) hle
    rw [Nat.add_mul, ← h.stored] at hmul
    have hlen : count.toNat * PlainCodec.fixedWidth type ≤ (((file.drop page.offset.toNat).drop
        (first.toNat * PlainCodec.fixedWidth type)).take (count.toNat * PlainCodec.fixedWidth type)).length := by
      rw [List.length_take, List.length_drop, List.length_drop]
      omega
    have hdecode := PlainCodec.decode_podValues ht h.fixed hlen
    rw [PlainCodec.podValues_take (Nat.le_refl _)] at hdecode
    have hvals : (h.data.vals.drop first.toNat).take count.toNat = PlainCodec.podValues type
        (PlainCodec.fixedWidth type) count.toNat
        ((file.drop page.offset.toNat).drop (first.toNat * PlainCodec.fixedWidth type)) := by
      rw [data, pageData, PlainCodec.drop_podValues, PlainCodec.take_podValues (by omega)]
    simp only [readRows, h.readAt_data hsize hle, h.encoding, hdecode, hvals]
    rfl
  · intro memo hmemo
    have hrange : appendRange out h.data.column first.toNat count.toNat =
        .ok (out.appendAll ((h.data.vals.drop first.toNat).take count.toNat)) := appendRange_pageData ht hle
    rcases hmemo with rfl | rfl
    · simp only [readRows, h.decodePage_data, hrange]
    · simp only [readRows, hrange]

theorem readEach_data (hsize : file.length < 2 ^ 64) {calls : List RangeCall}
    (hcalls : ∀ c ∈ calls, c.out.type = type ∧ c.first.toNat + c.count.toNat ≤ page.valueCount.toNat) :
    readEach Z file (.fixedWidthDirect page (PlainCodec.fixedWidth type)) calls =
        calls.map (fun c => .ok (c.out.appendAll ((h.data.vals.drop c.first.toNat).take c.count.toNat))) ∧
      ∀ memo, memo = none ∨ memo = some h.data.column → readEach Z file (.wholePage page type memo) calls =
        calls.map (fun c => .ok (c.out.appendAll ((h.data.vals.drop c.first.toNat).take c.count.toNat))) := by
  induction calls with
  | nil => exact ⟨rfl, fun _ _ => rfl⟩
  | cons c calls ih =>
      obtain ⟨ht, hle⟩ := hcalls c List.mem_cons_self
      obtain ⟨hdirect, hwhole⟩ := h.readRows_data hsize ht hle
      obtain ⟨ihd, ihw⟩ := ih fun d hd => hcalls d (List.mem_cons_of_mem c hd)
      constructor
      · rw [readEach, hdirect, ihd]
        rfl
      · intro memo hmemo
        rw [readEach, hwhole memo hmemo, ihw _ (.inr rfl)]
        rfl

end PlainPage

/-- Reading a range of an uncompressed fixed-width page in place gives what
decoding the whole page and slicing it gives, call after call. -/
theorem direct_eq_wholePage (Z : Zlib) {file : Bytes} {page : ColumnMeta} {type : FieldType}
    (hpage : PlainPage file page type) (hsize : file.length < 2 ^ 64) :
    ∃ vals : List Value, vals.length = page.valueCount.toNat ∧ ∀ calls : List RangeCall,
      (∀ c ∈ calls, c.out.type = type ∧ c.first.toNat + c.count.toNat ≤ page.valueCount.toNat) →
        readEach Z file (.fixedWidthDirect page (PlainCodec.fixedWidth type)) calls =
            calls.map (fun c => .ok (c.out.appendAll ((vals.drop c.first.toNat).take c.count.toNat))) ∧
          readEach Z file (.wholePage page type none) calls =
            calls.map (fun c => .ok (c.out.appendAll ((vals.drop c.first.toNat).take c.count.toNat))) := by
  refine ⟨hpage.data.vals, hpage.length_data, ?_⟩
  intro calls hcalls
  obtain ⟨hdirect, hwhole⟩ := hpage.readEach_data hsize hcalls
  exact ⟨hdirect, hwhole none (.inl rfl)⟩

/-- Three flags at offset 1, one of them stored as 2. -/
theorem direct_eq_wholePage_flags :
    readEach storedZlib [9, 1, 2, 0, 9] (.fixedWidthDirect ⟨1, 1, 1, 3, 3, 3⟩ 1)
        [⟨1, 2, Column.new .bool⟩, ⟨3, 0, Column.new .bool⟩] =
      readEach storedZlib [9, 1, 2, 0, 9] (.wholePage ⟨1, 1, 1, 3, 3, 3⟩ .bool none)
        [⟨1, 2, Column.new .bool⟩, ⟨3, 0, Column.new .bool⟩] := by
  have hpage : PlainPage [9, 1, 2, 0, 9] ⟨1, 1, 1, 3, 3, 3⟩ .bool :=
    ⟨rfl, rfl, by decide, by decide, by decide⟩
  obtain ⟨vals, _, h⟩ := direct_eq_wholePage storedZlib hpage (by decide)
  obtain ⟨hdirect, hwhole⟩ := h [⟨1, 2, Column.new .bool⟩, ⟨3, 0, Column.new .bool⟩] (by decide)
  exact hdirect.trans hwhole.symm

end DBPlayground.Format
