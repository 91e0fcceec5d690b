import DBPlayground.Format.FooterBounds

namespace DBPlayground.Format

open ByteReader Table

section Decoding

variable {type : FieldType} {n : Nat} {p : Bytes}

def HoldsStrings : Nat → Bytes → Prop
  | 0, _ => True
  | n + 1, p => 4 ≤ p.length ∧ leNat (p.take 4) ≤ (p.drop 4).length ∧
      HoldsStrings n ((p.drop 4).drop (leNat (p.take 4)))

/-- The payload is noticed to be too short for `n` values. The product of the
check is taken modulo 2^64. -/
def TooShort (type : FieldType) (n : Nat) (p : Bytes) : Prop :=
  match type with
  | .string | .blob => ¬ HoldsStrings n p
  | .invalid | .unknown _ => True
  | type => p.length < n * PlainCodec.fixedWidth type % 2 ^ 64

theorem copyFixed_column (hw : PlainCodec.fixedWidth type ≠ 0) (w n : Nat) (p : Bytes) (out : Column) :
    ∃ vals : List Value, (∀ v ∈ vals, v.hasType type = true) ∧
      (PlainCodec.copyFixed type w n p out).2 = out.appendAll vals := by
  induction n generalizing p out with
  | zero => exact ⟨[], nofun, rfl⟩
  | succ n ih =>
      rw [PlainCodec.copyFixed]
      split
      · obtain ⟨vals, hvals, hcol⟩ := ih (p.drop w) (out.appendValue (PlainCodec.podValue type (p.take w)))
        exact ⟨_ :: vals, List.forall_mem_cons.mpr ⟨PlainCodec.hasType_podValue hw _, hvals⟩, hcol⟩
      · exact ⟨[], nofun, rfl⟩

theorem copyFixed_short (hw : n * PlainCodec.fixedWidth type > p.length) (out : Column) :
    (PlainCodec.copyFixed type (PlainCodec.fixedWidth type) n p out).1 = .error .outOfBounds := by
  induction n generalizing p out with
  | zero =>
      rw [Nat.zero_mul] at hw
      omega
  | succ n ih =>
      rw [PlainCodec.copyFixed]
      split
      · refine ih ?_ _
        rw [Nat.succ_mul] at hw
        rw [List.length_drop]
        omega
      · rfl

theorem decodeVar_cases (n : Nat) (p : Bytes) (out : Column) :
    (∃ vals : List Value, (∀ v ∈ vals, ∃ s, v = .string s) ∧ (PlainCodec.decodeVar n p out).2 = out.appendAll vals ∧
      ((PlainCodec.decodeVar n p out).1 = .ok () → vals.length = n)) ∧
      (HoldsStrings n p → (PlainCodec.decodeVar n p out).1 = .ok ()) ∧
      (¬ HoldsStrings n p → ∃ e, (PlainCodec.decodeVar n p out).1 = .error (.threw e)) := by
  induction n generalizing p out with
  | zero => exact ⟨⟨[], List.forall_mem_nil _, rfl, fun _ => rfl⟩, fun _ => rfl, fun h => absurd trivial h⟩
  | succ n ih =>
      rw [PlainCodec.decodeVar, HoldsStrings]
      dsimp only
      by_cases h4 : p.length < 4
      · rw [if_pos h4]
        exact ⟨⟨[], List.forall_mem_nil _, rfl, fun h => by cases h⟩, fun h => absurd h.1 (by omega), fun _ => ⟨_, rfl⟩⟩
      · rw [if_neg h4]
        by_cases hlen : (p.drop 4).length < leNat (p.take 4)
        · rw [if_pos hlen]
          exact ⟨⟨[], List.forall_mem_nil _, rfl, fun h => by cases h⟩, fun h => absurd h.2.1 (by omega), fun _ => ⟨_, rfl⟩⟩
        · rw [if_neg hlen]
          obtain ⟨⟨vals, hvals, hcol, hn⟩, hok, herr⟩ := ih ((p.drop 4).drop (leNat (p.take 4)))
            (out.appendBytes ((p.drop 4).take (leNat (p.take 4))))
          refine ⟨⟨.string _ :: vals, List.forall_mem_cons.mpr ⟨⟨_, rfl⟩, hvals⟩, hcol, ?_⟩, ?_, ?_⟩
          · intro h
            rw [List.length_cons, hn h]
          · exact fun h => hok h.2.2
          · exact fun h => herr fun hs => h ⟨by omega, by omega, hs⟩

/-- What decoding a payload into an empty column comes to: a refusal, all the
values, or a copy past the end. -/
def DecodeOutcome (type : FieldType) (n : Nat) (p : Bytes) (r : Except Failure Unit × Column) : Prop :=
  ∃ vals : List Value, (∀ v ∈ vals, v.hasType type = true) ∧ r.2 = Column.ofValues type vals ∧
    ((TooShort type n p ∧ ∃ e, r.1 = .error (.threw e)) ∨
      (¬ TooShort type n p ∧ n * PlainCodec.fixedWidth type ≤ p.length ∧ type.isValid = true ∧ vals.length = n ∧
        r.1 = .ok ()) ∨
      (¬ TooShort type n p ∧ p.length < n * PlainCodec.fixedWidth type ∧ r.1 = .error .outOfBounds))

theorem decodeVar_outcome (hvalid : type.isValid = true) (hstring : ∀ s, (Value.string s).hasType type = true)
    (hw : PlainCodec.fixedWidth type = 0) (hshort : TooShort type n p ↔ ¬ HoldsStrings n p) :
    DecodeOutcome type n p (PlainCodec.decodeVar n p (Column.new type)) := by
  obtain ⟨⟨vals, hvals, hcol, hn⟩, hok, herr⟩ := decodeVar_cases n p (Column.new type)
  refine ⟨vals, ?_, hcol, ?_⟩
  · intro v hv
    obtain ⟨s, rfl⟩ := hvals v hv
    exact hstring s
  · rw [hshort, hw, Nat.mul_zero]
    by_cases hs : HoldsStrings n p
    · exact .inr (.inl ⟨not_not_intro hs, Nat.zero_le _, hvalid, hn (hok hs), hok hs⟩)
    · exact .inl ⟨hs, herr hs⟩

theorem decodeFixed_outcome (hw : PlainCodec.fixedWidth type ≠ 0) :
    DecodeOutcome type n p
      (PlainCodec.decodeFixed type (PlainCodec.fixedWidth type) p n (Column.new type)) := by
  have hshort : TooShort type n p ↔ p.length < n * PlainCodec.fixedWidth type % 2 ^ 64 := by
    cases type <;> first | exact Iff.rfl | exact absurd rfl hw
  rw [PlainCodec.decodeFixed, DecodeOutcome, hshort]
  by_cases hlt : p.length < n * PlainCodec.fixedWidth type % 2 ^ 64
  · rw [if_pos hlt]
    exact ⟨[], List.forall_mem_nil _, rfl, .inl ⟨hlt, _, rfl⟩⟩
  · rw [if_neg hlt]
    by_cases hall : n * PlainCodec.fixedWidth type ≤ p.length
    · rw [PlainCodec.copyFixed_eq (Column.new type) hall]
      exact ⟨PlainCodec.podValues type (PlainCodec.fixedWidth type) n p, PlainCodec.hasType_podValues hw, rfl,
        .inr (.inl ⟨hlt, hall, PlainCodec.isValid_of_fixedWidth hw, PlainCodec.length_podValues _ _ _ _, rfl⟩)⟩
    · obtain ⟨vals, hvals, hcol⟩ := copyFixed_column hw (PlainCodec.fixedWidth type) n p (Column.new type)
      have hmore : p.length < n * PlainCodec.fixedWidth type := Nat.lt_of_not_le hall
      exact ⟨vals, hvals, hcol, .inr (.inr ⟨hlt, hmore, copyFixed_short hmore _⟩)⟩

theorem decode_outcome (type : FieldType) (n : Nat) (p : Bytes) :
    DecodeOutcome type n p (PlainCodec.decode p n (Column.new type)) := by
  cases type with
  | string | blob => exact decodeVar_outcome rfl (fun _ => rfl) rfl Iff.rfl
  | invalid | unknown c => exact ⟨[], nofun, rfl, .inl ⟨trivial, _, rfl⟩⟩
  | _ => exact decodeFixed_outcome (by decide)

theorem readAs_beyond {vals : List Value} {e : Exn} {i : Nat} (hvalid : type.isValid = true)
    (ht : ∀ v ∈ vals, v.hasType type = true) (hi : vals.length ≤ i) :
    (Column.ofValues type vals).readAs e type i = .error .outOfBounds := by
  by_cases hw : PlainCodec.fixedWidth type = 0
  · have hs : ∀ v ∈ vals, ∃ s, v = .string s := fun v hv => PlainCodec.hasType_string (ht v hv) hw
    have hbytes : (Column.ofValues type vals).getBytesChecked i = .error .outOfBounds := by
      have hnone : (Column.ofValues type vals).offsets[i + 1]? = none := by
        rw [Column.offsets_ofValues hs, List.getElem?_eq_none]
        rw [List.length_map, List.length_range]
        omega
      rw [Column.getBytesChecked, hnone]
      cases (Column.ofValues type vals).offsets[i]? <;> rfl
    cases type with
    | string | blob =>
        rw [Column.readAs, hbytes]
        rfl
    | invalid | unknown c => cases hvalid
    | _ => exact absurd hw (by decide)
  · have hpod : ∀ v ∈ vals, v.pod.length = PlainCodec.fixedWidth type :=
      fun v hv => PlainCodec.length_pod_of_hasType (ht v hv) hw
    have hget : (Column.ofValues type vals).getChecked (PlainCodec.fixedWidth type) i = .error .outOfBounds := by
      rw [Column.getChecked, Column.length_fixed_ofValues hpod, if_neg]
      rw [Nat.mul_le_mul_right_iff (Nat.pos_of_ne_zero hw)]
      omega
    cases type with
    | invalid | unknown c | string | blob => exact absurd rfl hw
    | _ =>
        rw [Column.readAs]
        exact congrArg (· >>= _) hget

theorem readRangeAs_beyond {vals : List Value} {e : Exn} {first count : Nat} (hvalid : type.isValid = true)
    (ht : ∀ v ∈ vals, v.hasType type = true) (hn : count ≠ 0) (hlt : vals.length < first + count) :
    (Column.ofValues type vals).readRangeAs e type first count = .error .outOfBounds := by
  induction count generalizing first with
  | zero => exact absurd rfl hn
  | succ count ih =>
      rw [Column.readRangeAs]
      by_cases hfirst : first < vals.length
      · rw [Column.readAs_ofValues ht hfirst (by rwa [Column.length_wrapped])]
        have hrest := @ih (first + 1) (by omega) (by omega)
        show (Column.readRangeAs _ e type (first + 1) count >>= fun vs => _) = _
        rw [hrest]
        rfl
      · rw [readAs_beyond hvalid ht (by omega)]
        rfl

theorem appendRange_outcome {vals : List Value} {first count : Nat} (ht : ∀ v ∈ vals, v.hasType type = true)
    (hn : count ≠ 0) :
    (type.isValid = false ∧
        ∃ e, appendRange (Column.new type) (Column.ofValues type vals) first count = .error (.threw e)) ∨
      (type.isValid = true ∧ first + count ≤ vals.length ∧
        ∃ col, appendRange (Column.new type) (Column.ofValues type vals) first count = .ok col) ∨
      (type.isValid = true ∧ vals.length < first + count ∧
        appendRange (Column.new type) (Column.ofValues type vals) first count = .error .outOfBounds) := by
  rw [appendRange]
  show (_ ∧ ∃ e, (Column.readRangeAs _ _ type first count >>= fun vals => _) = _) ∨
    (_ ∧ _ ∧ ∃ col, (Column.readRangeAs _ _ type first count >>= fun vals => _) = _) ∨
    (_ ∧ _ ∧ (Column.readRangeAs _ _ type first count >>= fun vals => _) = _)
  cases hvalid : type.isValid with
  | false =>
      obtain ⟨count, rfl⟩ := Nat.exists_eq_add_one_of_ne_zero hn
      refine .inl ⟨rfl, .invalidArgument "NativeColumnar: invalid column type", ?_⟩
      cases type <;> first | rfl | cases hvalid
  | true =>
      by_cases hle : first + count ≤ vals.length
      · rw [Column.readRangeAs_ofValues hvalid ht hle]
        exact .inr (.inl ⟨rfl, hle, _, rfl⟩)
      · rw [readRangeAs_beyond hvalid ht hn (by omega)]
        exact .inr (.inr ⟨rfl, by omega, rfl⟩)

end Decoding

namespace PageAccessor

variable {Z : Zlib} {file : Bytes} {type : FieldType} {acc : PageAccessor} {first n : BitVec 64}

def TypedColumn (type : FieldType) (col : Column) : Prop :=
  ∃ vals : List Value, (∀ v ∈ vals, v.hasType type = true) ∧ col = Column.ofValues type vals

/-- What opening a file and reading from it makes of an accessor. -/
def Sound (type : FieldType) : PageAccessor → Prop
  | .wholePage page type' decoded => type' = type ∧ page.encoding = kWriteEncoding ∧
      ∀ col, decoded = some col → TypedColumn type col
  | .fixedWidthDirect page width => width = PlainCodec.fixedWidth type ∧ width ≠ 0 ∧ page.encoding = kWriteEncoding

def pageBytes (Z : Zlib) (file : Bytes) (page : ColumnMeta) (encoded : Bytes) : Prop :=
  ∃ stored c, readAt file page.offset page.storedSize = some stored ∧
    CodecRegistry.getCompression page.compression = .ok c ∧
    c.decompress Z stored page.rawSize.toNat = .ok encoded

/-- The range is turned down: it does not lie in the file, the page is cut
short in a way the decoder notices, or the type is not valid. -/
def Refuses (Z : Zlib) (file : Bytes) (first n : BitVec 64) : PageAccessor → Prop
  | .wholePage _ type (some _) => type.isValid = false
  | .wholePage page type none => ∀ encoded, pageBytes Z file page encoded → TooShort type page.valueCount.toNat encoded
  | .fixedWidthDirect page width =>
      file.length < (page.offset + first * BitVec.ofNat 64 width).toNat + (n * BitVec.ofNat 64 width).toNat

def Covers (Z : Zlib) (file : Bytes) (first n : BitVec 64) : PageAccessor → Prop
  | .wholePage _ _ (some col) => first.toNat + n.toNat ≤ col.size
  | .wholePage page type none => first.toNat + n.toNat ≤ page.valueCount.toNat ∧
      ∃ encoded, pageBytes Z file page encoded ∧
        page.valueCount.toNat * PlainCodec.fixedWidth type ≤ encoded.length
  | .fixedWidthDirect _ width => n.toNat * width < 2 ^ 64

theorem readAt_eq_none {offset len : BitVec 64} :
    readAt file offset len = none ↔ file.length < offset.toNat + len.toNat := by
  unfold readAt
  split
  · rename_i h
    exact iff_of_true rfl (by omega)
  · rename_i h
    exact iff_of_false (fun hc => nomatch hc) (by omega)

theorem getCompression_threw {id : Byte} {e : Failure} (h : CodecRegistry.getCompression id = .error e) :
    ∃ x, e = .threw x := by
  unfold CodecRegistry.getCompression at h
  split at h
  · cases h
  · split at h
    · cases h
    · cases h
      exact ⟨_, rfl⟩

theorem decompress_threw {c : Compression} {s : Bytes} {rawSize : Nat} {e : Failure}
    (h : c.decompress Z s rawSize = .error e) : ∃ x, e = .threw x := by
  cases c with
  | noCompression => cases h
  | zlibCompression =>
      rw [Compression.decompress] at h
      split at h
      · cases h
      · split at h
        · cases h
          exact ⟨_, rfl⟩
        · split at h
          · split at h
            · cases h
            · cases h
              exact ⟨_, rfl⟩
          · cases h
            exact ⟨_, rfl⟩

theorem decodePage_outcome (page : ColumnMeta) (henc : page.encoding = kWriteEncoding) :
    ((∀ encoded, ¬ pageBytes Z file page encoded) ∧ ∃ e, decodePage Z file page type = .error (.threw e, none)) ∨
      ∃ encoded, pageBytes Z file page encoded ∧ (∀ encoded', pageBytes Z file page encoded' → encoded' = encoded) ∧
        decodePage Z file page type =
          (match PlainCodec.decode encoded page.valueCount.toNat (Column.new type) with
          | (.error e, col) => .error (e, some col)
          | (.ok (), col) => .ok col) := by
  cases hread : readAt file page.offset page.storedSize with
  | none =>
      refine .inl ⟨?_, .runtimeError "NativeColumnar: truncated column page", ?_⟩
      · rintro encoded ⟨stored, c, hstored, _⟩
        rw [hread] at hstored
        cases hstored
      · simp only [decodePage, hread]
  | some stored =>
      cases hcomp : CodecRegistry.getCompression page.compression with
      | error e =>
          obtain ⟨x, rfl⟩ := getCompression_threw hcomp
          refine .inl ⟨?_, x, ?_⟩
          · rintro encoded ⟨_, c, _, hc, _⟩
            rw [hcomp] at hc
            cases hc
          · simp only [decodePage, hread, hcomp]
            rfl
      | ok c =>
          have hcodec : (CodecRegistry.getCompression page.compression >>= fun c =>
              c.decompress Z stored page.rawSize.toNat) = c.decompress Z stored page.rawSize.toNat := by
            rw [hcomp]
            rfl
          cases hraw : c.decompress Z stored page.rawSize.toNat with
          | error e =>
              obtain ⟨x, rfl⟩ := decompress_threw hraw
              refine .inl ⟨?_, x, ?_⟩
              · rintro encoded ⟨_, _, hstored, hc, hencoded⟩
                cases hread.symm.trans hstored
                cases hcomp.symm.trans hc
                cases hraw.symm.trans hencoded
              · simp only [decodePage, hread, hcodec, hraw]
          | ok encoded =>
              refine .inr ⟨encoded, ⟨stored, c, hread, hcomp, hraw⟩, ?_, ?_⟩
              · rintro encoded' ⟨_, _, hstored, hc, hencoded⟩
                cases hread.symm.trans hstored
                cases hcomp.symm.trans hc
                exact Except.ok.inj (hencoded.symm.trans hraw)
              · simp only [decodePage, hread, hcodec, hraw, henc]
                rfl

structure Outcome (Z : Zlib) (file : Bytes) (first n : BitVec 64) (type : FieldType) (acc : PageAccessor)
    (r : Except Failure Column × PageAccessor) : Prop where
  sound : r.2.Sound type
  ends : (acc.Refuses Z file first n ∧ ∃ e, r.1 = .error (.threw e)) ∨
    (¬ acc.Refuses Z file first n ∧ acc.Covers Z file first n ∧ ∃ col, r.1 = .ok col) ∨
    (¬ acc.Refuses Z file first n ∧ ¬ acc.Covers Z file first n ∧ r.1 = .error .outOfBounds)

theorem readRows_direct {page : ColumnMeta} (hs : (fixedWidthDirect page (PlainCodec.fixedWidth type)).Sound type) :
    Outcome Z file first n type (.fixedWidthDirect page (PlainCodec.fixedWidth type))
      (readRows Z file (.fixedWidthDirect page (PlainCodec.fixedWidth type)) first n (Column.new type)) := by
  obtain ⟨_, hw, henc⟩ := hs
  cases hread : readAt file (page.offset + first * BitVec.ofNat 64 (PlainCodec.fixedWidth type))
      (n * BitVec.ofNat 64 (PlainCodec.fixedWidth type)) with
  | none =>
      simp only [readRows, hread]
      exact ⟨⟨rfl, hw, henc⟩, .inl ⟨readAt_eq_none.mp hread, _, rfl⟩⟩
  | some bytes =>
      obtain ⟨hin, hbytes⟩ := readAt_some hread
      have hinside : ¬ (fixedWidthDirect page (PlainCodec.fixedWidth type)).Refuses Z file first n :=
        fun h => absurd hin (Nat.not_le.mpr h)
      have hlen : bytes.length = n.toNat * PlainCodec.fixedWidth type % 2 ^ 64 := by
        rw [hbytes, List.length_take_of_le (by rw [List.length_drop]; omega), BitVec.toNat_mul, BitVec.toNat_ofNat,
          Nat.mul_mod_mod]
      have hshort : TooShort type n.toNat bytes ↔ bytes.length < n.toNat * PlainCodec.fixedWidth type % 2 ^ 64 := by
        cases type <;> first | exact Iff.rfl | exact absurd rfl hw
      have hlong : ¬ TooShort type n.toNat bytes := by
        rw [hshort]
        omega
      simp only [readRows, hread, henc]
      obtain ⟨vals, hvals, hcol, hend⟩ := decode_outcome type n.toNat bytes
      rcases hd : PlainCodec.decode bytes n.toNat (Column.new type) with ⟨res, col⟩
      rw [hd] at hcol hend
      rcases hend with ⟨h, _⟩ | ⟨_, hle, _, _, rfl⟩ | ⟨_, hlt, rfl⟩
      · exact absurd h hlong
      · refine ⟨⟨rfl, hw, henc⟩, .inr (.inl ⟨hinside, ?_, col, rfl⟩)⟩
        show n.toNat * PlainCodec.fixedWidth type < 2 ^ 64
        omega
      · refine ⟨⟨rfl, hw, henc⟩, .inr (.inr ⟨hinside, ?_, rfl⟩)⟩
        show ¬ n.toNat * PlainCodec.fixedWidth type < 2 ^ 64
        omega

theorem readRows_memo {page : ColumnMeta} {col : Column} (hs : (wholePage page type (some col)).Sound type)
    (hn : n ≠ 0) :
    Outcome Z file first n type (.wholePage page type (some col))
      (readRows Z file (.wholePage page type (some col)) first n (Column.new type)) := by
  have hn' : n.toNat ≠ 0 := fun h => hn (BitVec.eq_of_toNat_eq h)
  refine ⟨hs, ?_⟩
  obtain ⟨_, _, hmemo⟩ := hs
  obtain ⟨vals, hvals, rfl⟩ := hmemo col rfl
  show (_ ∧ ∃ e, appendRange _ _ _ _ = _) ∨ (_ ∧ _ ∧ ∃ out, appendRange _ _ _ _ = _) ∨
    (_ ∧ _ ∧ appendRange _ _ _ _ = _)
  simp only [Refuses, Covers, Column.size_ofValues]
  rcases @appendRange_outcome type vals first.toNat n.toNat hvals hn' with ⟨hv, h⟩ | ⟨hv, hle, h⟩ | ⟨hv, hlt, h⟩
  · exact .inl ⟨hv, h⟩
  · exact .inr (.inl ⟨by rw [hv]; decide, hle, h⟩)
  · exact .inr (.inr ⟨by rw [hv]; decide, by omega, h⟩)

theorem readRows_fresh {page : ColumnMeta} (hs : (wholePage page type none).Sound type) (hn : n ≠ 0) :
    Outcome Z file first n type (.wholePage page type none)
      (readRows Z file (.wholePage page type none) first n (Column.new type)) := by
  obtain ⟨_, henc, _⟩ := hs
  have hsound : ∀ memo, (∀ col, memo = some col → TypedColumn type col) → (wholePage page type memo).Sound type :=
    fun memo h => ⟨rfl, henc, h⟩
  rcases @decodePage_outcome Z file type page henc with ⟨hnone, e, hpage⟩ | ⟨encoded, hbytes, hunique, hpage⟩
  · simp only [readRows, hpage]
    exact ⟨hsound none (fun _ h => by cases h), .inl ⟨fun encoded h => absurd h (hnone encoded), e, rfl⟩⟩
  · obtain ⟨vals, hvals, hcol, hend⟩ := decode_outcome type page.valueCount.toNat encoded
    have hmemo : ∀ col, some (Column.ofValues type vals) = some col → TypedColumn type col := by
      rintro col h
      cases h
      exact ⟨vals, hvals, rfl⟩
    have hrefuses : (wholePage page type none).Refuses Z file first n ↔
        TooShort type page.valueCount.toNat encoded := by
      refine ⟨fun h => h encoded hbytes, ?_⟩
      intro h encoded' hbytes'
      rwa [hunique encoded' hbytes']
    have hcovers : (wholePage page type none).Covers Z file first n ↔
        first.toNat + n.toNat ≤ page.valueCount.toNat ∧
          page.valueCount.toNat * PlainCodec.fixedWidth type ≤ encoded.length := by
      refine and_congr_right fun _ => ⟨?_, fun h => ⟨encoded, hbytes, h⟩⟩
      rintro ⟨encoded', hbytes', h⟩
      rwa [hunique encoded' hbytes'] at h
    rcases hd : PlainCodec.decode encoded page.valueCount.toNat (Column.new type) with ⟨res, col⟩
    rw [hd] at hcol hend hpage
    obtain rfl : col = Column.ofValues type vals := hcol
    rcases hend with ⟨hshort, e, rfl⟩ | ⟨hlong, hle, hv, hlen, rfl⟩ | ⟨hlong, hlt, rfl⟩
    · simp only [readRows, hpage]
      exact ⟨hsound _ hmemo, .inl ⟨hrefuses.mpr hshort, e, rfl⟩⟩
    · have hn' : n.toNat ≠ 0 := fun h => hn (BitVec.eq_of_toNat_eq h)
      simp only [readRows, hpage]
      refine ⟨hsound _ hmemo, .inr ?_⟩
      rcases @appendRange_outcome type vals first.toNat n.toNat hvals hn' with ⟨hinv, _⟩ | ⟨_, hin, h⟩ | ⟨_, hout, h⟩
      · rw [hv] at hinv
        cases hinv
      · exact .inl ⟨fun h => hlong (hrefuses.mp h), hcovers.mpr ⟨by omega, hle⟩, h⟩
      · refine .inr ⟨fun h => hlong (hrefuses.mp h), fun h => ?_, h⟩
        have hin := (hcovers.mp h).1
        omega
    · simp only [readRows, hpage]
      refine ⟨hsound _ hmemo, .inr (.inr ⟨fun h => hlong (hrefuses.mp h), fun h => ?_, rfl⟩)⟩
      exact absurd (hcovers.mp h).2 (by omega)

theorem readRows_outcome (hs : acc.Sound type) (hn : n ≠ 0) :
    Outcome Z file first n type acc (readRows Z file acc first n (Column.new type)) := by
  cases acc with
  | wholePage page type' decoded =>
      obtain rfl := hs.1
      cases decoded with
      | none => exact readRows_fresh hs hn
      | some col => exact readRows_memo hs hn
  | fixedWidthDirect page width =>
      obtain rfl := hs.1
      exact readRows_direct hs

end PageAccessor

variable {Z : Zlib} {schema : Schema} {file : Bytes} {projection : List Int} {r : FileReader}

/-- Up to the first column that turns the range down, every column covers it. -/
def ColumnsInside (Z : Zlib) (file : Bytes) (first n : BitVec 64) : List (FieldType × PageAccessor) → Prop
  | [] => True
  | (_, acc) :: rest => acc.Refuses Z file first n ∨ (acc.Covers Z file first n ∧ ColumnsInside Z file first n rest)

def RangeInside (Z : Zlib) (r : FileReader) (first num : BitVec 64) : Prop :=
  r.rowCount ≤ first ∨ num = 0 ∨
    ColumnsInside Z r.file first (if num < r.rowCount - first then num else r.rowCount - first) r.columns

theorem readColumns_inside {columns : List (FieldType × PageAccessor)} (hs : ∀ p ∈ columns, p.2.Sound p.1)
    {first n : BitVec 64} (hn : n ≠ 0) :
    ((readColumns Z file first n columns).1 ≠ .error .outOfBounds ↔ ColumnsInside Z file first n columns) ∧
      ∀ p ∈ (readColumns Z file first n columns).2, p.2.Sound p.1 := by
  induction columns with
  | nil => exact ⟨iff_of_true (fun h => by cases h) trivial, List.forall_mem_nil _⟩
  | cons p rest ih =>
      obtain ⟨type, acc⟩ := p
      obtain ⟨hacc, hrest⟩ := List.forall_mem_cons.mp hs
      obtain ⟨ihiff, ihs⟩ := ih hrest
      rw [readColumns, ColumnsInside]
      rcases hrun : readRows Z file acc first n (Column.new type) with ⟨res, acc'⟩
      have hout := @PageAccessor.readRows_outcome Z file type acc first n hacc hn
      rw [hrun] at hout
      obtain ⟨hsound, ⟨href, e, rfl⟩ | ⟨hnref, hcov, col, rfl⟩ | ⟨hnref, hncov, rfl⟩⟩ := hout
      · refine ⟨iff_of_true (fun h => by cases h) (.inl href), ?_⟩
        exact List.forall_mem_cons.mpr ⟨hsound, hrest⟩
      · have hcond : (acc.Refuses Z file first n ∨ acc.Covers Z file first n ∧ ColumnsInside Z file first n rest) ↔
            ColumnsInside Z file first n rest := by tauto
        rw [hcond, ← ihiff]
        rcases hcols : readColumns Z file first n rest with ⟨res, rest'⟩
        rw [hcols] at ihs
        cases res with
        | error e =>
            refine ⟨?_, List.forall_mem_cons.mpr ⟨hsound, ihs⟩⟩
            dsimp only
            simp only [ne_eq, Except.error.injEq]
        | ok cols =>
            exact ⟨iff_of_true (fun h => by cases h) (fun h => by cases h), List.forall_mem_cons.mpr ⟨hsound, ihs⟩⟩
      · exact ⟨iff_of_false (fun h => h rfl) (by tauto), List.forall_mem_cons.mpr ⟨hsound, hrest⟩⟩

theorem readRange_inside (hs : ∀ p ∈ r.columns, p.2.Sound p.1) (first num : BitVec 64) :
    ((readRange Z r first num).1 ≠ .error .outOfBounds ↔ RangeInside Z r first num) ∧
      ∀ p ∈ (readRange Z r first num).2.columns, p.2.Sound p.1 := by
  by_cases hempty : r.rowCount.toNat ≤ first.toNat ∨ num = 0
  · rw [readRange_empty hempty]
    refine ⟨iff_of_true (fun h => by cases h) ?_, hs⟩
    exact hempty.imp id .inl
  · obtain ⟨hfirst, hnum⟩ := not_or.mp hempty
    have hnot : ¬ r.rowCount ≤ first := hfirst
    rw [readRange, if_neg hnot]
    dsimp only
    have hm : (if num < r.rowCount - first then num else r.rowCount - first) ≠ 0 := by
      intro h
      have hzero := congrArg BitVec.toNat h
      have hnum' : num.toNat ≠ 0 := fun h0 => hnum (BitVec.eq_of_toNat_eq h0)
      rw [toNat_min, BitVec.toNat_sub_of_le (show first ≤ r.rowCount from Nat.le_of_not_le hfirst)] at hzero
      have hz : (0 : BitVec 64).toNat = 0 := rfl
      omega
    rw [if_neg hm, RangeInside]
    obtain ⟨hiff, hsound⟩ := @readColumns_inside Z r.file r.columns hs first _ hm
    have hcond : (r.rowCount ≤ first ∨ num = 0 ∨ ColumnsInside Z r.file first
        (if num < r.rowCount - first then num else r.rowCount - first) r.columns) ↔ ColumnsInside Z r.file first
        (if num < r.rowCount - first then num else r.rowCount - first) r.columns := by tauto
    rw [hcond, ← hiff]
    rcases hcols : readColumns Z r.file first (if num < r.rowCount - first then num else r.rowCount - first)
      r.columns with ⟨res, columns⟩
    rw [hcols] at hsound
    cases res with
    | error e =>
        refine ⟨?_, hsound⟩
        dsimp only
        simp only [ne_eq, Except.error.injEq]
    | ok cols => exact ⟨iff_of_true (fun h => by cases h) (fun h => by cases h), hsound⟩

inductive Opened (Z : Zlib) (schema : Schema) (file : Bytes) (projection : List Int) : FileReader → Prop
  | opened {r : FileReader} : openReader schema file projection = .ok r → Opened Z schema file projection r
  | read {r : FileReader} (first num : BitVec 64) : Opened Z schema file projection r →
      Opened Z schema file projection (readRange Z r first num).2

theorem makeAccessor_sound {page : ColumnMeta} {type : FieldType} {acc : PageAccessor}
    (h : makeAccessor page type = .ok acc) : acc.Sound type := by
  obtain ⟨_, henc, h⟩ := Except.bind_ok.mp h
  have henc : page.encoding = kWriteEncoding := not_not.mp (throwIf_ok.mp henc)
  cases h
  split
  · rename_i hw
    exact ⟨rfl, Nat.ne_of_gt hw.1, henc⟩
  · exact ⟨rfl, henc, fun _ h => nomatch h⟩

theorem Opened.sound (h : Opened Z schema file projection r) : ∀ p ∈ r.columns, p.2.Sound p.1 := by
  induction h with
  | opened h =>
      obtain ⟨⟨rowCount, metas⟩, _, h⟩ := Except.bind_ok.mp h
      obtain ⟨fields, _, h⟩ := Except.bind_ok.mp h
      obtain ⟨columns, hcols, h⟩ := Except.bind_ok.mp h
      cases h
      intro p hp
      have hflip : List.Forall₂ (fun (q : FieldType × PageAccessor) (p : FieldType × ColumnMeta) =>
          (makeAccessor p.2 p.1 >>= fun acc => pure (p.1, acc)) = .ok q) columns fields :=
        List.Forall₂.flip (mapM_ok.mp hcols)
      obtain ⟨q, _, hq⟩ := exists_of_forall₂ hflip hp
      obtain ⟨acc, hacc, hq⟩ := Except.bind_ok.mp hq
      cases hq
      exact makeAccessor_sound hacc
  | read first num _ ih => exact (readRange_inside ih first num).2

/-- Opening a file and reading from it stays inside its buffers exactly when
the footer holds what its counts ask for and every range asked for lies in the
pages that are read for it. -/
theorem reader_inside_iff (Z : Zlib) (schema : Schema) (projection : List Int) (hsize : file.length < 2 ^ 64) :
    (openReader schema file projection ≠ .error .outOfBounds ↔ OpenInside schema file projection) ∧
      ∀ r, Opened Z schema file projection r → ∀ first num,
        ((readRange Z r first num).1 ≠ .error .outOfBounds ↔ RangeInside Z r first num) :=
  ⟨openReader_inside_iff hsize, fun _ h first num => (readRange_inside h.sound first num).1⟩

set_option maxRecDepth 4000 in
/-- Reading both rows of `nameFile`. -/
theorem reader_inside_names : OpenInside nameSchema nameFile [1, 0] ∧ ∃ r,
    openReader nameSchema nameFile [1, 0] = .ok r ∧ RangeInside storedZlib r 0 2 := by
  obtain ⟨hopen, hread⟩ := reader_inside_iff storedZlib nameSchema [1, 0] (show nameFile.length < 2 ^ 64 by decide)
  have hr : openReader nameSchema nameFile [1, 0] = .ok _ := rfl
  refine ⟨hopen.mp (by rw [hr]; exact fun h => nomatch h), _, hr, ?_⟩
  exact (hread _ (.opened hr) 0 2).mp (by decide)

def emptyFooter : Bytes := kMagic ++ (putU64 0 ++ kMagic)

theorem emptyFooter_overread : openReader nameSchema emptyFooter [] = .error .outOfBounds := by decide

end DBPlayground.Format
