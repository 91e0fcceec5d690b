import DBPlayground.Format.FileLayout

namespace DBPlayground.Format

open ByteReader Table

variable {Z : Zlib} {c : Compression} {compression : CompressionId} {file : Bytes} {d : ColumnData}

theorem wrapped_fixed (hw : PlainCodec.fixedWidth d.type ≠ 0) : d.wrapped = d := by
  have hstrings : ∀ v ∈ d.vals, v.asString = [] := by
    intro v hv
    have ht := d.typed v hv
    cases v with
    | string s =>
        generalize d.type = t at ht hw
        cases t <;> first | exact absurd rfl hw | cases ht
    | _ => rfl
  refine ColumnData.ext rfl (Column.wrapped_eq_self ?_)
  rw [Column.strings, List.flatMap_eq_nil_iff.mpr hstrings]
  decide

theorem decodePage_stored (hZ : Z.Inverts) (hc : CodecRegistry.getCompression compression.code = .ok c)
    {page : ColumnMeta} (h : StoredPage Z compression c file d page) :
    decodePage Z file page d.type = .ok d.wrapped.column := by
  obtain ⟨front, stored, back, hf, ho, hs, hstored⟩ := h.stored
  obtain ⟨t, ht, hd⟩ : ∃ t, c.compress Z d.encoded = .ok t ∧
      c.decompress Z t d.encoded.length = .ok d.encoded := Compression.exists_compress hZ _ h.fits
  obtain rfl : stored = t := Except.ok.inj (hstored.symm.trans ht)
  have hdec : (CodecRegistry.getCompression page.compression >>= fun c =>
      c.decompress Z stored page.rawSize.toNat) = .ok d.encoded := by
    rw [h.compression, hc, h.raw]
    exact hd
  have hvals : PlainCodec.decode d.encoded page.valueCount.toNat (Column.new d.type) = (.ok (), d.wrapped.column) := by
    rw [h.count, ← ColumnData.length_wrapped]
    exact PlainCodec.decode_encoded [] d.valid d.wrapped.typed fun v hv => Column.length_string_wrapped hv
  simp only [decodePage, readAt_middle front stored back hf ho hs, hdec, h.encoding, hvals]
  rfl

theorem toNat_mul_fixedWidth {n : BitVec 64} {type : FieldType}
    (h : n.toNat * PlainCodec.fixedWidth type < 2 ^ 64) :
    (n * BitVec.ofNat 64 (PlainCodec.fixedWidth type)).toNat = n.toNat * PlainCodec.fixedWidth type := by
  have hw : PlainCodec.fixedWidth type % 2 ^ 64 = PlainCodec.fixedWidth type := by cases type <;> rfl
  rw [BitVec.toNat_mul, BitVec.toNat_ofNat, hw, Nat.mod_eq_of_lt h]

theorem readAt_values {page : ColumnMeta} (h : StoredPage Z compression .noCompression file d page)
    (hsize : file.length ≤ maxSize) (hw : PlainCodec.fixedWidth d.type ≠ 0) {first count : BitVec 64}
    (hle : first.toNat + count.toNat ≤ d.vals.length) :
    readAt file (page.offset + first * BitVec.ofNat 64 (PlainCodec.fixedWidth d.type))
        (count * BitVec.ofNat 64 (PlainCodec.fixedWidth d.type)) =
      some ((d.slice first.toNat count.toNat).vals.flatMap PlainCodec.encodeValue) := by
  obtain ⟨front, stored, back, hf, ho, hs, hstored⟩ := h.stored
  obtain rfl : d.encoded = stored := Except.ok.inj hstored
  have hencoded : d.encoded = (d.vals.take first.toNat).flatMap PlainCodec.encodeValue ++
      ((d.slice first.toNat count.toNat).vals.flatMap PlainCodec.encodeValue ++
        (d.vals.drop (first.toNat + count.toNat)).flatMap PlainCodec.encodeValue) := by
    rw [ColumnData.encoded, wrapped_fixed hw, ColumnData.vals_slice, ← List.drop_drop, ← List.flatMap_append,
      List.take_append_drop, ← List.flatMap_append, List.take_append_drop]
  have hfront : ((d.vals.take first.toNat).flatMap PlainCodec.encodeValue).length =
      first.toNat * PlainCodec.fixedWidth d.type := by
    rw [PlainCodec.length_encoded_fixed (fun v hv => d.typed v (List.mem_of_mem_take hv)) hw, List.length_take,
      Nat.min_eq_left (by omega)]
  have hmid : ((d.slice first.toNat count.toNat).vals.flatMap PlainCodec.encodeValue).length =
      count.toNat * PlainCodec.fixedWidth d.type := by
    have hlen := PlainCodec.length_encoded_fixed (d.slice first.toNat count.toNat).typed hw
    rwa [ColumnData.length_slice hle] at hlen
  have hbound := congrArg List.length hf
  rw [hencoded] at hbound hf
  simp only [List.length_append, hfront, hmid] at hbound
  have hmax : maxSize < 2 ^ 64 := by decide
  refine readAt_middle (front ++ (d.vals.take first.toNat).flatMap PlainCodec.encodeValue) _
    ((d.vals.drop (first.toNat + count.toNat)).flatMap PlainCodec.encodeValue ++ back) ?_ ?_ ?_
  · rw [hf]
    simp only [List.append_assoc]
  · rw [List.length_append, hfront, BitVec.toNat_add, toNat_mul_fixedWidth (by omega), ho]
    exact Nat.mod_eq_of_lt (by omega)
  · rw [hmid, toNat_mul_fixedWidth (by omega)]

/-- The accessor reads the column, whether or not its page was decoded before. -/
def Serves (Z : Zlib) (file : Bytes) (d : ColumnData) : PageAccessor → Prop
  | .wholePage page type none => type = d.type ∧ decodePage Z file page d.type = .ok d.wrapped.column
  | .wholePage _ type (some col) => type = d.type ∧ col = d.wrapped.column
  | .fixedWidthDirect page width => width = PlainCodec.fixedWidth d.type ∧ width ≠ 0 ∧
      StoredPage Z .none .noCompression file d page

theorem serves_makeAccessor (hZ : Z.Inverts) (hc : CodecRegistry.getCompression compression.code = .ok c)
    {page : ColumnMeta} (h : StoredPage Z compression c file d page) :
    ∃ acc, makeAccessor page d.type = .ok acc ∧ Serves Z file d acc := by
  have hmake : makeAccessor page d.type = .ok (if 0 < PlainCodec.fixedWidth d.type ∧
      page.compression = CompressionId.none.code then .fixedWidthDirect page (PlainCodec.fixedWidth d.type)
      else .wholePage page d.type none) := by
    rw [makeAccessor, h.encoding]
    rfl
  by_cases hdirect : 0 < PlainCodec.fixedWidth d.type ∧ page.compression = CompressionId.none.code
  · obtain rfl : compression = .none := by
      have hcode := h.compression.symm.trans hdirect.2
      cases compression <;> first | rfl | cases hcode
    obtain rfl : Compression.noCompression = c := Except.ok.inj hc
    refine ⟨.fixedWidthDirect page (PlainCodec.fixedWidth d.type), ?_, rfl, by omega, h⟩
    rw [hmake, if_pos hdirect]
  · refine ⟨.wholePage page d.type none, ?_, rfl, decodePage_stored hZ hc h⟩
    rw [hmake, if_neg hdirect]

theorem readRows_serves {acc : PageAccessor} (h : Serves Z file d acc) (hsize : file.length ≤ maxSize)
    {first count : BitVec 64} (hle : first.toNat + count.toNat ≤ d.vals.length) :
    ∃ acc', readRows Z file acc first count (Column.new d.type) =
        (.ok (d.wrapped.wrapped.slice first.toNat count.toNat).column, acc') ∧ Serves Z file d acc' := by
  have hwhole : appendRange (Column.new d.type) d.wrapped.column first.toNat count.toNat =
      .ok (d.wrapped.wrapped.slice first.toNat count.toNat).column := by
    have hle' : first.toNat + count.toNat ≤ d.wrapped.vals.length := by rwa [ColumnData.length_wrapped]
    rw [appendRange]
    show (d.wrapped.column.readRangeAs _ d.wrapped.type _ _ >>= _) = _
    rw [d.wrapped.readRangeAs_column _ hle']
    rfl
  cases acc with
  | wholePage page type decoded =>
      cases decoded with
      | none =>
          obtain ⟨rfl, hdecode⟩ := h
          refine ⟨.wholePage page d.type (some d.wrapped.column), ?_, rfl, rfl⟩
          simp only [readRows, hdecode, hwhole]
      | some col =>
          obtain ⟨rfl, rfl⟩ := h
          refine ⟨.wholePage page d.type (some d.wrapped.column), ?_, rfl, rfl⟩
          simp only [readRows, hwhole]
  | fixedWidthDirect page width =>
      obtain ⟨rfl, hw, hpage⟩ := h
      refine ⟨.fixedWidthDirect page (PlainCodec.fixedWidth d.type), ?_, rfl, hw, hpage⟩
      have hslice := ColumnData.length_slice hle
      have hdecode : PlainCodec.decode ((d.slice first.toNat count.toNat).vals.flatMap PlainCodec.encodeValue)
          count.toNat (Column.new d.type) = (.ok (), (d.slice first.toNat count.toNat).column) := by
        have h := PlainCodec.decode_encoded [] d.valid (d.slice first.toNat count.toNat).typed (by
          intro v hv
          have hmem : v ∈ d.wrapped.vals := by
            rw [wrapped_fixed hw]
            exact List.mem_of_mem_drop (List.mem_of_mem_take hv)
          exact Column.length_string_wrapped hmem)
        rwa [hslice] at h
      simp only [readRows, readAt_values hpage hsize hw hle, hpage.encoding, hdecode, wrapped_fixed hw]
      rfl

/-- The reader of a file of the given columns, after any number of calls. -/
structure Reading (Z : Zlib) (ds : List ColumnData) (r : FileReader) : Prop where
  size : r.file.length ≤ maxSize
  lengths : ∀ d ∈ ds, d.vals.length = r.rowCount.toNat
  columns : List.Forall₂ (fun d p => p.1 = d.type ∧ Serves Z r.file d p.2) ds r.columns

def ColumnData.window (d : ColumnData) (first count : Nat) : ColumnData := d.wrapped.wrapped.slice first count

theorem readColumns_serves {ds : List ColumnData} {columns : List (FieldType × PageAccessor)}
    (h : List.Forall₂ (fun d p => p.1 = d.type ∧ Serves Z file d p.2) ds columns) (hsize : file.length ≤ maxSize)
    {first count : BitVec 64} (hle : ∀ d ∈ ds, first.toNat + count.toNat ≤ d.vals.length) :
    ∃ columns', readColumns Z file first count columns =
        (.ok (ds.map fun d => (d.window first.toNat count.toNat).column), columns') ∧
      List.Forall₂ (fun d p => p.1 = d.type ∧ Serves Z file d p.2) ds columns' := by
  induction h with
  | nil => exact ⟨[], rfl, .nil⟩
  | @cons d p ds columns hp _ ih =>
      obtain ⟨type, acc⟩ := p
      obtain ⟨rfl, hacc⟩ := hp
      obtain ⟨acc', hrows, hacc'⟩ := readRows_serves hacc hsize (hle d List.mem_cons_self)
      obtain ⟨columns', hrest, hcols'⟩ := ih fun e he => hle e (List.mem_cons_of_mem d he)
      refine ⟨(d.type, acc') :: columns', ?_, .cons ⟨rfl, hacc'⟩ hcols'⟩
      simp only [readColumns, hrows, hrest]
      rfl

theorem toNat_min (a b : BitVec 64) : (if a < b then a else b).toNat = min a.toNat b.toNat := by
  split
  · rename_i h
    exact (Nat.min_eq_left (Nat.le_of_lt h)).symm
  · rename_i h
    exact (Nat.min_eq_right (Nat.le_of_not_lt h)).symm

theorem readRange_empty {r : FileReader} {first num : BitVec 64} (h : r.rowCount.toNat ≤ first.toNat ∨ num = 0) :
    readRange Z r first num = (.ok none, r) := by
  by_cases hfirst : r.rowCount ≤ first
  · rw [readRange, if_pos hfirst]
  · obtain rfl : num = 0 := h.resolve_left hfirst
    have hpos : (0 : BitVec 64) < r.rowCount - first := by
      rw [BitVec.le_def] at hfirst
      rw [BitVec.lt_def, BitVec.toNat_sub]
      have := r.rowCount.isLt
      show 0 < _
      omega
    rw [readRange, if_neg hfirst, if_pos hpos, if_pos rfl]

theorem readRange_rows {ds : List ColumnData} {r : FileReader} (h : Reading Z ds r) {first num : BitVec 64}
    {n : Nat} (hfirst : first.toNat < r.rowCount.toNat) (hnum : num ≠ 0)
    (hn : n = min num.toNat (r.rowCount.toNat - first.toNat)) :
    ∃ r', readRange Z r first num =
        (.ok (some ⟨r.projection, ds.map fun d => (d.window first.toNat n).column, n⟩), r') ∧
      Reading Z ds r' ∧ r'.projection = r.projection ∧ r'.rowCount = r.rowCount := by
  have hnot : ¬ r.rowCount ≤ first := Nat.not_le.mpr hfirst
  have hsub : (r.rowCount - first).toNat = r.rowCount.toNat - first.toNat :=
    BitVec.toNat_sub_of_le (Nat.le_of_lt hfirst)
  have hpos : num.toNat ≠ 0 := fun h0 => hnum (BitVec.eq_of_toNat_eq h0)
  generalize hm : (if num < r.rowCount - first then num else r.rowCount - first) = m
  have hmn : m.toNat = n := by
    rw [hn, ← hm, toNat_min, hsub]
  have hm0 : m ≠ 0 := by
    rintro rfl
    have hzero : n = 0 := hmn.symm
    omega
  have hle : ∀ d ∈ ds, first.toNat + m.toNat ≤ d.vals.length := by
    intro d hd
    rw [h.lengths d hd]
    omega
  obtain ⟨columns', hcols, hcols'⟩ := readColumns_serves h.columns h.size hle
  refine ⟨{ r with columns := columns' }, ?_, ⟨h.size, h.lengths, hcols'⟩, rfl, rfl⟩
  rw [readRange, if_neg hnot]
  dsimp only
  rw [hm, if_neg hm0, hcols, hmn]

def project (projection : List Int) (ds : List ColumnData) : List ColumnData :=
  projection.filterMap fun field => ds[field.toNat]?

def InRange (schema : Schema) (projection : List Int) : Prop :=
  ∀ field ∈ projection, 0 ≤ field ∧ field.toNat < schema.length

theorem projectFields {schema : Schema} {ds : List ColumnData} {metas : List ColumnMeta}
    (htypes : ds.map (·.type) = schema.map (·.type))
    (hpages : List.Forall₂ (StoredPage Z compression c file) ds metas) {projection : List Int}
    (hproj : InRange schema projection) :
    ∃ fields, projection.mapM (projectField schema metas) = .ok fields ∧
      List.Forall₂ (fun d p => p.1 = d.type ∧ StoredPage Z compression c file d p.2) (project projection ds)
        fields := by
  have hlen : ds.length = schema.length := by
    have h := congrArg List.length htypes
    rwa [List.length_map, List.length_map] at h
  induction projection with
  | nil => exact ⟨[], rfl, .nil⟩
  | cons field projection ih =>
      obtain ⟨fields, hfields, hmatch⟩ := ih fun f hf => hproj f (List.mem_cons_of_mem _ hf)
      obtain ⟨h0, hk⟩ := hproj field List.mem_cons_self
      have hkd : field.toNat < ds.length := by omega
      have hkm : field.toNat < metas.length := by rwa [← hpages.length_eq]
      have htype : schema[field.toNat].type = ds[field.toNat].type := by
        have h := congrArg (fun l => l[field.toNat]?) htypes
        simp only [List.getElem?_map, List.getElem?_eq_getElem hk, List.getElem?_eq_getElem hkd,
          Option.map_some, Option.some.injEq] at h
        exact h.symm
      have hhead : projectField schema metas field = .ok (schema[field.toNat].type, metas[field.toNat]) := by
        rw [projectField, throwIf, if_neg (by omega), List.getElem?_eq_getElem hk, List.getElem?_eq_getElem hkm]
        rfl
      refine ⟨(schema[field.toNat].type, metas[field.toNat]) :: fields, ?_, ?_⟩
      · rw [List.mapM_cons, hhead, hfields]
        rfl
      · rw [project, List.filterMap_cons, List.getElem?_eq_getElem hkd]
        exact .cons ⟨htype, List.forall₂_iff_get.mp hpages |>.2 field.toNat hkd hkm⟩ hmatch

theorem makeAccessors (hZ : Z.Inverts) (hc : CodecRegistry.getCompression compression.code = .ok c)
    {ds : List ColumnData} {fields : List (FieldType × ColumnMeta)}
    (h : List.Forall₂ (fun d p => p.1 = d.type ∧ StoredPage Z compression c file d p.2) ds fields) :
    ∃ columns : List (FieldType × PageAccessor), (fields.mapM fun p => do
        let acc ← makeAccessor p.2 p.1
        pure (p.1, acc)) = .ok columns ∧
      List.Forall₂ (fun d p => p.1 = d.type ∧ Serves Z file d p.2) ds columns := by
  induction h with
  | nil => exact ⟨[], rfl, .nil⟩
  | @cons d p ds fields hp _ ih =>
      obtain ⟨columns, hcols, hserves⟩ := ih
      obtain ⟨ht, hpage⟩ := hp
      obtain ⟨acc, hacc, hs⟩ := serves_makeAccessor hZ hc hpage
      refine ⟨(p.1, acc) :: columns, ?_, .cons ⟨ht, hs⟩ hserves⟩
      rw [List.mapM_cons, ht, hacc, hcols]
      rfl

theorem openReader_layout (hZ : Z.Inverts) {schema : Schema} {ds : List ColumnData} {rows : Nat}
    (h : Layout Z ds rows file) (htypes : ds.map (·.type) = schema.map (·.type)) {projection : List Int}
    (hproj : InRange schema projection) :
    ∃ r, openReader schema file projection = .ok r ∧ r.projection = projection ∧ r.rowCount.toNat = rows ∧
      Reading Z (project projection ds) r := by
  obtain ⟨compression, c, metas, hc, hfooter, hpages⟩ := h.pages
  obtain ⟨fields, hfields, hmatch⟩ := projectFields htypes hpages hproj
  obtain ⟨columns, hcols, hserves⟩ := makeAccessors hZ hc hmatch
  have hrows : (BitVec.ofNat 64 rows).toNat = rows := toNat_ofNat_of_le h.count
  refine ⟨⟨file, projection, columns, BitVec.ofNat 64 rows⟩, ?_, rfl, hrows, h.size, ?_, hserves⟩
  · refine Except.bind_ok.mpr ⟨_, hfooter, Except.bind_ok.mpr ⟨fields, hfields, Except.bind_ok.mpr ⟨columns, hcols, rfl⟩⟩⟩
  · intro d hd
    obtain ⟨field, _, hfield⟩ := List.mem_filterMap.mp hd
    rw [hrows]
    exact h.lengths d (List.mem_of_getElem? hfield)

end DBPlayground.Format
