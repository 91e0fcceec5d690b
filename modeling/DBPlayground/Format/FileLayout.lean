import DBPlayground.Format.ColumnData

namespace DBPlayground.Format

open ByteReader Table

variable {Z : Zlib} {c : Compression} {compression : CompressionId} {file : Bytes}

def ColumnData.encoded (d : ColumnData) : Bytes := d.wrapped.vals.flatMap PlainCodec.encodeValue

theorem encode_column (d : ColumnData) :
    PlainCodec.encode d.column =
      if d.encoded.length ≤ maxSize then .ok d.encoded else .error (.threw .lengthError) :=
  PlainCodec.encode_ofValues d.valid d.typed

theorem length_vals_le_encoded (d : ColumnData) : d.vals.length ≤ d.encoded.length := by
  rw [← ColumnData.length_wrapped]
  exact PlainCodec.length_le_encoded d.wrapped.vals

theorem readAt_middle (front mid back : Bytes) {offset len : BitVec 64} (hf : file = front ++ (mid ++ back))
    (ho : offset.toNat = front.length) (hl : len.toNat = mid.length) : readAt file offset len = some mid := by
  have hlen := congrArg List.length hf
  simp only [List.length_append] at hlen
  rw [readAt, if_neg (by omega), ho, hl, hf, List.drop_left' rfl, List.take_left' rfl]

structure StoredPage (Z : Zlib) (compression : CompressionId) (c : Compression) (file : Bytes) (d : ColumnData)
    (page : ColumnMeta) : Prop where
  encoding : page.encoding = kWriteEncoding
  compression : page.compression = compression.code
  count : page.valueCount.toNat = d.vals.length
  raw : page.rawSize.toNat = d.encoded.length
  fits : d.encoded.length ≤ maxSize
  stored : ∃ front stored back, file = front ++ (stored ++ back) ∧ page.offset.toNat = front.length ∧
    page.storedSize.toNat = stored.length ∧ c.compress Z d.encoded = .ok stored

theorem StoredPage.append {d : ColumnData} {page : ColumnMeta} (h : StoredPage Z compression c file d page)
    (more : Bytes) : StoredPage Z compression c (file ++ more) d page := by
  obtain ⟨front, stored, back, hf, ho, hs, hc⟩ := h.stored
  refine ⟨h.encoding, h.compression, h.count, h.raw, h.fits, front, stored, back ++ more, ?_, ho, hs, hc⟩
  rw [hf, List.append_assoc, List.append_assoc]

def footprint (Z : Zlib) (c : Compression) (d : ColumnData) : Nat :=
  d.encoded.length + match c.compress Z d.encoded with
    | .ok stored => stored.length
    | .error _ => 0

theorem toNat_ofNat_of_le {n : Nat} (h : n ≤ maxSize) : (BitVec.ofNat 64 n).toNat = n := by
  rw [BitVec.toNat_ofNat]
  refine Nat.mod_eq_of_lt (Nat.lt_of_le_of_lt h ?_)
  decide

namespace Writer

theorem writePages_columns (hZ : Z.Inverts) (ds : List ColumnData) {body : Bytes} (metas : List ColumnMeta)
    (hbody : body.length ≤ maxSize) :
    (writePages Z compression c (ds.map ColumnData.column) body metas = .error (.threw .lengthError) ∧
        maxSize < body.length + (ds.map (footprint Z c)).sum) ∨
      ∃ rest pages, writePages Z compression c (ds.map ColumnData.column) body metas =
          .ok (body ++ rest, metas ++ pages) ∧ (body ++ rest).length ≤ maxSize ∧
        rest.length ≤ (ds.map (footprint Z c)).sum ∧
        List.Forall₂ (StoredPage Z compression c (body ++ rest)) ds pages := by
  induction ds generalizing body metas with
  | nil =>
      refine .inr ⟨[], [], ?_, ?_, Nat.le_refl 0, .nil⟩
      · rw [List.append_nil, List.append_nil]
        rfl
      · rwa [List.append_nil]
  | cons d ds ih =>
      rw [List.map_cons, List.map_cons, List.sum_cons, writePages, encode_column]
      by_cases hfit : d.encoded.length ≤ maxSize
      · obtain ⟨stored, hc, _⟩ : ∃ t, c.compress Z d.encoded = .ok t ∧
            c.decompress Z t d.encoded.length = .ok d.encoded := Compression.exists_compress hZ _ hfit
        have hfoot : footprint Z c d = d.encoded.length + stored.length := by rw [footprint, hc]
        rw [if_pos hfit]
        show ((c.compress Z d.encoded >>= _) = _ ∧ _) ∨ ∃ rest pages, (c.compress Z d.encoded >>= _) = _ ∧ _
        rw [hc]
        show ((appendString body stored >>= _) = _ ∧ _) ∨ ∃ rest pages, (appendString body stored >>= _) = _ ∧ _
        rw [appendString, ← List.length_append]
        by_cases happ : (body ++ stored).length ≤ maxSize
        · rw [if_pos happ]
          have hle := happ
          rw [List.length_append] at hle
          have hpage : ∀ rest, StoredPage Z compression c (body ++ (stored ++ rest)) d
              (pageMeta compression body stored d.encoded d.column) := by
            intro rest
            refine ⟨rfl, rfl, ?_, toNat_ofNat_of_le hfit, hfit, body, stored, rest, rfl, ?_, ?_, hc⟩
            · have hvals := length_vals_le_encoded d
              rw [pageMeta, ColumnData.size_column]
              exact toNat_ofNat_of_le (by omega)
            · exact toNat_ofNat_of_le hbody
            · exact toNat_ofNat_of_le (by omega)
          rcases ih (metas ++ [pageMeta compression body stored d.encoded d.column]) happ with
            ⟨herr, hbig⟩ | ⟨rest, pages, hok, hsize, hrest, hpages⟩
          · refine .inl ⟨herr, ?_⟩
            rw [List.length_append] at hbig
            omega
          · refine .inr ⟨stored ++ rest, _ :: pages, ?_, ?_, ?_, .cons (hpage rest) ?_⟩
            · rw [← List.append_assoc]
              refine hok.trans ?_
              rw [List.append_assoc metas]
              rfl
            · rwa [← List.append_assoc]
            · rw [List.length_append]
              omega
            · rwa [← List.append_assoc]
        · rw [if_neg happ]
          refine .inl ⟨rfl, ?_⟩
          rw [List.length_append] at happ
          omega
      · rw [if_neg hfit]
        refine .inl ⟨rfl, ?_⟩
        rw [footprint]
        omega

end Writer

theorem reads_u64 (n : BitVec 64) : Reads getU64 (putU64 n) n := by
  have hn : n.toNat < 256 ^ 8 := n.isLt
  have h := (Reads.leBytes Failure.outOfBounds hn).map (BitVec.ofNat 64)
  rwa [BitVec.ofNat_toNat, BitVec.setWidth_eq] at h

theorem reads_meta (m : ColumnMeta) : Reads getMeta (Writer.metaBytes m) m :=
  (Reads.byte _ _).bind <| (Reads.byte _ _).bind <| (reads_u64 _).bind <| (reads_u64 _).bind <|
    (reads_u64 _).bind <| (reads_u64 _).map _

theorem reads_footer (rowCount : BitVec 64) {metas : List ColumnMeta} (h : metas.length ≤ maxMetas) :
    Reads getFooter (Writer.footerBytes rowCount metas) (rowCount, metas) := by
  have hcount : (BitVec.ofNat 64 metas.length).toNat = metas.length :=
    toNat_ofNat_of_le (h.trans (Nat.div_le_self _ _))
  have hmetas : Reads (times metas.length getMeta) (metas.flatMap Writer.metaBytes) (metas.map id) :=
    Reads.times fun m _ => reads_meta m
  rw [List.map_id] at hmetas
  refine (reads_u64 rowCount).bind ((reads_u64 _).bind (Reads.unless ?_ ?_))
  · rw [hcount]
    omega
  · rw [hcount]
    exact hmetas.map _

theorem length_metaBytes (m : ColumnMeta) : (Writer.metaBytes m).length = 34 := by
  simp only [Writer.metaBytes, putU64, List.length_append, length_leBytes, List.length_singleton]

theorem length_footerBytes (rowCount : BitVec 64) (metas : List ColumnMeta) :
    (Writer.footerBytes rowCount metas).length = 16 + 34 * metas.length := by
  have hmetas : (metas.flatMap Writer.metaBytes).length = 34 * metas.length := by
    induction metas with
    | nil => rfl
    | cons m metas ih =>
        rw [List.flatMap_cons, List.length_append, length_metaBytes, ih, List.length_cons]
        omega
  rw [Writer.footerBytes, List.length_append, List.length_append, hmetas, putU64, putU64, length_leBytes,
    length_leBytes]
  omega

/-- A file that ends with a footer, its length and the magic. -/
def Sealed (file body footer : Bytes) : Prop :=
  file = body ++ (footer ++ (putU64 (BitVec.ofNat 64 footer.length) ++ kMagic)) ∧ 4 ≤ body.length + footer.length

theorem parseFooter_sealed {body footer : Bytes} (h : Sealed file body footer) (hsize : file.length < 2 ^ 64) :
    parseFooter file = (getFooter footer).map (·.1) := by
  obtain ⟨hfile, hbody⟩ := h
  have hlen := congrArg List.length hfile
  simp only [List.length_append, putU64, length_leBytes, show kMagic.length = 4 from rfl] at hlen
  have hsz : (BitVec.ofNat 64 file.length).toNat = file.length := by
    rw [BitVec.toNat_ofNat, Nat.mod_eq_of_lt hsize]
  have hfs : (BitVec.ofNat 64 footer.length).toNat = footer.length := by
    rw [BitVec.toNat_ofNat, Nat.mod_eq_of_lt (by omega)]
  have htail : readAt file (BitVec.ofNat 64 file.length - 4) 4 = some kMagic := by
    refine readAt_middle (body ++ (footer ++ putU64 (BitVec.ofNat 64 footer.length))) kMagic [] ?_ ?_ rfl
    · rw [hfile]
      simp only [List.append_assoc, List.append_nil]
    · rw [BitVec.toNat_sub, hsz]
      simp only [List.length_append, putU64, length_leBytes]
      show (2 ^ 64 - 4 + file.length) % 2 ^ 64 = _
      omega
  have hfsize : readU64At file (BitVec.ofNat 64 file.length - 12) = .ok (BitVec.ofNat 64 footer.length) := by
    have hread : readAt file (BitVec.ofNat 64 file.length - 12) 8 =
        some (putU64 (BitVec.ofNat 64 footer.length)) := by
      refine readAt_middle (body ++ footer) _ kMagic ?_ ?_ (length_leBytes _ _).symm
      · rw [hfile, List.append_assoc]
      · rw [BitVec.toNat_sub, hsz, List.length_append]
        show (2 ^ 64 - 12 + file.length) % 2 ^ 64 = _
        omega
    rw [readU64At, hread]
    exact congrArg Except.ok (ofNat_leNat_leBytes _ (by decide))
  have hread : readAt file (BitVec.ofNat 64 file.length - 12 - BitVec.ofNat 64 footer.length)
      (BitVec.ofNat 64 footer.length) = some footer := by
    refine readAt_middle body footer _ hfile ?_ hfs
    rw [BitVec.toNat_sub, BitVec.toNat_sub, hsz, hfs]
    show (2 ^ 64 - footer.length + (2 ^ 64 - 12 + file.length) % 2 ^ 64) % 2 ^ 64 = _
    omega
  have hsmall : ¬ BitVec.ofNat 64 file.length < 4 + 12 := by
    rw [BitVec.lt_def, hsz]
    show ¬ file.length < 16
    omega
  rw [parseFooter, throwIf, if_neg hsmall, throwIf, if_neg (not_not_intro htail), hfsize]
  dsimp only [bind, Except.bind, pure, Except.pure]
  rw [hread]

theorem parseFooter_file {body : Bytes} {rowCount : BitVec 64} {metas : List ColumnMeta}
    (hmetas : metas.length ≤ maxMetas)
    (hfile : file = body ++ (Writer.footerBytes rowCount metas ++
      (putU64 (BitVec.ofNat 64 (Writer.footerBytes rowCount metas).length) ++ kMagic)))
    (hbody : 4 ≤ body.length) (hsize : file.length ≤ maxSize) : parseFooter file = .ok (rowCount, metas) := by
  have hmax : maxSize < 2 ^ 64 := by decide
  have hparse := reads_footer rowCount hmetas []
  rw [List.append_nil] at hparse
  rw [parseFooter_sealed ⟨hfile, by omega⟩ (by omega), hparse]
  rfl

structure Layout (Z : Zlib) (ds : List ColumnData) (rows : Nat) (file : Bytes) : Prop where
  size : file.length ≤ maxSize
  count : rows ≤ maxSize
  lengths : ∀ d ∈ ds, d.vals.length = rows
  pages : ∃ compression c metas, CodecRegistry.getCompression compression.code = .ok c ∧
    parseFooter file = .ok (BitVec.ofNat 64 rows, metas) ∧
    List.Forall₂ (StoredPage Z compression c file) ds metas

theorem exists_compression (h : compression ≠ .invalid) :
    ∃ c, CodecRegistry.getCompression compression.code = .ok c := by
  cases compression with
  | invalid => exact absurd rfl h
  | none => exact ⟨.noCompression, rfl⟩
  | zlib => exact ⟨.zlibCompression, rfl⟩

theorem close_columns (hZ : Z.Inverts) (hc : CodecRegistry.getCompression compression.code = .ok c)
    {ds : List ColumnData} (hne : ds ≠ []) {rows : Nat} (hrows : ∀ d ∈ ds, d.vals.length = rows) :
    (Writer.close Z compression (ds.map ColumnData.column) = .error (.threw .lengthError) ∧
        maxSize < (ds.map (footprint Z c)).sum + 40 * ds.length + 32) ∨
      ∃ file, Writer.close Z compression (ds.map ColumnData.column) = .ok file ∧ Layout Z ds rows file := by
  have hcount : Writer.rowCount (ds.map ColumnData.column) = BitVec.ofNat 64 rows := by
    obtain ⟨d, ds', rfl⟩ := List.exists_cons_of_ne_nil hne
    rw [List.map_cons, Writer.rowCount, ColumnData.size_column, hrows d List.mem_cons_self]
  have hstart : Writer.close Z compression (ds.map ColumnData.column) = (do
      throwIf (maxMetas < ds.length) (.threw .lengthError : Failure)
      let pages ← Writer.writePages Z compression c (ds.map ColumnData.column) kMagic []
      let footer := Writer.footerBytes (BitVec.ofNat 64 rows) pages.2
      appendString pages.1 (footer ++ (putU64 (BitVec.ofNat 64 footer.length) ++ kMagic))) := by
    rw [Writer.close, hc, hcount, List.length_map]
    rfl
  rw [hstart]
  by_cases hmany : maxMetas < ds.length
  · refine .inl ⟨by rw [throwIf, if_pos hmany]; rfl, ?_⟩
    rw [maxMetas] at hmany
    omega
  · rw [throwIf, if_neg hmany]
    show ((Writer.writePages Z compression c _ kMagic [] >>= _) = _ ∧ _) ∨
      ∃ file, (Writer.writePages Z compression c _ kMagic [] >>= _) = _ ∧ _
    rcases Writer.writePages_columns hZ ds [] (show kMagic.length ≤ maxSize by decide) with
      ⟨herr, hbig⟩ | ⟨rest, pages, hok, hsize, hrest, hpages⟩
    · refine .inl ⟨by rw [herr]; rfl, ?_⟩
      rw [show kMagic.length = 4 from rfl] at hbig
      omega
    · rw [hok]
      have hlen : pages.length = ds.length := hpages.length_eq.symm
      have hbody : (kMagic ++ rest).length = 4 + rest.length := List.length_append
      generalize hb : kMagic ++ rest = body at hsize hpages hbody
      show (appendString body (Writer.footerBytes (BitVec.ofNat 64 rows) pages ++ _) = _ ∧ _) ∨
        ∃ file, appendString body (Writer.footerBytes (BitVec.ofNat 64 rows) pages ++ _) = _ ∧ _
      generalize hend : Writer.footerBytes (BitVec.ofNat 64 rows) pages ++ _ = ending
      have hendlen : ending.length = 28 + 34 * ds.length := by
        rw [← hend, List.length_append, length_footerBytes, List.length_append, putU64, length_leBytes, hlen]
        show _ + (8 + 4) = _
        omega
      rw [appendString]
      by_cases hfit : body.length + ending.length ≤ maxSize
      · rw [if_pos hfit]
        refine .inr ⟨body ++ ending, rfl, ?_, ?_, hrows, compression, c, pages, hc, ?_, ?_⟩
        · rwa [List.length_append]
        · obtain ⟨d, ds', rfl⟩ := List.exists_cons_of_ne_nil hne
          cases hpages with
          | cons hd _ =>
              rw [← hrows d List.mem_cons_self]
              exact (length_vals_le_encoded d).trans hd.fits
        · have hfile := congrArg (body ++ ·) hend.symm
          refine parseFooter_file (by omega) hfile (by omega) ?_
          rwa [List.length_append]
        · exact hpages.imp fun _ _ h => h.append ending
      · rw [if_neg hfit]
        refine .inl ⟨rfl, ?_⟩
        omega

end DBPlayground.Format
