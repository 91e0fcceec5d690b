import DBPlayground.Cloud.Records

namespace DBPlayground.Records

open ByteReader Table Wire

section spelling

variable {b : Bytes}

def spellString (s : Bytes) : Bytes := u32 s.length ++ s

def spellStrings (xs : List Bytes) : Bytes := u32 xs.length ++ xs.flatMap spellString

def spellField (f : Field) : Bytes := spellString f.name ++ [f.type.code]

def spellDataFile (f : DataFile) : Bytes :=
  spellString f.path ++ (u64 f.firstSeq ++ (u64 f.lastSeq ++ u64 f.rowCount))

def spellEntry (e : SequentialBatchEntry) : Bytes :=
  spellString e.batchId ++ (u64 e.seq ++ (spellString e.operationId ++ e.payloadDigest))

theorem spells_u32 : Spells getU32 u32 := Spells.le short 4

theorem spells_u64 : Spells getU64 u64 := by
  intro s t a h
  obtain ⟨n, u, hn, h⟩ := run_bind_ok.mp h
  cases h
  have hlt : n < 2 ^ 64 := le_lt hn
  rw [Spells.le short 8 hn, u64, BitVec.toNat_ofNat, Nat.mod_eq_of_lt hlt]

theorem spells_string : Spells getString spellString := by
  intro s t a h
  obtain ⟨n, u, hn, h⟩ := run_bind_ok.mp h
  obtain ⟨hu, hlen⟩ := Spells.raw short n h
  rw [spells_u32 hn, hu, spellString, hlen, List.append_assoc]

theorem getBounded_ok {α : Type} {count size : Nat} {e : Exn} {r : Reader Exn α} {s t : Bytes} {a : α}
    (h : getBounded count size e r s = .ok (a, t)) : r s = .ok (a, t) := by
  obtain ⟨_, _, hleft, h₁⟩ := run_bind_ok.mp h
  cases hleft
  obtain ⟨_, u, hbad, h₂⟩ := run_bind_ok.mp h₁
  obtain ⟨_, rfl⟩ := throwIf_run_ok.mp hbad
  exact h₂

theorem spells_strings : Spells getStrings spellStrings := by
  intro s t a h
  obtain ⟨n, u, hn, h⟩ := run_bind_ok.mp h
  have h := getBounded_ok h
  rw [spells_u32 hn, Spells.times spells_string n h, spellStrings, length_times h, List.append_assoc]

theorem spells_header {magic : String} : Spells (getHeader magic) fun _ => putHeader magic := by
  intro s t a h
  obtain ⟨_, u, hm, h⟩ := run_bind_ok.mp h
  obtain ⟨n, v, hn, h⟩ := run_bind_ok.mp h
  obtain ⟨m, w, hraw, hbad⟩ := run_bind_ok.mp hm
  obtain ⟨hne, rfl⟩ := throwIf_run_ok.mp hbad
  obtain ⟨hver, rfl⟩ := throwIf_run_ok.mp h
  rw [(Spells.raw short 4 hraw).1, spells_u32 hn, not_not.mp hne, not_not.mp hver, putHeader, List.append_assoc]

theorem spells_field : Spells getField spellField := by
  intro s t a h
  obtain ⟨name, u, hname, h⟩ := run_bind_ok.mp h
  obtain ⟨code, v, hcode, h⟩ := run_bind_ok.mp h
  cases h
  rw [spells_string hname, Spells.byte short hcode, spellField, FieldType.code_ofCode, List.append_assoc]

theorem spells_dataFile : Spells getDataFile spellDataFile := by
  intro s t a h
  obtain ⟨path, u, hpath, h⟩ := run_bind_ok.mp h
  obtain ⟨firstSeq, v, hfirst, h⟩ := run_bind_ok.mp h
  obtain ⟨lastSeq, w, hlast, h⟩ := run_bind_ok.mp h
  obtain ⟨rowCount, x, hrows, h⟩ := run_bind_ok.mp h
  cases h
  rw [spells_string hpath, spells_u64 hfirst, spells_u64 hlast, spells_u64 hrows, spellDataFile]
  simp only [List.append_assoc]

theorem spells_entry : Spells getEntry spellEntry := by
  intro s t a h
  obtain ⟨batchId, u, hbatch, h⟩ := run_bind_ok.mp h
  obtain ⟨seq, v, hseq, h⟩ := run_bind_ok.mp h
  obtain ⟨operationId, w, hop, h⟩ := run_bind_ok.mp h
  obtain ⟨payloadDigest, x, hdigest, h⟩ := run_bind_ok.mp h
  cases h
  rw [spells_string hbatch, spells_u64 hseq, spells_string hop, (Spells.raw short 32 hdigest).1, spellEntry]
  simp only [List.append_assoc]

theorem putString_spells {s : Bytes} (h : putString s = .ok b) : b = spellString s := (putString_ok.mp h).2

theorem putAll_spells {α : Type} {put : α → Except Exn Bytes} {w : α → Bytes} {xs : List α}
    (hput : ∀ x c, put x = .ok c → c = w x) (h : putAll put xs = .ok b) : b = xs.flatMap w := by
  induction xs generalizing b with
  | nil =>
      cases h
      rfl
  | cons x xs ih =>
      obtain ⟨c, hc, h⟩ := Except.bind_ok.mp h
      obtain ⟨cs, hcs, h⟩ := Except.bind_ok.mp h
      cases h
      rw [hput x c hc, ih hcs, List.flatMap_cons]

theorem putField_spells (f : Field) (c : Bytes) (h : putField f = .ok c) : c = spellField f := by
  obtain ⟨_, _, h⟩ := Except.bind_ok.mp h
  obtain ⟨name, hn, h⟩ := Except.bind_ok.mp h
  cases h
  rw [putString_spells hn]
  rfl

theorem putDataFile_spells {covered : U64} (f : DataFile) (c : Bytes) (h : putDataFile covered f = .ok c) :
    c = spellDataFile f := by
  obtain ⟨_, _, h⟩ := Except.bind_ok.mp h
  obtain ⟨path, hp, h⟩ := Except.bind_ok.mp h
  cases h
  rw [putString_spells hp]
  rfl

theorem putEntry_spells (e : SequentialBatchEntry) (c : Bytes) (h : putEntry e = .ok c) : c = spellEntry e := by
  obtain ⟨_, _, h⟩ := Except.bind_ok.mp h
  obtain ⟨batchId, hb, h⟩ := Except.bind_ok.mp h
  obtain ⟨operationId, ho, h⟩ := Except.bind_ok.mp h
  cases h
  rw [putString_spells hb, putString_spells ho]
  rfl

end spelling

theorem encode_of_decode {α : Type} {r : Reader Exn α} {encode : α → Except Exn Bytes} {w : α → Bytes}
    {b : Bytes} {a : α} (hr : Spells r w) (hw : ∀ c, encode a = .ok c → c = w a)
    (h : (do let a ← parse r b; let _ ← encode a; pure a) = .ok a) : encode a = .ok b := by
  obtain ⟨x, hx, h⟩ := Except.bind_ok.mp h
  obtain ⟨c, hc, h⟩ := Except.bind_ok.mp h
  cases h
  have hb := hr (parse_ok.mp hx)
  rw [List.append_nil] at hb
  rw [hc, hw c hc, ← hb]

def spellState (s : SequentialState) : Bytes :=
  putHeader "DBS2" ++ (spellString s.tableId ++ (u64 s.stateVersion ++ (u64 s.schemaVersion ++
    (u64 s.writerEpoch ++ (u64 s.indexedSeq ++ (u64 s.publishedSeq ++ spellString s.manifestKey))))))

theorem spells_state : Spells getState spellState := by
  intro b t a h
  obtain ⟨_, _, hheader, h⟩ := run_bind_ok.mp h
  obtain ⟨tableId, _, htable, h⟩ := run_bind_ok.mp h
  obtain ⟨stateVersion, _, hstate, h⟩ := run_bind_ok.mp h
  obtain ⟨schemaVersion, _, hschema, h⟩ := run_bind_ok.mp h
  obtain ⟨writerEpoch, _, hepoch, h⟩ := run_bind_ok.mp h
  obtain ⟨indexedSeq, _, hindexed, h⟩ := run_bind_ok.mp h
  obtain ⟨publishedSeq, _, hpublished, h⟩ := run_bind_ok.mp h
  obtain ⟨manifestKey, _, hkey, h⟩ := run_bind_ok.mp h
  cases h
  rw [spells_header hheader, spells_string htable, spells_u64 hstate, spells_u64 hschema, spells_u64 hepoch,
    spells_u64 hindexed, spells_u64 hpublished, spells_string hkey, spellState]
  simp only [List.append_assoc]

theorem encode_decode_state {s : SequentialState} {b : Bytes} (h : decodeSequentialState b = .ok s) :
    encodeSequentialState s = .ok b := by
  refine encode_of_decode spells_state ?_ h
  intro c hc
  obtain ⟨_, _, hc⟩ := Except.bind_ok.mp hc
  obtain ⟨tableId, ht, hc⟩ := Except.bind_ok.mp hc
  obtain ⟨manifestKey, hm, hc⟩ := Except.bind_ok.mp hc
  cases hc
  rw [putString_spells ht, putString_spells hm]
  rfl

def spellBatchIndex (entries : List SequentialBatchEntry) : Bytes :=
  putHeader "DBI2" ++ (u32 entries.length ++ entries.flatMap spellEntry)

theorem spells_batchIndex : Spells getBatchIndex spellBatchIndex := by
  intro b t a h
  obtain ⟨_, _, hheader, h⟩ := run_bind_ok.mp h
  obtain ⟨count, _, hcount, h⟩ := run_bind_ok.mp h
  have h := getBounded_ok h
  rw [spells_header hheader, spells_u32 hcount, Spells.times spells_entry count h, spellBatchIndex, length_times h]
  simp only [List.append_assoc]

theorem encode_decode_index {entries : List SequentialBatchEntry} {b : Bytes}
    (h : decodeSequentialBatchIndex b = .ok entries) : encodeSequentialBatchIndex entries = .ok b := by
  refine encode_of_decode spells_batchIndex ?_ h
  intro c hc
  obtain ⟨_, _, hc⟩ := Except.bind_ok.mp hc
  obtain ⟨es, he, hc⟩ := Except.bind_ok.mp hc
  cases hc
  rw [putAll_spells putEntry_spells he]
  rfl

/-- The codecs of CURRENT and of the batch index are exact inverses. -/
theorem current_and_index_exact :
    (∀ (s : SequentialState) (b : Bytes), encodeSequentialState s = .ok b ↔ decodeSequentialState b = .ok s) ∧
    ∀ (entries : List SequentialBatchEntry) (b : Bytes),
      encodeSequentialBatchIndex entries = .ok b ↔ decodeSequentialBatchIndex b = .ok entries :=
  ⟨fun _ _ => ⟨decode_encode_state, encode_decode_state⟩, fun _ _ => ⟨decode_encode_index, encode_decode_index⟩⟩

def spellManifest (m : SequentialManifest) : Bytes :=
  putHeader "DBM2" ++ (spellString m.tableId ++ (u64 m.coveredThroughSeq ++ (u64 m.schemaVersion ++
    (u32 m.schema.length ++ (m.schema.flatMap spellField ++ (u32 m.dataFiles.length ++
      (m.dataFiles.flatMap spellDataFile ++ spellStrings m.batchIndexFiles)))))))

theorem spells_manifest : Spells getManifest spellManifest := by
  intro b t a h
  obtain ⟨_, _, hheader, h⟩ := run_bind_ok.mp h
  obtain ⟨tableId, _, htable, h⟩ := run_bind_ok.mp h
  obtain ⟨coveredThroughSeq, _, hcovered, h⟩ := run_bind_ok.mp h
  obtain ⟨schemaVersion, _, hversion, h⟩ := run_bind_ok.mp h
  obtain ⟨n, _, hn, h⟩ := run_bind_ok.mp h
  obtain ⟨_, _, hmany, h⟩ := run_bind_ok.mp h
  obtain ⟨schema, _, hschema, h⟩ := run_bind_ok.mp h
  obtain ⟨fileCount, _, hcount, h⟩ := run_bind_ok.mp h
  obtain ⟨dataFiles, _, hfiles, h⟩ := run_bind_ok.mp h
  obtain ⟨batchIndexFiles, _, hkeys, h⟩ := run_bind_ok.mp h
  cases h
  have hfiles := getBounded_ok hfiles
  obtain ⟨_, rfl⟩ := throwIf_run_ok.mp hmany
  rw [spells_header hheader, spells_string htable, spells_u64 hcovered, spells_u64 hversion, spells_u32 hn,
    Spells.times spells_field n hschema, spells_u32 hcount, Spells.times spells_dataFile fileCount hfiles,
    spells_strings hkeys, spellManifest, length_times hschema, length_times hfiles]
  simp only [List.append_assoc]

theorem putStrings_spells {xs : List Bytes} {b : Bytes} (h : putStrings xs = .ok b) : b = spellStrings xs := by
  obtain ⟨_, c, hc, rfl⟩ := putStrings_ok.mp h
  rw [putAll_spells (fun _ _ => putString_spells) hc]
  rfl

theorem encode_decode_manifest {m : SequentialManifest} {b : Bytes} (h : decodeSequentialManifest b = .ok m) :
    encodeSequentialManifest m = .ok b := by
  refine encode_of_decode spells_manifest ?_ h
  intro c hc
  obtain ⟨_, _, hc⟩ := Except.bind_ok.mp hc
  obtain ⟨tableId, ht, hc⟩ := Except.bind_ok.mp hc
  obtain ⟨schema, hs, hc⟩ := Except.bind_ok.mp hc
  obtain ⟨_, _, hc⟩ := Except.bind_ok.mp hc
  obtain ⟨dataFiles, hd, hc⟩ := Except.bind_ok.mp hc
  obtain ⟨_, _, hc⟩ := Except.bind_ok.mp hc
  obtain ⟨batchIndexFiles, hb, hc⟩ := Except.bind_ok.mp hc
  cases hc
  rw [putString_spells ht, putAll_spells putField_spells hs, putAll_spells putDataFile_spells hd,
    putStrings_spells hb]
  rfl

structure Writable (m : SequentialManifest) : Prop where
  table : m.tableId ≠ [] ∧ m.tableId.length < 2 ^ 32
  columns : m.schema ≠ []
  fields : ∀ f ∈ m.schema, f.name ≠ [] ∧ f.name.length < 2 ^ 32 ∧ f.type ≠ .invalid ∧
    f.type.code ≤ FieldType.blob.code
  files : m.dataFiles.length < 2 ^ 32
  ranges : ∀ f ∈ m.dataFiles, f.path ≠ [] ∧ f.path.length < 2 ^ 32 ∧ f.firstSeq ≠ 0 ∧ f.firstSeq ≤ f.lastSeq ∧
    f.lastSeq ≤ m.coveredThroughSeq ∧ f.rowCount ≠ 0
  indexes : m.batchIndexFiles.length < 2 ^ 32
  keys : ∀ key ∈ m.batchIndexFiles, key.take 6 = ascii "dedup/" ∧ key.length < 2 ^ 32

theorem putAll_exists {α : Type} {put : α → Except Exn Bytes} {xs : List α} :
    (∃ b, putAll put xs = .ok b) ↔ ∀ x ∈ xs, ∃ c, put x = .ok c := by
  induction xs with
  | nil => simp [putAll, pure, Except.pure]
  | cons x xs ih =>
      rw [List.forall_mem_cons, ← ih]
      constructor
      · rintro ⟨b, h⟩
        obtain ⟨c, hc, h⟩ := Except.bind_ok.mp h
        obtain ⟨cs, hcs, _⟩ := Except.bind_ok.mp h
        exact ⟨⟨c, hc⟩, cs, hcs⟩
      · rintro ⟨⟨c, hc⟩, cs, hcs⟩
        exact ⟨c ++ cs, Except.bind_ok.mpr ⟨c, hc, Except.bind_ok.mpr ⟨cs, hcs, rfl⟩⟩⟩

theorem putString_exists {s : Bytes} : (∃ c, putString s = .ok c) ↔ s.length < 2 ^ 32 := by
  simp [putString_ok]

theorem putField_exists {f : Field} : (∃ c, putField f = .ok c) ↔
    f.name ≠ [] ∧ f.name.length < 2 ^ 32 ∧ f.type ≠ .invalid ∧ f.type.code ≤ FieldType.blob.code := by
  rw [← putString_exists]
  unfold putField
  simp only [Except.bind_ok, throwIf_ok, not_or, gt_iff_lt, BitVec.not_lt]
  constructor
  · rintro ⟨_, _, ⟨hn, ht, hc⟩, c, hc', _⟩
    exact ⟨hn, ⟨c, hc'⟩, ht, hc⟩
  · rintro ⟨hn, ⟨c, hc'⟩, ht, hc⟩
    exact ⟨_, (), ⟨hn, ht, hc⟩, c, hc', rfl⟩

theorem putDataFile_exists {covered : U64} {f : DataFile} : (∃ c, putDataFile covered f = .ok c) ↔
    f.path ≠ [] ∧ f.path.length < 2 ^ 32 ∧ f.firstSeq ≠ 0 ∧ f.firstSeq ≤ f.lastSeq ∧ f.lastSeq ≤ covered ∧
      f.rowCount ≠ 0 := by
  rw [← putString_exists]
  unfold putDataFile
  simp only [Except.bind_ok, throwIf_ok, not_or, gt_iff_lt, BitVec.not_lt]
  constructor
  · rintro ⟨_, _, ⟨hp, hf, hfl, hl, hr⟩, c, hc, _⟩
    exact ⟨hp, ⟨c, hc⟩, hf, hfl, hl, hr⟩
  · rintro ⟨hp, ⟨c, hc⟩, hf, hfl, hl, hr⟩
    exact ⟨_, (), ⟨hp, hf, hfl, hl, hr⟩, c, hc, rfl⟩

theorem encode_exists {m : SequentialManifest} : (∃ b, encodeSequentialManifest m = .ok b) ↔ Writable m := by
  constructor
  · rintro ⟨b, h⟩
    obtain ⟨_, hempty, h⟩ := Except.bind_ok.mp h
    obtain ⟨tableId, ht, h⟩ := Except.bind_ok.mp h
    obtain ⟨schema, hs, h⟩ := Except.bind_ok.mp h
    obtain ⟨_, hcount, h⟩ := Except.bind_ok.mp h
    obtain ⟨dataFiles, hd, h⟩ := Except.bind_ok.mp h
    obtain ⟨_, hkeys, h⟩ := Except.bind_ok.mp h
    obtain ⟨batchIndexFiles, hb, _⟩ := Except.bind_ok.mp h
    obtain ⟨hne, hcols⟩ := not_or.mp (throwIf_ok.mp hempty)
    have hcount := throwIf_ok.mp hcount
    have hkeys := throwIf_ok.mp hkeys
    obtain ⟨hlen, c, hc, _⟩ := putStrings_ok.mp hb
    have hstrings := putAll_exists.mp ⟨c, hc⟩
    refine ⟨⟨hne, putString_exists.mp ⟨_, ht⟩⟩, hcols, fun f hf => putField_exists.mp (putAll_exists.mp ⟨_, hs⟩ f hf),
      ?_, fun f hf => putDataFile_exists.mp (putAll_exists.mp ⟨_, hd⟩ f hf), hlen, fun key hkey => ⟨?_, ?_⟩⟩
    · unfold uint32Max at hcount
      omega
    · by_contra hk
      exact hkeys ⟨key, hkey, hk⟩
    · exact putString_exists.mp (hstrings key hkey)
  · intro hw
    obtain ⟨tableId, ht⟩ := putString_exists.mpr hw.table.2
    obtain ⟨schema, hs⟩ := putAll_exists.mpr fun f hf => putField_exists.mpr (hw.fields f hf)
    obtain ⟨dataFiles, hd⟩ := putAll_exists.mpr fun f hf => putDataFile_exists.mpr (hw.ranges f hf)
    obtain ⟨keys, hk⟩ := putAll_exists.mpr fun key hkey => putString_exists.mpr (hw.keys key hkey).2
    have hb := putStrings_ok.mpr ⟨hw.indexes, keys, hk, rfl⟩
    have hcount : ¬ m.dataFiles.length > uint32Max := by
      have := hw.files
      unfold uint32Max
      omega
    have hdedup : ¬ ∃ key ∈ m.batchIndexFiles, key.take 6 ≠ ascii "dedup/" := by
      rintro ⟨key, hkey, hne⟩
      exact hne (hw.keys key hkey).1
    exact ⟨_, Except.bind_ok.mpr ⟨(), throwIf_ok.mpr (not_or.mpr ⟨hw.table.1, hw.columns⟩),
      Except.bind_ok.mpr ⟨tableId, ht, Except.bind_ok.mpr ⟨schema, hs,
      Except.bind_ok.mpr ⟨(), throwIf_ok.mpr hcount, Except.bind_ok.mpr ⟨dataFiles, hd,
      Except.bind_ok.mpr ⟨(), throwIf_ok.mpr hdedup, Except.bind_ok.mpr ⟨_, hb, rfl⟩⟩⟩⟩⟩⟩⟩⟩

/-- The two codecs of manifests agree on a manifest exactly when the encoder
refuses it or it has at most the 1024 columns that the decoder accepts. -/
theorem manifest_exact_iff (m : SequentialManifest) :
    (∀ b, encodeSequentialManifest m = .ok b ↔ decodeSequentialManifest b = .ok m) ↔
      (Writable m → m.schema.length ≤ 1024) := by
  constructor
  · intro h hw
    obtain ⟨b, hb⟩ := encode_exists.mpr hw
    exact columns_of_decode ((h b).mp hb)
  · intro h b
    refine ⟨fun hb => ?_, encode_decode_manifest⟩
    exact decode_encode_manifest hb (h (encode_exists.mp ⟨b, hb⟩))

/-- A manifest with 1025 columns is written and cannot be loaded. -/
theorem wide_manifest_unreadable :
    ∃ m b, m.schema.length = 1025 ∧ encodeSequentialManifest m = .ok b ∧ decodeSequentialManifest b ≠ .ok m := by
  have hfield : ∀ f ∈ List.replicate 1025 (⟨ascii "c", .int64⟩ : Field), f = ⟨ascii "c", .int64⟩ :=
    fun f hf => List.eq_of_mem_replicate hf
  have hw : Writable ⟨ascii "t", 0, 1, List.replicate 1025 ⟨ascii "c", .int64⟩, [], []⟩ := by
    have hpos : 0 < (List.replicate 1025 (⟨ascii "c", .int64⟩ : Field)).length := by
      rw [List.length_replicate]
      decide
    refine ⟨by decide, List.ne_nil_of_length_pos hpos, fun f hf => ?_, by decide, by simp, by decide, by simp⟩
    rw [hfield f hf]
    decide
  obtain ⟨b, hb⟩ := encode_exists.mpr hw
  refine ⟨_, b, List.length_replicate, hb, fun h => ?_⟩
  have hle := columns_of_decode h
  rw [List.length_replicate] at hle
  omega

end DBPlayground.Records
