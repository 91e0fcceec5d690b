import DBPlayground.Cloud.Progress
import DBPlayground.Cloud.SoloIndexer
import DBPlayground.Lib.Checksums

namespace DBPlayground.TextTable

open ByteReader Table Wire Records Keys WalCodec WalRoundTrip WalDigest WalSize Program Session Store StateStore
  TableWriter WalIndexer CloudSystem Log Invariant Contract LogReads SoloReads SoloWriter SoloIndexer Progress

def textTable : TableDescriptor := ⟨ascii "t", ascii "meta", ascii "files", [⟨ascii "text", .string⟩]⟩

def textChunk (text : Bytes) : Chunk := ⟨[0], [Column.ofValues .string [.string text]], 1⟩

def textBatch (text : Bytes) : CloudImportBatch := { batchIds := [ascii "b"], chunks := [textChunk text] }

def hashes : Hashes := ⟨Checksums.crc32, Checksums.sha256, Checksums.sha256_length⟩

def textFormat (text : Bytes) : DataFormat where
  write chunks := if chunks.flatMap Chunk.rows = (textChunk text).rows then .ok [1]
    else .error (.invalidArgument "unknown chunks")
  read b := if b = [1] then some (textChunk text).rows else none

/-- Three objects work on the table, and the batch is the only one that clients
import. -/
def textParams (text : Bytes) (allow : Fin 3 → Call → (o : Op) → World (Fin 3) → Ans o → Bool) : Params (Fin 3) where
  table := textTable
  hashes := hashes
  format := textFormat text
  attempts _ := 1
  accepts
    | _, .importBatch b => b == textBatch text
    | _, _ => true
  allow := allow

def benignParams (text : Bytes) : Params (Fin 3) := textParams text fun _ c o _ r => benign textTable c o r

def anyParams (text : Bytes) : Params (Fin 3) := textParams text fun _ _ _ _ _ => true

variable {text : Bytes} {allow : Fin 3 → Call → (o : Op) → World (Fin 3) → Ans o → Bool}

theorem cell_textChunk (h : text.length < 2 ^ 32) :
    (Column.ofValues .string [.string text]).cell? 0 = some (.string text) :=
  Column.cell_ofValues (by simp [Value.hasType]) (by simpa [Value.asString] using h) (by simp)

theorem rows_textChunk (h : text.length < 2 ^ 32) : (textChunk text).rows = [[some (.string text)]] := by
  simp [Chunk.rows, textChunk, Chunk.row, cell_textChunk h]

theorem isFull_textChunk : isFullSchemaChunk (textChunk text) textTable.schema = true := rfl

theorem isValid_textBatch : isValidBatch textTable (textBatch text) = true := rfl

theorem payload_textChunk (h : text.length + 8 < 2 ^ 32) :
    ∃ p, payload textTable.schema (textChunk text) = .ok p ∧ p.length = text.length + 8 := by
  have hrow : putRow textTable.schema (textChunk text) 0 =
      .ok (u32 (leBytes 4 text.length ++ text).length ++ (leBytes 4 text.length ++ text)) := by
    refine Except.bind_ok.mpr ⟨[.string text], mapM_ok.mpr (.cons (cell_ok.mpr (cell_textChunk (by omega))) .nil), ?_⟩
    refine Except.bind_ok.mpr ⟨leBytes 4 text.length ++ text, ?_, putString_ok.mpr ⟨?_, rfl⟩⟩
    · refine Except.bind_ok.mpr ⟨(), rfl, Except.bind_ok.mpr ⟨_, rfl, ?_⟩⟩
      show Except.ok _ = _
      simp [Value.asString]
    · rw [List.length_append, length_leBytes]
      omega
  refine ⟨_, Except.bind_ok.mpr ⟨_, hrow, Except.bind_ok.mpr ⟨[], rfl, rfl⟩⟩, ?_⟩
  simp only [List.length_append, u32, length_leBytes, List.length_nil]
  omega

theorem chunkEntry_textChunk (h : text.length + 8 < 2 ^ 32) :
    ∃ e, chunkEntry textTable.schema (textChunk text) = .ok e := by
  obtain ⟨p, hp, _⟩ := payload_textChunk h
  exact ⟨_, Except.bind_ok.mpr ⟨(), throwIf_ok.mpr (by rw [isFull_textChunk]; simp [textChunk, uint32Max]),
    Except.bind_ok.mpr ⟨p, hp, rfl⟩⟩⟩

theorem encode_textBatch (h : text.length + 8 < 2 ^ 32) :
    ∃ bytes, encodeSequentialWal hashes textTable.schema (batchWal textTable (textBatch text) 1 1) = .ok bytes := by
  obtain ⟨e, he⟩ := chunkEntry_textChunk h
  exact ⟨_, encode_ok.mpr ⟨⟨by simp [batchWal, textTable, textBatch, ascii], by simp [batchWal, textBatch],
    by simp [batchWal], rfl, by simp [batchWal, textBatch]⟩, _, _, [e], rfl, rfl, .cons he .nil, rfl⟩⟩

theorem fits_textBatch (h : text.length + 8 < 2 ^ 32) :
    Fits textTable.schema (batchWal textTable (textBatch text) 1 1) := by
  refine ⟨by simp [batchWal, textBatch], ?_⟩
  intro c hc p hp
  obtain rfl : c = textChunk text := by simpa [batchWal, textBatch] using hc
  obtain ⟨q, hq, hlen⟩ := payload_textChunk h
  rw [hp] at hq
  cases hq
  omega

theorem usable_textParams (hP : Serves (textParams text allow)) : Usable (textParams text allow) where
  serves := hP
  located := show trimSlashes textTable.filePrefix ≠ [] by decide
  columns := show textTable.schema.length ≤ 1024 by decide
  short := show textTable.tableId.length ≤ 2 ^ 20 by decide
  manifest := ⟨_, rfl⟩

theorem serves_benignParams : Serves (benignParams text) := fun _ _ _ _ _ h => h

theorem serves_anyParams : Serves (anyParams text) := fun _ _ _ _ _ _ => rfl

theorem importable_textBatch (h : text.length + 8 < 2 ^ 32) (i : Fin 3) :
    Importable (textParams text allow) i (textBatch text) :=
  ⟨beq_self_eq_true _, isValid_textBatch, encode_textBatch h, fits_textBatch h⟩

theorem readsBack_textFormat : ReadsBack (textFormat text) := by
  intro chunks b hb
  simp only [textFormat] at hb ⊢
  split at hb
  · rename_i hrows
    cases hb
    rw [if_pos rfl, hrows]
  · cases hb

theorem collisionFree_textParams : CollisionFree (textParams text allow) := by
  rintro b b' x y ⟨_, hb⟩ ⟨_, hb'⟩ ⟨ids, es, hi, hc, rfl⟩ ⟨ids', es', hi', hc', rfl⟩ _
  obtain rfl : b = textBatch text := by simpa [textParams] using hb
  obtain rfl : b' = textBatch text := by simpa [textParams] using hb'
  rw [hi] at hi'
  cases hi'
  congr 1
  exact List.right_unique_forall₂' (fun _ _ _ h h' => Except.ok.inj (h.symm.trans h')) hc hc'

theorem owned_benignParams : Owned (benignParams text) := by
  intro i b seq epoch w v st h hd hle
  have h : benign textTable (.publish b seq epoch) (.metaGet (currentKey textTable)) (.ok (some v)) = true := h
  simp only [benign, bne_self_eq_false, Bool.false_or, Option.map_some, hd, Bool.or_eq_true, decide_eq_true_eq,
    beq_iff_eq] at h
  exact h.resolve_left (BitVec.not_lt.mpr hle)

theorem landing_benignParams : Landing (benignParams text) where
  answers _ _ _ _ h := nomatch h
  fits _ _ _ _ h := of_decide_eq_true h
  room _ _ _ _ _ r := by
    cases r with
    | ok a => exact bne_self_eq_false (walPath textTable uint64Max)
    | error e => rfl

theorem readable_benignParams : Readable (benignParams text) where
  columns := show textTable.schema.length ≤ 1024 by decide
  located := show trimSlashes textTable.filePrefix ≠ [] by decide
  answers _ _ o _ _ := by cases o <;> rfl

theorem exists_committed_text (text : Bytes) (h : text.length + 8 < 2 ^ 32) (hP : Serves (textParams text allow)) :
    ∃ s fence d, Reachable (textParams text allow) ⟨s, Function.update (fun _ => .idle) 0
        (.busy (.publish (textBatch text) 2 1) (.ret (.done (.imported ⟨.committed, 1, 2, 2⟩))))⟩ ∧
      Committed (textParams text allow) 0 (textBatch text) s fence d :=
  exists_committed (usable_textParams hP) rfl (by simp [textParams]) (importable_textBatch h 0) rfl

section Indexing

variable {s : World (Fin 3)} {fence d : Creation (Fin 3)} {v : VersionedValue} {st : SequentialState}

structure Unindexed (P : Params (Fin 3)) (text : Bytes) (s : World (Fin 3)) (fence d : Creation (Fin 3)) : Prop where
  log : s.created = [fence, d]
  fenced : Fenced P 0 fence
  holds : HoldsBatch P 0 (textBatch text) 2 1 d
  manifest : ∃ v, s.entries (metaKey textTable initialKey) = some v ∧
    encodeSequentialManifest (initialManifest textTable) = .ok v.value
  objects : ∀ key, key ≠ currentKey textTable → key ≠ metaKey textTable initialKey → s.entries key = none
  issued : ∀ key, s.issued key = none

theorem Unindexed.slice (hu : Unindexed (textParams text allow) text s fence d) :
    slice (textParams text allow) s 0 2 = [walOf (textParams text allow) fence, walOf (textParams text allow) d] := by
  rw [LogReads.slice, hu.log]
  rfl

theorem Unindexed.appended (hu : Unindexed (textParams text allow) text s fence d) :
    appended (LogReads.slice (textParams text allow) s 0 2) = [walOf (textParams text allow) d] := by
  obtain ⟨digest, hwal⟩ := hu.holds.decoded
  have hk : (walOf (textParams text allow) d).kind = .append := congrArg SequentialWal.kind hwal
  rw [hu.slice, WalIndexer.appended]
  simp [hu.fenced.kind, hk]

theorem size_textBatch (hlen : text.length ≤ 2 ^ 20) (hd : HoldsBatch (textParams text allow) 0 (textBatch text) 2 1 d) :
    d.bytes.length ≤ maxWalBytes := by
  rw [length_encode hd.encoded]
  show walSize textTable.schema _ _ _ [(textChunk text).rows] ≤ maxWalBytes
  rw [rows_textChunk (by omega), maxWalBytes]
  show 9 + (4 + (ascii "t").length) + 24 + (4 + (ascii "b").length) + (4 + (4 + (ascii "b").length + 0)) + 4 +
    (12 + (4 + (4 + text.length + 0) + 0) + 0) + 48 ≤ 268435456
  rw [show (ascii "t").length = 1 from rfl, show (ascii "b").length = 1 from rfl]
  omega

theorem oversize_textBatch (hlen : text.length = 268435456)
    (hd : HoldsBatch (textParams text allow) 0 (textBatch text) 2 1 d) : maxWalBytes < d.bytes.length := by
  rw [length_encode hd.encoded]
  show maxWalBytes < walSize textTable.schema _ _ _ [(textChunk text).rows]
  rw [rows_textChunk (by omega), maxWalBytes]
  simp only [walSize, chunkSize, rowSize, cellSize, textTable, List.map_cons, List.map_nil, List.sum_cons,
    List.sum_nil, List.zipWith_cons_cons, List.zipWith_nil_left, Option.elim_some, Value.asString, hlen]
  omega

theorem rows_textWal (hlen : text.length + 8 < 2 ^ 32) (hd : HoldsBatch (textParams text allow) 0 (textBatch text) 2 1 d) :
    (walOf (textParams text allow) d).chunks.flatMap Chunk.rows = (textChunk text).rows := by
  obtain ⟨digest, hwal⟩ := hd.decoded
  obtain ⟨e, he⟩ : ∃ e, chunkEntry textTable.schema (textChunk text) = .ok e := chunkEntry_textChunk hlen
  rw [hwal]
  show ([textChunk text].map (rebuild textTable.schema)).flatMap Chunk.rows = _
  rw [List.map_singleton, List.flatMap_singleton,
    rows_of_rebuild he (fun p hp => (fits_textBatch hlen).payload _ (List.mem_singleton.mpr rfl) p hp)]

theorem digest_length (hs : Inv (textParams text allow) s) (hlog : s.created = [fence, d]) :
    (walOf (textParams text allow) d).payloadDigest.length = 32 :=
  (hs.slots 1 d (by rw [hlog]; rfl)).digest_length

theorem encode_index {digest : Bytes} (h : digest.length = 32) :
    ∃ b, encodeSequentialBatchIndex (sortEntries [⟨ascii "b", 2, ascii "b", digest⟩]) = .ok b := by
  have hsort : sortEntries [⟨ascii "b", 2, ascii "b", digest⟩] = [⟨ascii "b", 2, ascii "b", digest⟩] := by
    simp [sortEntries, unique, uniqueAfter]
  rw [hsort]
  obtain ⟨e, he⟩ : ∃ e, putEntry ⟨ascii "b", 2, ascii "b", digest⟩ = .ok e :=
    ⟨_, Except.bind_ok.mpr ⟨(), throwIf_ok.mpr (by simp [ascii, h]), rfl⟩⟩
  exact ⟨_, Except.bind_ok.mpr ⟨(), rfl, Except.bind_ok.mpr ⟨_, Except.bind_ok.mpr ⟨e, he, rfl⟩, rfl⟩⟩⟩

theorem runs_index_text {i : Fin 3} (hlen : text.length ≤ 2 ^ 20) (hP : Serves (textParams text allow))
    (hs : Inv (textParams text allow) s) (hu : Unindexed (textParams text allow) text s fence d)
    (hv : s.entries (currentKey textTable) = some v) (hd : decodeSequentialState v.value = .ok st)
    (hkey : st.manifestKey = initialKey) (hidx : st.indexedSeq = 0) (hpub : st.publishedSeq < 2) :
    ∃ t b, SoloRun (textParams text allow) i .index (method (textParams text allow) i .index) s
        (.ok (.done (.indexed ⟨.indexed, 2, 2⟩))) t ∧
      t.entries (currentKey textTable) = some ⟨b, s.nextVersion + 2⟩ ∧
      decodeSequentialState b = .ok (indexedState st 2 (ascii "manifest/1")) ∧
      t.writers = s.writers ∧ t.created = s.created ∧ t.acquired = s.acquired ∧ t.incarnation = s.incarnation := by
  obtain ⟨st', hc⟩ := hs.current v hv
  obtain rfl : st' = st := Except.ok.inj (hc.decoded.symm.trans hd)
  have hst := hc.state
  obtain ⟨w, m, hw, hm, hok⟩ := hst.manifest
  obtain ⟨w', hw', hm'⟩ := hu.manifest
  have hcols : textTable.schema.length ≤ 1024 := by decide
  obtain rfl : w' = w := by
    rw [hkey] at hw
    exact Option.some.inj (hw'.symm.trans hw)
  obtain rfl : m = initialManifest textTable :=
    Except.ok.inj ((decode_encode_manifest hm (by rw [hok.schema]; exact hcols)).symm.trans
      (decode_encode_manifest hm' hcols))
  obtain ⟨digest, hwal⟩ := hu.holds.decoded
  have hsize : ∀ c ∈ s.created, c.bytes.length ≤ maxWalBytes := by
    rw [hu.log]
    simpa using ⟨hu.fenced.size, size_textBatch hlen hu.holds⟩
  have hrows := rows_textWal (by omega) hu.holds
  have hchunks : (walOf (textParams text allow) d).chunks = [rebuild textTable.schema (textChunk text)] :=
    congrArg SequentialWal.chunks hwal
  have hentries : entriesOf (walOf (textParams text allow) d).seq (walOf (textParams text allow) d) =
      [⟨ascii "b", 2, ascii "b", (walOf (textParams text allow) d).payloadDigest⟩] := by
    rw [hwal]
    rfl
  obtain ⟨index, hindex⟩ := encode_index (digest_length hs hu.log)
  obtain ⟨manifest, hmanifest⟩ : ∃ b, encodeSequentialManifest
      { initialManifest textTable with
        dataFiles := [⟨dataPath textTable (ascii "data/1"), 1, 2, 1⟩]
        batchIndexFiles := [dedupKey (ascii "manifest/1")]
        coveredThroughSeq := 2 } = .ok b := ⟨_, rfl⟩
  have hfinal : (indexedState st' 2 (ascii "manifest/1")).publishedSeq = 2 := if_pos hpub
  obtain ⟨current, hcurrent⟩ : ∃ b, encodeSequentialState (indexedState st' 2 (ascii "manifest/1")) = .ok b := by
    have hid : st'.tableId = textTable.tableId := hst.tableId
    refine encode_state ?_ ?_ rfl (show 10 < 2 ^ 32 by decide) (by rw [hfinal]; exact BitVec.le_refl _) hst.version
    · show st'.tableId ≠ []
      rw [hid]
      decide
    · show st'.tableId.length < 2 ^ 32
      rw [hid]
      decide
  have hnew : ∀ key, key ≠ ascii "CURRENT" → key ≠ initialKey → s.entries (metaKey textTable key) = none :=
    fun key hc hi => hu.objects _ (metaKey_ne_current hc) (fun h => hi (metaKey_inj.mp h))
  have hlast : st'.indexedSeq + BitVec.ofNat 64 2 = 2 := by
    rw [hidx]
    decide
  have hext : SoloRun (textParams text allow) i .index (extendManifest textTable (textFormat text)
      (initialManifest textTable) (st'.indexedSeq + 1) 2 (walOf (textParams text allow) d).chunks) s
      (.ok (some { initialManifest textTable with
        dataFiles := [⟨dataPath textTable (ascii "data/1"), 1, 2, 1⟩] }))
      ((s.issue i (ascii "data/1")).write (dataPath textTable (ascii "data/1")) [1]) := by
    have h := runs_extendManifest (P := textParams text allow) (i := i) (m := initialManifest textTable) 1 2 hP
      (by rw [hchunks]; nofun) (show (ascii "data/1").take 5 = ascii "data/" from rfl) (hu.issued (ascii "data/1"))
      (if_pos hrows)
    rw [show rowTotal (walOf (textParams text allow) d).chunks = 1 by rw [hchunks]; rfl] at h
    rw [hidx, show (0 : U64) + 1 = 1 by decide]
    exact h
  have hpublish := runs_publishIndex (P := textParams text allow) (i := i)
    (m := { initialManifest textTable with dataFiles := [⟨dataPath textTable (ascii "data/1"), 1, 2, 1⟩] })
    (s := (s.issue i (ascii "data/1")).write (dataPath textTable (ascii "data/1")) [1]) hP
    (show (ascii "manifest/1").take 9 = ascii "manifest/" from rfl) hv hst.tableId
    (show st'.indexedSeq ≤ 2 by rw [hidx]; decide) (hnew _ (by decide) (by decide)) (hnew _ (by decide) (by decide))
    hindex hmanifest hcurrent
  have hres : indexResult .indexed (some (indexedState st' 2 (ascii "manifest/1"))) = ⟨.indexed, 2, 2⟩ := by
    rw [indexResult, hfinal]
    rfl
  rw [hres] at hpublish
  have hzero : st'.indexedSeq.toNat = 0 := congrArg BitVec.toNat hidx
  have hloc : trimSlashes textTable.filePrefix ≠ [] := by decide
  have htwo : s.created.length = 2 := by rw [hu.log]; rfl
  have hrun := runs_index (P := textParams text allow) (i := i) (n := 0) hP hs hcols hloc hsize hv hd hst hw hm hok .nil
    (show st'.indexedSeq.toNat + 2 = _ by rw [hzero, htwo]) (by decide) (by decide) (by rw [htwo]; decide)
    (by rw [hlast, hzero, hu.appended, List.flatMap_singleton]; exact hext)
    (by rw [hlast, hzero, hu.appended, List.flatMap_singleton, hentries]; exact hpublish)
  refine ⟨_, current, hrun, ?_, decode_encode_state hcurrent, rfl, rfl, rfl, rfl⟩
  change (World.put _ (currentKey textTable) current).entries (currentKey textTable) = _
  simp only [World.put, Function.update_self]
  rfl

end Indexing

end DBPlayground.TextTable
