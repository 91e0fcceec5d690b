import DBPlayground.Cloud.Wire

namespace DBPlayground.Records

open ByteReader Table Wire

structure TableDescriptor where
  tableId : Bytes
  metadataPrefix : Bytes
  filePrefix : Bytes
  schema : Schema
  deriving DecidableEq, Repr

structure SequentialState where
  tableId : Bytes
  stateVersion : U64 := 0
  schemaVersion : U64 := 1
  writerEpoch : U64 := 0
  indexedSeq : U64 := 0
  publishedSeq : U64 := 0
  manifestKey : Bytes
  deriving DecidableEq, Repr

structure DataFile where
  path : Bytes
  firstSeq : U64
  lastSeq : U64
  rowCount : U64
  deriving DecidableEq, Repr

structure SequentialManifest where
  tableId : Bytes
  coveredThroughSeq : U64 := 0
  schemaVersion : U64 := 1
  schema : Schema
  dataFiles : List DataFile := []
  batchIndexFiles : List Bytes := []
  deriving DecidableEq, Repr

structure SequentialBatchEntry where
  batchId : Bytes
  seq : U64
  operationId : Bytes
  payloadDigest : Bytes
  deriving DecidableEq, Repr

def encodeSequentialState (s : SequentialState) : Except Exn Bytes := do
  throwIf (s.tableId = [] ∨ s.manifestKey.take 9 ≠ ascii "manifest/" ∨ s.indexedSeq > s.publishedSeq ∨
      s.schemaVersion ≠ 1)
    (.invalidArgument "sequential: invalid CURRENT" : Exn)
  let tableId ← putString s.tableId
  let manifestKey ← putString s.manifestKey
  pure (putHeader "DBS2" ++ (tableId ++ (u64 s.stateVersion ++ (u64 s.schemaVersion ++
    (u64 s.writerEpoch ++ (u64 s.indexedSeq ++ (u64 s.publishedSeq ++ manifestKey)))))))

def getState : Reader Exn SequentialState := do
  getHeader "DBS2"
  let tableId ← getString
  let stateVersion ← getU64
  let schemaVersion ← getU64
  let writerEpoch ← getU64
  let indexedSeq ← getU64
  let publishedSeq ← getU64
  let manifestKey ← getString
  pure ⟨tableId, stateVersion, schemaVersion, writerEpoch, indexedSeq, publishedSeq, manifestKey⟩

def decodeSequentialState (bytes : Bytes) : Except Exn SequentialState := do
  let s ← parse getState bytes
  let _ ← encodeSequentialState s
  pure s

theorem decode_encode_state {s : SequentialState} {b : Bytes} (h : encodeSequentialState s = .ok b) :
    decodeSequentialState b = .ok s := by
  refine Except.bind_ok.mpr ⟨s, ?_, Except.bind_ok.mpr ⟨b, h, rfl⟩⟩
  obtain ⟨_, _, h⟩ := Except.bind_ok.mp h
  obtain ⟨tableId, ht, h⟩ := Except.bind_ok.mp h
  obtain ⟨manifestKey, hm, h⟩ := Except.bind_ok.mp h
  cases h
  refine parse_of_reads ?_
  refine (reads_header (by decide)).bind ?_
  refine (reads_putString ht).bind ?_
  refine (reads_u64 _).bind ((reads_u64 _).bind ((reads_u64 _).bind ((reads_u64 _).bind ?_)))
  exact (reads_u64 _).bind ((reads_putString hm).map _)

def putField (f : Field) : Except Exn Bytes := do
  throwIf (f.name = [] ∨ f.type = .invalid ∨ f.type.code > FieldType.blob.code)
    (.invalidArgument "sequential: invalid schema field" : Exn)
  let name ← putString f.name
  pure (name ++ [f.type.code])

def putDataFile (covered : U64) (f : DataFile) : Except Exn Bytes := do
  throwIf (f.path = [] ∨ f.firstSeq = 0 ∨ f.firstSeq > f.lastSeq ∨ f.lastSeq > covered ∨ f.rowCount = 0)
    (.invalidArgument "sequential: invalid data file" : Exn)
  let path ← putString f.path
  pure (path ++ (u64 f.firstSeq ++ (u64 f.lastSeq ++ u64 f.rowCount)))

def encodeSequentialManifest (m : SequentialManifest) : Except Exn Bytes := do
  throwIf (m.tableId = [] ∨ m.schema = []) (.invalidArgument "sequential: invalid manifest" : Exn)
  let tableId ← putString m.tableId
  let schema ← putAll putField m.schema
  throwIf (m.dataFiles.length > uint32Max) (.invalidArgument "sequential: too many data files" : Exn)
  let dataFiles ← putAll (putDataFile m.coveredThroughSeq) m.dataFiles
  throwIf (∃ key ∈ m.batchIndexFiles, key.take 6 ≠ ascii "dedup/")
    (.invalidArgument "sequential: invalid batch index key" : Exn)
  let batchIndexFiles ← putStrings m.batchIndexFiles
  pure (putHeader "DBM2" ++ (tableId ++ (u64 m.coveredThroughSeq ++ (u64 m.schemaVersion ++
    (u32 m.schema.length ++ (schema ++ (u32 m.dataFiles.length ++ (dataFiles ++ batchIndexFiles))))))))

def getField : Reader Exn Field := do
  let name ← getString
  let code ← getU8
  pure ⟨name, FieldType.ofCode code⟩

def getDataFile : Reader Exn DataFile := do
  let path ← getString
  let firstSeq ← getU64
  let lastSeq ← getU64
  let rowCount ← getU64
  pure ⟨path, firstSeq, lastSeq, rowCount⟩

def getManifest : Reader Exn SequentialManifest := do
  getHeader "DBM2"
  let tableId ← getString
  let coveredThroughSeq ← getU64
  let schemaVersion ← getU64
  let n ← getU32
  throwIf (n > 1024) (.invalidArgument "sequential: too many columns" : Exn)
  let schema ← times n getField
  let fileCount ← getU32
  let dataFiles ← getBounded fileCount (4 + 8 + 8 + 8)
    (.invalidArgument "sequential: bad data file count") (times fileCount getDataFile)
  let batchIndexFiles ← getStrings
  pure ⟨tableId, coveredThroughSeq, schemaVersion, schema, dataFiles, batchIndexFiles⟩

def decodeSequentialManifest (bytes : Bytes) : Except Exn SequentialManifest := do
  let m ← parse getManifest bytes
  let _ ← encodeSequentialManifest m
  pure m

theorem reads_putField {f : Field} {b : Bytes} (h : putField f = .ok b) : Reads getField b f := by
  obtain ⟨_, _, h⟩ := Except.bind_ok.mp h
  obtain ⟨name, hn, h⟩ := Except.bind_ok.mp h
  cases h
  have hcode := (Reads.byte short f.type.code).map (fun code => (⟨f.name, FieldType.ofCode code⟩ : Field))
  rw [FieldType.ofCode_code] at hcode
  exact (reads_putString hn).bind hcode

theorem reads_putDataFile {covered : U64} {f : DataFile} {b : Bytes} (h : putDataFile covered f = .ok b) :
    Reads getDataFile b f ∧ 4 + 8 + 8 + 8 ≤ b.length := by
  obtain ⟨_, _, h⟩ := Except.bind_ok.mp h
  obtain ⟨path, hp, h⟩ := Except.bind_ok.mp h
  cases h
  refine ⟨(reads_putString hp).bind ((reads_u64 _).bind ((reads_u64 _).bind ((reads_u64 _).map _))), ?_⟩
  obtain ⟨_, rfl⟩ := putString_ok.mp hp
  simp only [List.length_append, u32, u64, length_leBytes]
  omega

theorem decode_encode_manifest {m : SequentialManifest} {b : Bytes}
    (h : encodeSequentialManifest m = .ok b) (hn : m.schema.length ≤ 1024) :
    decodeSequentialManifest b = .ok m := by
  refine Except.bind_ok.mpr ⟨m, ?_, Except.bind_ok.mpr ⟨b, h, rfl⟩⟩
  obtain ⟨_, _, h⟩ := Except.bind_ok.mp h
  obtain ⟨tableId, ht, h⟩ := Except.bind_ok.mp h
  obtain ⟨schema, hs, h⟩ := Except.bind_ok.mp h
  obtain ⟨_, hcount, h⟩ := Except.bind_ok.mp h
  obtain ⟨dataFiles, hd, h⟩ := Except.bind_ok.mp h
  obtain ⟨_, _, h⟩ := Except.bind_ok.mp h
  obtain ⟨batchIndexFiles, hb, h⟩ := Except.bind_ok.mp h
  cases h
  have hschema : Reads (times m.schema.length getField) schema m.schema := by
    simpa using reads_putAll (g := id) (fun f _ c hc => reads_putField hc) hs
  have hfiles : Reads (times m.dataFiles.length getDataFile) dataFiles m.dataFiles := by
    simpa using reads_putAll (g := id) (fun f _ c hc => (reads_putDataFile hc).1) hd
  have hsize := length_putAll (fun f _ c hc => (reads_putDataFile hc).2) hd
  have hcount := throwIf_ok.mp hcount
  unfold uint32Max at hcount
  refine parse_of_reads ?_
  refine (reads_header (by decide)).bind ((reads_putString ht).bind ?_)
  refine (reads_u64 _).bind ((reads_u64 _).bind ((reads_u32 (by omega)).bind ?_))
  refine Reads.unless (by omega) (hschema.bind ((reads_u32 (by omega)).bind ?_))
  exact (reads_bounded hfiles (by decide) hsize).bind ((reads_putStrings hb).map _)

theorem columns_of_decode {m : SequentialManifest} {b : Bytes} (h : decodeSequentialManifest b = .ok m) :
    m.schema.length ≤ 1024 := by
  obtain ⟨m', hm, h⟩ := Except.bind_ok.mp h
  obtain ⟨_, _, h⟩ := Except.bind_ok.mp h
  cases h
  have h := parse_ok.mp hm
  obtain ⟨_, _, _, h⟩ := run_bind_ok.mp h
  obtain ⟨_, _, _, h⟩ := run_bind_ok.mp h
  obtain ⟨_, _, _, h⟩ := run_bind_ok.mp h
  obtain ⟨_, _, _, h⟩ := run_bind_ok.mp h
  obtain ⟨n, _, _, h⟩ := run_bind_ok.mp h
  obtain ⟨_, _, hn, h⟩ := run_bind_ok.mp h
  obtain ⟨schema, _, hs, h⟩ := run_bind_ok.mp h
  obtain ⟨_, _, _, h⟩ := run_bind_ok.mp h
  obtain ⟨_, _, _, h⟩ := run_bind_ok.mp h
  obtain ⟨_, _, _, h⟩ := run_bind_ok.mp h
  cases h
  have hlen := length_times hs
  have hle := (throwIf_run_ok.mp hn).1
  dsimp only
  omega

def putEntry (e : SequentialBatchEntry) : Except Exn Bytes := do
  throwIf (e.batchId = [] ∨ e.seq = 0 ∨ e.operationId = [] ∨ e.payloadDigest.length ≠ 32)
    (.invalidArgument "sequential: invalid batch index entry" : Exn)
  let batchId ← putString e.batchId
  let operationId ← putString e.operationId
  pure (batchId ++ (u64 e.seq ++ (operationId ++ e.payloadDigest)))

def encodeSequentialBatchIndex (entries : List SequentialBatchEntry) : Except Exn Bytes := do
  throwIf (entries.length > uint32Max) (.invalidArgument "sequential: batch index too large" : Exn)
  let es ← putAll putEntry entries
  pure (putHeader "DBI2" ++ (u32 entries.length ++ es))

def getEntry : Reader Exn SequentialBatchEntry := do
  let batchId ← getString
  let seq ← getU64
  let operationId ← getString
  let payloadDigest ← getRaw 32
  pure ⟨batchId, seq, operationId, payloadDigest⟩

def getBatchIndex : Reader Exn (List SequentialBatchEntry) := do
  getHeader "DBI2"
  let count ← getU32
  getBounded count (4 + 8 + 4 + 32) (.invalidArgument "sequential: invalid batch index count")
    (times count getEntry)

def decodeSequentialBatchIndex (bytes : Bytes) : Except Exn (List SequentialBatchEntry) := do
  let entries ← parse getBatchIndex bytes
  let _ ← encodeSequentialBatchIndex entries
  pure entries

theorem reads_putEntry {e : SequentialBatchEntry} {b : Bytes} (h : putEntry e = .ok b) :
    Reads getEntry b e ∧ 4 + 8 + 4 + 32 ≤ b.length := by
  obtain ⟨_, hvalid, h⟩ := Except.bind_ok.mp h
  obtain ⟨batchId, hid, h⟩ := Except.bind_ok.mp h
  obtain ⟨operationId, ho, h⟩ := Except.bind_ok.mp h
  cases h
  have hdigest : e.payloadDigest.length = 32 := by
    have hv := throwIf_ok.mp hvalid
    tauto
  refine ⟨(reads_putString hid).bind ((reads_u64 _).bind ((reads_putString ho).bind
    ((reads_raw hdigest).map _))), ?_⟩
  obtain ⟨_, rfl⟩ := putString_ok.mp hid
  obtain ⟨_, rfl⟩ := putString_ok.mp ho
  simp only [List.length_append, u32, u64, length_leBytes, hdigest]
  omega

theorem decode_encode_index {entries : List SequentialBatchEntry} {b : Bytes}
    (h : encodeSequentialBatchIndex entries = .ok b) : decodeSequentialBatchIndex b = .ok entries := by
  refine Except.bind_ok.mpr ⟨entries, ?_, Except.bind_ok.mpr ⟨b, h, rfl⟩⟩
  obtain ⟨_, hcount, h⟩ := Except.bind_ok.mp h
  obtain ⟨es, he, h⟩ := Except.bind_ok.mp h
  cases h
  have hentries : Reads (times entries.length getEntry) es entries := by
    simpa using reads_putAll (g := id) (fun e _ c hc => (reads_putEntry hc).1) he
  have hsize := length_putAll (fun e _ c hc => (reads_putEntry hc).2) he
  have hcount := throwIf_ok.mp hcount
  unfold uint32Max at hcount
  refine parse_of_reads ?_
  refine (reads_header (by decide)).bind ((reads_u32 (by omega)).bind ?_)
  exact reads_bounded hentries (by decide) hsize

end DBPlayground.Records
