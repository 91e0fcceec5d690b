import DBPlayground.Cloud.Records

namespace DBPlayground.WalCodec

open ByteReader Table Wire Records

/-- The checksum and digest functions taken from zlib and OpenSSL. -/
structure Hashes where
  crc32 : Bytes → BitVec 32
  sha256 : Bytes → Bytes
  sha256_length : ∀ b, (sha256 b).length = 32

inductive WalKind
  | append
  | fence
  deriving DecidableEq, Repr

def WalKind.code : WalKind → Byte
  | .append => 1
  | .fence => 2

structure SequentialWal where
  kind : WalKind := .append
  tableId : Bytes
  seq : U64
  writerEpoch : U64
  schemaVersion : U64 := 1
  operationId : Bytes
  batchIds : List Bytes := []
  chunks : List Chunk := []
  payloadDigest : Bytes := []
  deriving DecidableEq, Repr

variable (H : Hashes) (schema : Schema)

/-- `Crc` hands the length on as an unsigned 32-bit number. -/
def crc (b : Bytes) : Nat := (H.crc32 (b.take (b.length % 2 ^ 32))).toNat

def cell (col : Column) (row : Nat) : Except Exn Value :=
  (col.cell? row).elim (.error (.invalidArgument "sequential: invalid cell type")) .ok

def putRow (chunk : Chunk) (row : Nat) : Except Exn Bytes := do
  let values ← chunk.columns.mapM (cell · row)
  let encoded ← RowCodec.encode schema values
  putString encoded

def payload (chunk : Chunk) : Except Exn Bytes :=
  putAll (putRow schema chunk) (List.range chunk.rowCount)

def entry (rows size : Nat) (payload : Bytes) : Bytes := u32 rows ++ (u32 size ++ payload)

def chunkEntry (chunk : Chunk) : Except Exn Bytes := do
  throwIf (isFullSchemaChunk chunk schema = false ∨ chunk.rowCount > uint32Max)
    (.invalidArgument "sequential: invalid WAL chunk" : Exn)
  let p ← payload schema chunk
  pure (entry chunk.rowCount p.length p)

def totalRows (chunks : List Chunk) : U64 := BitVec.ofNat 64 (chunks.map (·.rowCount)).sum

def logical (version : U64) (ids : Bytes) (entries : List Bytes) : Bytes :=
  u64 version ++ (ids ++ entries.flatten)

def putWalHeader (wal : SequentialWal) : Except Exn Bytes := do
  let tableId ← putString wal.tableId
  let operationId ← putString wal.operationId
  let ids ← putStrings wal.batchIds
  pure (putHeader "DBW2" ++ ([wal.kind.code] ++ (tableId ++ (u64 wal.seq ++ (u64 wal.writerEpoch ++
    (u64 wal.schemaVersion ++ (operationId ++ ids)))))))

def walBody (header ids : Bytes) (wal : SequentialWal) (entries : List Bytes) : Bytes :=
  header ++ (u32 wal.chunks.length ++ (entries.flatMap (fun e => e ++ u32 (crc H e)) ++
    (u64 (totalRows wal.chunks) ++ H.sha256 (logical wal.schemaVersion ids entries))))

def encodeSequentialWal (wal : SequentialWal) : Except Exn Bytes := do
  throwIf (wal.tableId = [] ∨ wal.seq = 0 ∨ wal.writerEpoch = 0 ∨ wal.operationId = [])
    (.invalidArgument "sequential: invalid WAL header" : Exn)
  throwIf (wal.kind = .append ∧ (wal.batchIds = [] ∨ wal.chunks = []))
    (.invalidArgument "sequential: empty Append WAL" : Exn)
  throwIf (wal.kind = .fence ∧ (wal.batchIds ≠ [] ∨ wal.chunks ≠ []))
    (.invalidArgument "sequential: nonempty Fence WAL" : Exn)
  throwIf (wal.schemaVersion ≠ 1 ∨ wal.chunks.length > uint32Max)
    (.invalidArgument "sequential: unsupported WAL schema or chunk count" : Exn)
  let header ← putWalHeader wal
  let ids ← putStrings wal.batchIds
  let entries ← wal.chunks.mapM (chunkEntry schema)
  let body := walBody H header ids wal entries
  pure (body ++ (u32 (crc H body) ++ ascii "DBW2"))

def getKind : Reader Exn WalKind := do
  let code ← getU8
  if code = WalKind.append.code then pure .append
  else if code = WalKind.fence.code then pure .fence
  else throw (.invalidArgument "sequential: bad WAL kind")

def getWalHeader : Reader Exn SequentialWal := do
  getHeader "DBW2"
  let kind ← getKind
  let tableId ← getString
  let seq ← getU64
  let writerEpoch ← getU64
  let schemaVersion ← getU64
  let operationId ← getString
  let batchIds ← getStrings
  pure ⟨kind, tableId, seq, writerEpoch, schemaVersion, operationId, batchIds, [], []⟩

def columnIds : List Int := (List.range schema.length).map Int.ofNat

def getRows : Nat → List Column → Reader Exn (List Column)
  | 0, cols => pure cols
  | rows + 1, cols => do
    let encoded ← getString
    let cols ← fromExcept (RowCodec.decodeInto schema encoded (columnIds schema) cols)
    getRows rows cols

def getChunk : Reader Exn (Bytes × Chunk) := do
  let rows ← getU32
  throwIf (rows = 0) (.invalidArgument "sequential: empty WAL chunk" : Exn)
  let size ← getU32
  let payload ← getRaw size
  let checksum ← getU32
  throwIf (checksum ≠ crc H (entry rows size payload))
    (.invalidArgument "sequential: bad chunk CRC" : Exn)
  let cols ← fromExcept (parse (getRows schema rows (schema.map (Column.new ·.type))) payload)
  pure (entry rows size payload, ⟨columnIds schema, cols, rows⟩)

def getWalContents : Reader Exn SequentialWal := do
  let wal ← getWalHeader
  let count ← getU32
  throwIf (count > 1000000) (.invalidArgument "sequential: too many WAL chunks" : Exn)
  let ids ← fromExcept (putStrings wal.batchIds)
  let parts ← times count (getChunk H schema)
  let total ← getU64
  throwIf (total ≠ totalRows (parts.map (·.2))) (.invalidArgument "sequential: row count mismatch" : Exn)
  let digest ← getRaw 32
  throwIf (digest ≠ H.sha256 (logical wal.schemaVersion ids (parts.map (·.1))))
    (.invalidArgument "sequential: digest mismatch" : Exn)
  pure { wal with chunks := parts.map (·.2), payloadDigest := digest }

def getFooter (bytes : Bytes) : Reader Exn Unit := do
  let left ← remaining
  throwIf (left ≠ 8) (.invalidArgument "sequential: bad WAL footer" : Exn)
  let checksum ← getU32
  throwIf (checksum ≠ crc H (bytes.take (bytes.length - 8)))
    (.invalidArgument "sequential: bad WAL CRC" : Exn)
  getMagic "DBW2"

def getWal (bytes : Bytes) : Reader Exn SequentialWal := do
  let wal ← getWalContents H schema
  getFooter H bytes
  pure wal

def decodeSequentialWal (bytes : Bytes) : Except Exn SequentialWal := do
  throwIf (bytes.length < 8) (.invalidArgument "sequential: short WAL" : Exn)
  let wal ← parse (getWal H schema bytes) bytes
  throwIf (wal.tableId = [] ∨ wal.seq = 0 ∨ wal.writerEpoch = 0 ∨ wal.operationId = [] ∨
      (wal.kind = .append ∧ (wal.batchIds = [] ∨ wal.chunks = [])) ∨
      (wal.kind = .fence ∧ (wal.batchIds ≠ [] ∨ wal.chunks ≠ [])))
    (.invalidArgument "sequential: invalid WAL contents" : Exn)
  pure wal

end DBPlayground.WalCodec
