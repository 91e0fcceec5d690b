import DBPlayground.Cloud.Store

namespace DBPlayground.StateStore

open ByteReader Table Wire Records Keys WalCodec Program Store

variable (t : TableDescriptor) (H : Hashes)

def load : StoreMethod (Option VersionedSequentialState) := do
  match ← metaGet (currentKey t) with
  | none => pure none
  | some v =>
    let state ← Program.lift (decodeSequentialState v.value)
    throwIf (state.tableId ≠ t.tableId) (.runtimeError "sequential: CURRENT table mismatch" : Exn)
    pure (some ⟨state, v.version⟩)

def loadManifest (state : SequentialState) : StoreMethod SequentialManifest := do
  match ← metaGet (metaKey t state.manifestKey) with
  | none => throw (.runtimeError "sequential: manifest missing")
  | some v =>
    let m ← Program.lift (decodeSequentialManifest v.value)
    throwIf (m.tableId ≠ t.tableId ∨ m.coveredThroughSeq ≠ state.indexedSeq ∨
        m.schemaVersion ≠ state.schemaVersion ∨ schemasEqual m.schema t.schema = false)
      (.runtimeError "sequential: manifest mismatch" : Exn)
    pure m

def loadBatchIndex : List Bytes → StoreMethod (List SequentialBatchEntry)
  | [] => pure []
  | key :: keys => do
    match ← metaGet (metaKey t key) with
    | none => throw (.runtimeError "sequential: batch index missing")
    | some v =>
      let part ← Program.lift (decodeSequentialBatchIndex v.value)
      let rest ← loadBatchIndex keys
      pure (part ++ rest)

def writeManifest (key : Bytes) (m : SequentialManifest) : StoreMethod ConditionalWriteResult := do
  let bytes ← Program.lift (encodeSequentialManifest m)
  putIfAbsent (metaKey t key) bytes

def writeBatchIndex (key : Bytes) (entries : List SequentialBatchEntry) :
    StoreMethod ConditionalWriteResult := do
  let bytes ← Program.lift (encodeSequentialBatchIndex entries)
  putIfAbsent (metaKey t key) bytes

def initialKey : Bytes := ascii "manifest/initial.meta"

def initialManifest : SequentialManifest := { tableId := t.tableId, schema := t.schema }

def initialState : SequentialState := { tableId := t.tableId, manifestKey := initialKey }

/-- The collision check of `Initialize` when the initial manifest is already
there. -/
def checkInitialManifest : StoreMethod Unit := do
  let existing ← metaGet (metaKey t initialKey)
  let bytes ← Program.lift (encodeSequentialManifest (initialManifest t))
  throwIf (existing.map (·.value) ≠ some bytes)
    (.runtimeError "sequential: initial manifest collision" : Exn)

def putInitialState : StoreMethod ConditionalWriteResult := do
  let bytes ← Program.lift (encodeSequentialState (initialState t))
  putIfAbsent (currentKey t) bytes

def initializeTable : StoreMethod ConditionalWriteResult := do
  match ← writeManifest t initialKey (initialManifest t) with
  | .retryableConflict => pure .retryableConflict
  | .preconditionFailed =>
    checkInitialManifest t
    putInitialState t
  | .applied _ => putInitialState t

def compareExchange (expected : VersionedSequentialState) (next : SequentialState) :
    StoreMethod ConditionalWriteResult := do
  throwIf (next.tableId ≠ t.tableId ∨ next.stateVersion ≠ expected.state.stateVersion + 1 ∨
      next.writerEpoch < expected.state.writerEpoch ∨ next.indexedSeq < expected.state.indexedSeq ∨
      next.publishedSeq < expected.state.publishedSeq ∨ next.indexedSeq > next.publishedSeq)
    (.invalidArgument "sequential: invalid CURRENT transition" : Exn)
  let bytes ← Program.lift (encodeSequentialState next)
  Store.compareExchange (currentKey t) expected.version bytes

/-- `ReadAll` refuses objects above 256 MiB. -/
def maxWalBytes : Nat := 268435456

def loadSequentialWal (seq : U64) : StoreMethod (Option SequentialWal) := do
  let path ← Program.lift (sequentialWalKey t seq)
  match ← openInput path with
  | none => pure none
  | some bytes =>
    throwIf (bytes.length > maxWalBytes) (.runtimeError "sequential: WAL too large" : Exn)
    let wal ← Program.lift (decodeSequentialWal H t.schema bytes)
    throwIf (wal.seq ≠ seq ∨ wal.tableId ≠ t.tableId ∨ wal.schemaVersion ≠ 1)
      (.runtimeError "sequential: WAL identity mismatch" : Exn)
    pure (some wal)

end DBPlayground.StateStore
