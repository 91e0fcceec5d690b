import DBPlayground.Cloud.WalIndexer

namespace DBPlayground.SnapshotLoader

open ByteReader Table Wire Records Keys WalCodec Program Session Store StateStore TableWriter WalIndexer

variable (t : TableDescriptor) (H : Hashes)

/-- The WALs in `(seq, seq + n]`, or nothing if one is missing. -/
def requiredWals : U64 → Nat → StoreMethod (Option (List SequentialWal))
  | _, 0 => pure (some [])
  | seq, n + 1 => do
    match ← loadSequentialWal t H (seq + 1) with
    | none => pure none
    | some wal =>
      match ← requiredWals (seq + 1) n with
      | none => pure none
      | some rest => pure (some (wal :: rest))

/-- The snapshot of one attempt, from the state, the manifest and the WALs
behind the indexed and behind the published sequence number. -/
def snapshot (current : VersionedSequentialState) (m : SequentialManifest) (probeLimit : Nat)
    (required probed : List SequentialWal) : TableSnapshot where
  currentMetadataVersion := current.version
  currentStateVersion := current.state.stateVersion
  writerEpoch := current.state.writerEpoch
  manifestKey := current.state.manifestKey
  dataFiles := m.dataFiles.map (·.path)
  walFiles := (required ++ probed).map fun wal => walPath t wal.seq
  publishedSeq := current.state.publishedSeq
  indexedSeq := current.state.indexedSeq
  walChunks := (appended (required ++ probed)).flatMap (·.chunks)
  probedWalCount := probed.length
  probeLimitReached := decide (probeLimit > 0 ∧ probed.length = probeLimit)

/-- The attempts of `Load`; one that misses a published WAL is repeated. -/
def loadLoop (probeLimit : Nat) : Nat → StoreMethod (Option TableSnapshot)
  | 0 => throw (.runtimeError "TableSnapshotLoader: published WAL is missing")
  | attempts + 1 => do
    match ← load t with
    | none => pure none
    | some current =>
      let m ← loadManifest t current.state
      let first := current.state.indexedSeq
      let last := current.state.publishedSeq
      match ← requiredWals t H first (last.toNat - first.toNat) with
      | none => loadLoop probeLimit attempts
      | some required =>
        let probed ← collectWals t H last (min probeLimit (uint64Max.toNat - last.toNat))
        pure (some (snapshot t current m probeLimit required probed))

def loadSnapshot (probeLimit : Nat) : Step := do
  let r ← loadLoop t H probeLimit 2
  pure (.done (.loaded r))

end DBPlayground.SnapshotLoader
