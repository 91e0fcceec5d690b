import DBPlayground.Cloud.TableWriter

namespace DBPlayground.WalIndexer

open ByteReader Table Wire Records Keys WalCodec Program Session Store StateStore TableWriter

/-- The columnar file format used for data files: the bytes it writes for a
list of chunks, and the rows a reader of such bytes delivers. -/
structure DataFormat where
  write : List Chunk → Except Exn Bytes
  read : Bytes → Option (List (List (Option Value)))

def maxWalPerPass : Nat := 256

/-- `std::string`'s order: bytes compared as unsigned numbers, then length. -/
def bytesLe : Bytes → Bytes → Bool
  | [], _ => true
  | _ :: _, [] => false
  | a :: as, b :: bs => a.toNat < b.toNat || (a == b && bytesLe as bs)

def uniqueAfter (last : SequentialBatchEntry) : List SequentialBatchEntry → List SequentialBatchEntry
  | [] => []
  | e :: es => if e.batchId = last.batchId then uniqueAfter last es else e :: uniqueAfter e es

/-- `std::unique` by batch id: of neighbours with one id the first stays. -/
def unique : List SequentialBatchEntry → List SequentialBatchEntry
  | [] => []
  | e :: es => e :: uniqueAfter e es

def sortEntries (entries : List SequentialBatchEntry) : List SequentialBatchEntry :=
  unique (entries.mergeSort fun a b => bytesLe a.batchId b.batchId)

def appended (wals : List SequentialWal) : List SequentialWal := wals.filter (·.kind = .append)

variable (t : TableDescriptor) (H : Hashes) (F : DataFormat)

def collectWals : U64 → Nat → StoreMethod (List SequentialWal)
  | _, 0 => pure []
  | seq, n + 1 => do
    match ← loadSequentialWal t H (seq + 1) with
    | none => pure []
    | some wal =>
      let rest ← collectWals (seq + 1) n
      pure (wal :: rest)

def indexResult (code : CloudIndexCode) (state : Option SequentialState) : CloudIndexResult :=
  match state with
  | some s => ⟨code, s.indexedSeq, s.publishedSeq⟩
  | none => ⟨code, 0, 0⟩

/-- Write the chunks of a pass to a new data file, or nothing if the generated
key is not a data key. -/
def writeDataFile (chunks : List Chunk) : StoreMethod (Option Bytes) := do
  let key ← newDataFileKey
  if key.take 5 ≠ ascii "data/" then pure none else
  let bytes ← Program.lift (F.write chunks)
  writeFile (dataPath t key) bytes
  pure (some (dataPath t key))

def rowTotal (chunks : List Chunk) : U64 := BitVec.ofNat 64 (chunks.map (·.rowCount)).sum

/-- The manifest of a pass with its new data file, if there are rows. -/
def extendManifest (m : SequentialManifest) (first last : U64) (chunks : List Chunk) :
    StoreMethod (Option SequentialManifest) := do
  if chunks = [] then pure (some m) else
  match ← writeDataFile t F chunks with
  | none => pure none
  | some path => pure (some { m with dataFiles := m.dataFiles ++ [⟨path, first, last, rowTotal chunks⟩] })

def indexedState (state : SequentialState) (last : U64) (key : Bytes) : SequentialState :=
  { state with
    stateVersion := state.stateVersion + 1
    indexedSeq := last
    publishedSeq := if state.publishedSeq < last then last else state.publishedSeq
    manifestKey := key }

/-- Write index, manifest and CURRENT. The answer is the reply, or nothing
where the source goes on to its next attempt. -/
def publishIndex (current : VersionedSequentialState) (m : SequentialManifest)
    (entries : List SequentialBatchEntry) (last : U64) : StoreMethod (Option CloudIndexResult) := do
  let manifestKey ← newManifestKey
  if manifestKey.take 9 ≠ ascii "manifest/" then
    pure (some (indexResult .invalidState (some current.state)))
  else
    let dedupKey := ascii "dedup/" ++ (manifestKey.drop 9 ++ ascii ".idx")
    match ← writeBatchIndex t dedupKey (sortEntries entries) with
    | .applied _ =>
      match ← writeManifest t manifestKey
          { m with batchIndexFiles := [dedupKey], coveredThroughSeq := last } with
      | .applied _ =>
        let next := indexedState current.state last manifestKey
        match ← StateStore.compareExchange t current next with
        | .applied _ => pure (some (indexResult .indexed (some next)))
        | _ => pure none
      | _ => pure none
    | _ => pure none

def indexPass : StoreMethod (Option CloudIndexResult) := do
  match ← load t with
  | none => pure (some (indexResult .nothingToDo none))
  | some current =>
    let m ← loadManifest t current.state
    let entries ← loadBatchIndex t m.batchIndexFiles
    let start := current.state.indexedSeq
    let wals ← collectWals t H start (min maxWalPerPass (uint64Max.toNat - start.toNat))
    if wals = [] then pure (some (indexResult .nothingToDo (some current.state))) else
    let last := start + BitVec.ofNat 64 wals.length
    match ← extendManifest t F m (start + 1) last ((appended wals).flatMap (·.chunks)) with
    | none => pure (some (indexResult .invalidState (some current.state)))
    | some m =>
      publishIndex t current m (entries ++ (appended wals).flatMap fun wal => entriesOf wal.seq wal) last

def indexLoop : Nat → StoreMethod CloudIndexResult
  | 0 => do
    let current ← load t
    pure (indexResult .retryableConflict (current.map (·.state)))
  | attempts + 1 => do
    match ← indexPass t H F with
    | some r => pure r
    | none => indexLoop attempts

def index (attempts : Nat) : Step := do
  let r ← indexLoop t H F attempts
  pure (.done (.indexed r))

end DBPlayground.WalIndexer
