import DBPlayground.Cloud.StateStore

namespace DBPlayground.TableWriter

open ByteReader Table Wire Records Keys WalCodec Program Session Store StateStore

abbrev Step := StoreMethod (Outcome Call Reply)

def uint64Max : U64 := 18446744073709551615

variable (t : TableDescriptor) (H : Hashes)

def startReply (code : CloudWriterStartCode) (epoch : U64) : Outcome Call Reply :=
  .done (.started ⟨code, epoch⟩)

def startingState : StoreMethod (Option VersionedSequentialState) := do
  match ← load t with
  | some state => pure (some state)
  | none =>
    match ← initializeTable t with
    | .retryableConflict => pure none
    | _ => load t

/-- The attempts to raise the writer epoch, each after the first on a freshly
loaded state. -/
def acquireEpoch : Nat → VersionedSequentialState → Step
  | 0, _ => pure (startReply .contended 0)
  | attempts + 1, state => do
    if state.state.writerEpoch = uint64Max then pure (startReply .invalidTable 0) else
    let next := { state.state with
      writerEpoch := state.state.writerEpoch + 1
      stateVersion := state.state.stateVersion + 1 }
    match ← StateStore.compareExchange t state next with
    | .applied _ => pure (.tail (.fence (next.indexedSeq + 1) next.writerEpoch))
    | .retryableConflict => pure (startReply .retryableConflict 0)
    | .preconditionFailed =>
      match ← load t with
      | none => pure (startReply .retryableConflict 0)
      | some state => acquireEpoch attempts state

def start (attempts : Nat) : Step := do
  let me ← self
  match me.currentState with
  | some current => pure (startReply .started current.state.writerEpoch)
  | none =>
    match ← startingState t with
    | none => pure (startReply .retryableConflict 0)
    | some state => acquireEpoch t attempts state

def fenceWal (seq epoch : U64) : SequentialWal :=
  { kind := .fence, tableId := t.tableId, seq := seq, writerEpoch := epoch,
    operationId := ascii ("fence-" ++ toString epoch.toNat) }

/-- The last check of `Start`, once the fence is in place. The loaded state is
stored only when it still carries the epoch; the source stores it first and
resets it before any further request. -/
def finishStart (seq epoch : U64) : Step := do
  let current ← load t
  let me ← self
  match current with
  | none =>
    setSelf { me with currentState := none }
    pure (startReply .contended 0)
  | some current =>
    if current.state.writerEpoch ≠ epoch then
      setSelf { me with currentState := none }
      pure (startReply .contended 0)
    else
      setSelf ⟨some current, seq + 1⟩
      pure (startReply .started epoch)

/-- Create the fence at an empty slot, or go on to the next one. -/
def placeFence (seq epoch : U64) : Step := do
  let bytes ← Program.lift (encodeSequentialWal H t.schema (fenceWal t seq epoch))
  let path ← Program.lift (sequentialWalKey t seq)
  match ← createIfAbsent path bytes with
  | .alreadyExists => pure (.tail (.fence (seq + 1) epoch))
  | .created => finishStart t seq epoch
  | .retryableConflict =>
    match ← loadSequentialWal t H seq with
    | none => pure (startReply .retryableConflict 0)
    | some landed =>
      if landed.kind ≠ .fence ∨ landed.writerEpoch ≠ epoch ∨
          landed.operationId ≠ (fenceWal t seq epoch).operationId then
        pure (startReply .retryableConflict 0)
      else finishStart t seq epoch

def fence (seq epoch : U64) : Step := do
  match ← load t with
  | none => pure (startReply .retryableConflict 0)
  | some latest =>
    if latest.state.writerEpoch ≠ epoch then pure (startReply .contended 0) else
    let seq := if seq ≤ latest.state.indexedSeq then latest.state.indexedSeq + 1 else seq
    match ← loadSequentialWal t H seq with
    | some _ => pure (.tail (.fence (seq + 1) epoch))
    | none => placeFence t H seq epoch

def isValidBatch (batch : CloudImportBatch) : Bool :=
  !batch.batchIds.isEmpty && !batch.chunks.isEmpty &&
    batch.batchIds.all (fun id => !id.isEmpty) && decide batch.batchIds.Nodup &&
    batch.chunks.all (isFullSchemaChunk · t.schema)

def result (current : Option VersionedSequentialState) (code : CloudImportCode) : CloudImportResult :=
  match current with
  | some c => ⟨code, c.state.writerEpoch, c.state.publishedSeq, 0⟩
  | none => ⟨code, 0, 0, 0⟩

def answer (code : CloudImportCode) (walSeq : U64) : Step := do
  let me ← self
  pure (.done (.imported { result me.currentState code with walSeq := walSeq }))

def batchWal (batch : CloudImportBatch) (seq epoch : U64) : SequentialWal :=
  { tableId := t.tableId, seq := seq, writerEpoch := epoch, operationId := batch.batchIds.headD [],
    batchIds := batch.batchIds, chunks := batch.chunks }

def entriesOf (seq : U64) (wal : SequentialWal) : List SequentialBatchEntry :=
  wal.batchIds.map fun id => ⟨id, seq, wal.operationId, wal.payloadDigest⟩

/-- The batches of the WALs in `[seq, seq + n)`, or nothing if one is missing. -/
def scanWals : U64 → Nat → StoreMethod (Option (List SequentialBatchEntry))
  | _, 0 => pure (some [])
  | seq, n + 1 => do
    match ← loadSequentialWal t H seq with
    | none => pure none
    | some wal =>
      match ← scanWals (seq + 1) n with
      | none => pure none
      | some rest => pure (some (entriesOf seq wal ++ rest))

/-- How many ids of a batch are known and the slot they share, or nothing if
a known one belongs to a different request. -/
def countKnown (known : List SequentialBatchEntry) (operationId digest : Bytes) :
    List Bytes → Nat → U64 → Option (Nat × U64)
  | [], already, prior => some (already, prior)
  | id :: ids, already, prior =>
    match known.find? (·.batchId == id) with
    | none => countKnown known operationId digest ids already prior
    | some e =>
      if e.operationId ≠ operationId ∨ e.payloadDigest ≠ digest ∨ (prior ≠ 0 ∧ prior ≠ e.seq) then none
      else countKnown known operationId digest ids (already + 1) e.seq

/-- Decide what a create that was not reported as successful left behind:
nothing if the slot holds this very WAL, else the code to reply with. -/
def checkLanded (wal : SequentialWal) (bytes : Bytes) : StoreMethod (Option CloudImportCode) := do
  match ← loadSequentialWal t H wal.seq with
  | none => pure (some .retryableConflict)
  | some landed =>
    if landed.writerEpoch ≠ wal.writerEpoch then
      let me ← self
      setSelf { me with currentState := none }
      pure (some .fenced)
    else if landed.kind ≠ .append ∨ landed.operationId ≠ wal.operationId then
      pure (some .retryableConflict)
    else
      let again ← Program.lift (encodeSequentialWal H t.schema landed)
      pure (if again ≠ bytes then some .retryableConflict else none)

/-- The end of `Import` once the slot holds the batch. -/
def afterCreate (batch : CloudImportBatch) (wal : SequentialWal) : Step := do
  let me ← self
  setSelf { me with nextSeq := me.nextSeq + 1 }
  match batch.visibility with
  | .deferred => answer .durable wal.seq
  | .immediate => pure (.tail (.publish batch wal.seq wal.writerEpoch))

def appendBatch (batch : CloudImportBatch) (nextSeq epoch : U64) : Step := do
  if nextSeq = uint64Max then answer .invalidRequest 0 else
  let wal := batchWal t batch nextSeq epoch
  let path ← Program.lift (sequentialWalKey t wal.seq)
  match encodeSequentialWal H t.schema wal with
  | .error (.invalidArgument _) => answer .invalidRequest 0
  | .error e => throw e
  | .ok bytes =>
    match ← createIfAbsent path bytes with
    | .created => afterCreate batch wal
    | _ =>
      match ← checkLanded t H wal bytes with
      | some code => answer code 0
      | none => afterCreate batch wal

/-- Answer a batch all of whose ids are known to be at slot `prior`. -/
def answerKnown (batch : CloudImportBatch) (latest : SequentialState) (prior : U64) : Step := do
  if prior ≤ latest.publishedSeq then answer .alreadyCommitted prior else
  match batch.visibility with
  | .immediate => pure (.tail (.publish batch prior latest.writerEpoch))
  | .deferred => answer .durable prior

/-- The part of `Import` after the epoch check. -/
def importKnown (batch : CloudImportBatch) (latest : SequentialState) (nextSeq : U64) : Step := do
  let requestBytes ← Program.lift (encodeSequentialWal H t.schema (batchWal t batch 1 1))
  let requested ← Program.lift (decodeSequentialWal H t.schema requestBytes)
  let manifest ← loadManifest t latest
  let indexed ← loadBatchIndex t manifest.batchIndexFiles
  match ← scanWals t H (latest.indexedSeq + 1) (nextSeq.toNat - (latest.indexedSeq + 1).toNat) with
  | none => answer .retryableConflict 0
  | some scanned =>
    match countKnown (indexed ++ scanned) (batch.batchIds.headD []) requested.payloadDigest
        batch.batchIds 0 0 with
    | none => answer .invalidRequest 0
    | some (already, prior) =>
      if already = batch.batchIds.length then answerKnown batch latest prior
      else if already ≠ 0 then answer .invalidRequest 0
      else appendBatch t H batch nextSeq latest.writerEpoch

def importBatch (batch : CloudImportBatch) : Step := do
  let me ← self
  match me.currentState with
  | none => answer .notStarted 0
  | some current =>
    if isValidBatch t batch = false then answer .invalidRequest 0 else
    match ← load t with
    | none => answer .retryableConflict 0
    | some latest =>
      if latest.state.writerEpoch ≠ current.state.writerEpoch then
        setSelf { me with currentState := none }
        answer .fenced 0
      else
        setSelf { me with currentState := some latest }
        importKnown t H batch latest.state me.nextSeq

/-- The attempts to publish; `refused` is the reply when they are used up. -/
def publishLoop (seq epoch : U64) (refused : CloudImportResult) : Nat → Step
  | 0 => pure (.done (.imported refused))
  | attempts + 1 => do
    match ← load t with
    | none => pure (.done (.imported refused))
    | some latest =>
      if latest.state.publishedSeq ≥ seq then
        let me ← self
        setSelf { me with currentState := some latest }
        answer .committed seq
      else if latest.state.writerEpoch ≠ epoch then pure (.done (.imported refused))
      else
        let next := { latest.state with
          publishedSeq := seq
          stateVersion := latest.state.stateVersion + 1 }
        match ← StateStore.compareExchange t latest next with
        | .applied version =>
          let me ← self
          setSelf { me with currentState := some ⟨next, version⟩ }
          answer .committed seq
        | _ => publishLoop seq epoch refused attempts

def publish (attempts : Nat) (seq epoch : U64) : Step := do
  let me ← self
  publishLoop t seq epoch { result me.currentState .retryableConflict with walSeq := seq } attempts

end DBPlayground.TableWriter
