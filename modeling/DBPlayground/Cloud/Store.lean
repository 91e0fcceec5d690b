import DBPlayground.Cloud.Keys
import DBPlayground.Cloud.WalCodec
import DBPlayground.Lib.Session

namespace DBPlayground.Store

open ByteReader Table Wire Records WalCodec Program Session

structure VersionedValue where
  value : Bytes
  version : Nat
  deriving DecidableEq, Repr

inductive ConditionalWriteResult
  | applied (version : Nat)
  | preconditionFailed
  | retryableConflict
  deriving DecidableEq, Repr

inductive CreateFileResult
  | created
  | alreadyExists
  | retryableConflict
  deriving DecidableEq, Repr

structure VersionedSequentialState where
  state : SequentialState
  version : Nat
  deriving DecidableEq, Repr

inductive Visibility
  | immediate
  | deferred
  deriving DecidableEq, Repr

structure CloudImportBatch where
  batchIds : List Bytes
  chunks : List Chunk
  visibility : Visibility := .immediate
  deriving DecidableEq, Repr

structure Writer where
  currentState : Option VersionedSequentialState := none
  nextSeq : U64 := 0
  deriving DecidableEq, Repr

/-- The calls on a writer, an indexer or a snapshot loader. `fence` is one
round of the loop that ends `Start`, `publish` the call that ends `Import`. -/
inductive Call
  | start
  | fence (seq epoch : U64)
  | importBatch (batch : CloudImportBatch)
  | publish (batch : CloudImportBatch) (seq epoch : U64)
  | index
  | load (probeLimit : Nat)
  deriving DecidableEq, Repr

/-- The requests. `self` and `setSelf` read and assign the fields of the
object itself; assignments with no request between them are one `setSelf`. -/
inductive Op
  | metaGet (key : Bytes)
  | putIfAbsent (key value : Bytes)
  | compareExchange (key : Bytes) (expected : Nat) (value : Bytes)
  | openInput (path : Bytes)
  | createIfAbsent (path bytes : Bytes)
  | writeFile (path bytes : Bytes)
  | newDataFileKey
  | newManifestKey
  | self
  | setSelf (x : Writer)
  deriving DecidableEq, Repr

abbrev Res : Op → Type
  | .metaGet _ => Option VersionedValue
  | .putIfAbsent _ _ | .compareExchange _ _ _ => ConditionalWriteResult
  | .openInput _ => Option Bytes
  | .createIfAbsent _ _ => CreateFileResult
  | .newDataFileKey | .newManifestKey => Bytes
  | .self => Writer
  | .writeFile _ _ | .setSelf _ => Unit

abbrev Ans (o : Op) := Except Exn (Res o)

abbrev StoreMethod := Method Op Ans Exn

def request (o : Op) : StoreMethod (Res o) := @ask Op Exn Res o

def metaGet (key : Bytes) : StoreMethod (Option VersionedValue) := request (.metaGet key)

def putIfAbsent (key value : Bytes) : StoreMethod ConditionalWriteResult := request (.putIfAbsent key value)

def compareExchange (key : Bytes) (expected : Nat) (value : Bytes) : StoreMethod ConditionalWriteResult :=
  request (.compareExchange key expected value)

def openInput (path : Bytes) : StoreMethod (Option Bytes) := request (.openInput path)

def createIfAbsent (path bytes : Bytes) : StoreMethod CreateFileResult := request (.createIfAbsent path bytes)

def writeFile (path bytes : Bytes) : StoreMethod Unit := request (.writeFile path bytes)

def newDataFileKey : StoreMethod Bytes := request .newDataFileKey

def newManifestKey : StoreMethod Bytes := request .newManifestKey

def self : StoreMethod Writer := request .self

def setSelf (x : Writer) : StoreMethod Unit := request (.setSelf x)

inductive CloudImportCode
  | committed | durable | alreadyCommitted | notStarted | fenced | retryableConflict | invalidRequest
  deriving DecidableEq, Repr

structure CloudImportResult where
  code : CloudImportCode
  writerEpoch : U64
  publishedSeq : U64
  walSeq : U64 := 0
  deriving DecidableEq, Repr

inductive CloudWriterStartCode
  | started | contended | retryableConflict | invalidTable
  deriving DecidableEq, Repr

structure CloudWriterStartResult where
  code : CloudWriterStartCode
  writerEpoch : U64
  deriving DecidableEq, Repr

inductive CloudIndexCode
  | indexed | nothingToDo | retryableConflict | invalidState
  deriving DecidableEq, Repr

structure CloudIndexResult where
  code : CloudIndexCode
  indexedSeq : U64
  publishedSeq : U64
  deriving DecidableEq, Repr

structure TableSnapshot where
  currentMetadataVersion : Nat
  currentStateVersion : U64
  writerEpoch : U64
  manifestKey : Bytes
  dataFiles : List Bytes
  walFiles : List Bytes
  publishedSeq : U64
  indexedSeq : U64
  walChunks : List Chunk
  probedWalCount : Nat
  probeLimitReached : Bool
  deriving DecidableEq, Repr

inductive Reply
  | started (r : CloudWriterStartResult)
  | imported (r : CloudImportResult)
  | indexed (r : CloudIndexResult)
  | loaded (r : Option TableSnapshot)
  | threw (e : Exn)
  deriving DecidableEq, Repr

/-- What the surroundings decide about one request: to answer it, to answer a
conflict or an exception although the write took effect or because it did not,
or which key a generator returns. -/
inductive Env
  | answer
  | conflict (applied : Bool)
  | fault (what : String) (applied : Bool)
  | key (k : Bytes)
  deriving DecidableEq, Repr

/-- One life of a writer object, from a `Start` that finds it not started. -/
abbrev Author (ι : Type) := ι × Nat

structure Creation (ι : Type) where
  path : Bytes
  bytes : Bytes
  author : Author ι
  deriving DecidableEq, Repr

/-- The stores and the writer objects. The last three fields record the
history: the lives of each object, the conditional creates that took effect in
their order, and the epochs gained by the compare-and-swap of `Start`. -/
structure World (ι : Type) where
  entries : Bytes → Option VersionedValue
  nextVersion : Nat
  files : Bytes → Option Bytes
  issued : Bytes → Option ι
  writers : ι → Writer
  incarnation : ι → Nat
  created : List (Creation ι)
  acquired : List (Author ι × U64)

namespace World

variable {ι : Type}

def empty : World ι := ⟨fun _ => none, 0, fun _ => none, fun _ => none, fun _ => {}, fun _ => 0, [], []⟩

def put (w : World ι) (key value : Bytes) : World ι :=
  { w with
    entries := Function.update w.entries key (some ⟨value, w.nextVersion⟩)
    nextVersion := w.nextVersion + 1 }

def create (w : World ι) (i : ι) (path bytes : Bytes) : World ι :=
  { w with
    files := Function.update w.files path (some bytes)
    created := w.created ++ [⟨path, bytes, (i, w.incarnation i)⟩] }

def write (w : World ι) (path bytes : Bytes) : World ι :=
  { w with files := Function.update w.files path (some bytes) }

def issue (w : World ι) (i : ι) (key : Bytes) : World ι :=
  { w with issued := Function.update w.issued key (some i) }

def addAcquired (w : World ι) (i : ι) (e : U64) : World ι :=
  { w with acquired := w.acquired ++ [((i, w.incarnation i), e)] }

/-- The epoch written by a compare-and-swap of `Start` that reported success. -/
def acquire (w : World ι) (i : ι) (c : Call) (value : Bytes) : World ι :=
  match c, decodeSequentialState value with
  | .start, .ok s => w.addAcquired i s.writerEpoch
  | _, _ => w

variable [DecidableEq ι]

def setWriter (w : World ι) (i : ι) (x : Writer) : World ι :=
  { w with writers := Function.update w.writers i x }

@[simp]
theorem setWriter_writers (w : World ι) (i : ι) (x : Writer) : (w.setWriter i x).writers i = x := by
  simp only [setWriter, Function.update_self]

/-- A `Start` that finds its object not started begins a new life. -/
def enter (w : World ι) (i : ι) (c : Call) : World ι :=
  match c, (w.writers i).currentState with
  | .start, none => { w with incarnation := Function.update w.incarnation i (w.incarnation i + 1) }
  | _, _ => w

end World

variable {ι : Type} [DecidableEq ι]

def perform (i : ι) (c : Call) (e : Env) : (o : Op) → World ι → Option (Ans o × World ι)
  | .metaGet key, w => match e with
    | .answer => some (.ok (w.entries key), w)
    | .fault what _ => some (.error (.runtimeError what), w)
    | _ => none
  | .putIfAbsent key value, w =>
    let done := if w.entries key = none then w.put key value else w
    match e with
    | .answer => some (.ok (if w.entries key = none then .applied w.nextVersion else .preconditionFailed), done)
    | .conflict applied => some (.ok .retryableConflict, if applied then done else w)
    | .fault what applied => some (.error (.runtimeError what), if applied then done else w)
    | .key _ => none
  | .compareExchange key expected value, w =>
    let ok := (w.entries key).map (·.version) = some expected
    let done := if ok then w.put key value else w
    match e with
    | .answer => if ok then some (.ok (.applied w.nextVersion), done.acquire i c value)
        else some (.ok .preconditionFailed, w)
    | .conflict applied => some (.ok .retryableConflict, if applied then done else w)
    | .fault what applied => some (.error (.runtimeError what), if applied then done else w)
    | .key _ => none
  | .openInput path, w => match e with
    | .answer => some (.ok (w.files path), w)
    | .fault what _ => some (.error (.runtimeError what), w)
    | _ => none
  | .createIfAbsent path bytes, w =>
    let done := if w.files path = none then w.create i path bytes else w
    match e with
    | .answer => some (.ok (if w.files path = none then .created else .alreadyExists), done)
    | .conflict applied => some (.ok .retryableConflict, if applied then done else w)
    | .fault what _ => some (.error (.runtimeError what), w)
    | .key _ => none
  | .writeFile path bytes, w => match e with
    | .answer => some (.ok (), w.write path bytes)
    | .fault what applied => some (.error (.runtimeError what), if applied then w.write path bytes else w)
    | _ => none
  | .newDataFileKey, w => match e with
    | .key k => if w.issued k = none then some (.ok k, w.issue i k) else none
    | _ => none
  | .newManifestKey, w => match e with
    | .key k => some (.ok k, w)
    | _ => none
  | .self, w => some (.ok (w.writers i), w)
  | .setSelf x, w => some (.ok (), w.setWriter i x)

end DBPlayground.Store
