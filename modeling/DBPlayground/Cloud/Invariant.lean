import DBPlayground.Cloud.Log

namespace DBPlayground.Invariant

open ByteReader Table Wire Records Keys WalCodec Store StateStore TableWriter WalIndexer CloudSystem Log

variable {ι : Type} (P : Params ι)

/-- The entries of the objects named by a manifest's batch index list. -/
inductive IndexFiles (w : World ι) : List Bytes → List SequentialBatchEntry → Prop
  | nil : IndexFiles w [] []
  | cons {key keys v part rest} (hv : w.entries (metaKey P.table key) = some v)
      (hd : decodeSequentialBatchIndex v.value = .ok part) (hr : IndexFiles w keys rest)
      (hk : key.take 6 = ascii "dedup/") : IndexFiles w (key :: keys) (part ++ rest)

/-- The index knows the batches of the first `n` slots, and nothing else. -/
structure IndexOk (w : World ι) (n : Nat) (es : List SequentialBatchEntry) : Prop where
  complete : ∀ (k : Nat) c, w.created[k]? = some c → k < n → ∀ id ∈ (walOf P c).batchIds, ∃ e ∈ es, e.batchId = id
  sound : ∀ e ∈ es, ∃ k c, w.created[k]? = some c ∧ k < n ∧ e.seq = BitVec.ofNat 64 (k + 1) ∧
    e.batchId ∈ (walOf P c).batchIds ∧ e.operationId = (walOf P c).operationId ∧
    e.payloadDigest = (walOf P c).payloadDigest

def dataRows (w : World ι) : List Bytes → Option (List (List (Option Value)))
  | [] => some []
  | p :: ps => do
    let b ← w.files p
    let rows ← P.format.read b
    let rest ← dataRows w ps
    some (rows ++ rest)

/-- A data format that reads back the rows of the chunks written. -/
def ReadsBack (F : DataFormat) : Prop :=
  ∀ chunks b, F.write chunks = .ok b → F.read b = some (chunks.flatMap Chunk.rows)

/-- The data files hold the rows of the first `n` slots, each those of a stretch
of its own. -/
structure FilesOk (w : World ι) (n : Nat) (files : List DataFile) : Prop where
  ascending : files.Pairwise fun f g => f.lastSeq < g.firstSeq
  range : ∀ f ∈ files, 0 < f.firstSeq.toNat ∧ f.firstSeq ≤ f.lastSeq ∧ f.lastSeq.toNat ≤ n
  rows : ∀ f ∈ files, f.rowCount.toNat =
    (rowsOf P ((w.created.take f.lastSeq.toNat).drop (f.firstSeq.toNat - 1))).length
  covers : ∀ (k : Nat) c, w.created[k]? = some c → k < n → (walOf P c).kind = .append →
    ∃ f ∈ files, f.firstSeq.toNat ≤ k + 1 ∧ k + 1 ≤ f.lastSeq.toNat

structure ManifestOk (w : World ι) (m : SequentialManifest) (seq : U64) : Prop where
  tableId : m.tableId = P.table.tableId
  covered : m.coveredThroughSeq = seq
  version : m.schemaVersion = 1
  schema : m.schema = P.table.schema
  index : ∃ es, IndexFiles P w m.batchIndexFiles es ∧ IndexOk P w seq.toNat es
  data : ReadsBack P.format →
    dataRows P w (m.dataFiles.map (·.path)) = some (rowsOf P (w.created.take seq.toNat))
  distinct : ∀ es, IndexFiles P w m.batchIndexFiles es → (es.map (·.batchId)).Nodup
  files : FilesOk P w seq.toNat m.dataFiles

structure StateOk (w : World ι) (st : SequentialState) : Prop where
  tableId : st.tableId = P.table.tableId
  version : st.schemaVersion = 1
  indexed : st.indexedSeq ≤ st.publishedSeq
  published : st.publishedSeq.toNat ≤ w.created.length
  key : st.manifestKey.take 9 = ascii "manifest/"
  manifest : ∃ v m, w.entries (metaKey P.table st.manifestKey) = some v ∧
    encodeSequentialManifest m = .ok v.value ∧ ManifestOk P w m st.indexedSeq

structure CurrentOk (w : World ι) (v : VersionedValue) (st : SequentialState) : Prop where
  decoded : decodeSequentialState v.value = .ok st
  state : StateOk P w st
  slots : ∀ c ∈ w.created, (walOf P c).writerEpoch ≤ st.writerEpoch
  acquired : ∀ a ∈ w.acquired, a.2 ≤ st.writerEpoch

/-- `Publish` never finds its WAL published under another epoch than the one
it was called with. -/
def Owned : Prop := ∀ i b seq epoch w v st,
  P.allow i (.publish b seq epoch) (.metaGet (currentKey P.table)) w (.ok (some v)) = true →
    decodeSequentialState v.value = .ok st → st.publishedSeq ≥ seq → st.writerEpoch = epoch

/-- The fields `x` of object `i` carry no epoch but one that its current life
acquired. -/
def Held (w : World ι) (i : ι) (x : Writer) : Prop :=
  Owned P → ∀ cs, x.currentState = some cs → ((i, w.incarnation i), cs.state.writerEpoch) ∈ w.acquired

structure Inv (w : World ι) : Prop where
  slots : ∀ (k : Nat) c, w.created[k]? = some c → Slot P c k
  files : ∀ c ∈ w.created, w.files c.path = some c.bytes
  onlySlots : ∀ seq b, w.files (walPath P.table seq) = some b → 0 < seq.toNat ∧ seq.toNat ≤ w.created.length
  room : w.created.length < 2 ^ 64
  onlyIssued : ∀ key b, w.files (dataPath P.table key) = some b → key.take 5 = ascii "data/" →
    w.issued key ≠ none
  disjoint : ∀ (k l : Nat) c d, w.created[k]? = some c → w.created[l]? = some d →
    ∀ id ∈ (walOf P c).batchIds, id ∈ (walOf P d).batchIds → k = l
  sorted : ∀ (k l : Nat) c d, k ≤ l → w.created[k]? = some c → w.created[l]? = some d →
    (walOf P c).writerEpoch ≤ (walOf P d).writerEpoch
  blocks : ∀ (l : Nat) d, w.created[l]? = some d → (walOf P d).kind = .append →
    ∃ k c, l = k + 1 ∧ w.created[k]? = some c ∧ c.author = d.author
  fences : ∀ c ∈ w.created, (walOf P c).kind = .fence → (c.author, (walOf P c).writerEpoch) ∈ w.acquired
  stamps : Owned P → ∀ c ∈ w.created, (c.author, (walOf P c).writerEpoch) ∈ w.acquired
  authors : (w.acquired.map Prod.fst).Nodup
  epochs : (w.acquired.map Prod.snd).Pairwise (· < ·)
  held : ∀ i, Held P w i (w.writers i)
  lives : ∀ a ∈ w.acquired, a.1.2 ≤ w.incarnation a.1.1
  versions : ∀ key v, w.entries key = some v → v.version < w.nextVersion
  absent : w.entries (currentKey P.table) = none → w.created = [] ∧ w.acquired = []
  current : ∀ v, w.entries (currentKey P.table) = some v → ∃ st, CurrentOk P w v st

structure Le (st st' : SequentialState) : Prop where
  writerEpoch : st.writerEpoch ≤ st'.writerEpoch
  indexedSeq : st.indexedSeq ≤ st'.indexedSeq
  publishedSeq : st.publishedSeq ≤ st'.publishedSeq

structure Later (v v' : VersionedValue) : Prop where
  version : v.version ≤ v'.version
  same : v'.version = v.version → v' = v
  state : ∀ st, decodeSequentialState v.value = .ok st →
    ∃ st', decodeSequentialState v'.value = .ok st' ∧ Le st st'

structure Grow (s w : World ι) : Prop where
  files : ∀ p b, s.files p = some b → w.files p = some b
  created : s.created <+: w.created
  acquired : s.acquired <+: w.acquired
  objects : ∀ key v, key ≠ currentKey P.table → s.entries key = some v → w.entries key = some v
  current : ∀ v, s.entries (currentKey P.table) = some v →
    ∃ v', w.entries (currentKey P.table) = some v' ∧ Later v v'
  nextVersion : s.nextVersion ≤ w.nextVersion
  issued : ∀ key i, s.issued key = some i → w.issued key = some i

/-- Nothing that belongs to object `i` changes: not its fields, and no WAL and
no epoch is added in its name. -/
structure Quiet (i : ι) (s w : World ι) : Prop where
  grow : Grow P s w
  writer : w.writers i = s.writers i
  life : w.incarnation i = s.incarnation i
  created : ∀ (k : Nat) c, w.created[k]? = some c → s.created.length ≤ k → c.author.1 ≠ i
  acquired : ∀ a ∈ w.acquired, a.1.1 = i → a ∈ s.acquired

/-- What object `i` relies on between its own requests. -/
structure Rely (i : ι) (s w : World ι) : Prop where
  quiet : Quiet P i s w
  files : ∀ key, key.take 5 = ascii "data/" → s.issued key = some i →
    w.files (dataPath P.table key) = s.files (dataPath P.table key)

inductive Tick (s w : World ι) : Prop
  | same (h : w.entries (currentKey P.table) = s.entries (currentKey P.table))
  | first (v : VersionedValue) (hs : s.entries (currentKey P.table) = none)
      (hw : w.entries (currentKey P.table) = some v)
      (hd : decodeSequentialState v.value = .ok (initialState P.table))
  | next (v v' : VersionedValue) (st st' : SequentialState) (hs : s.entries (currentKey P.table) = some v)
      (hw : w.entries (currentKey P.table) = some v') (hd : decodeSequentialState v.value = .ok st)
      (hd' : decodeSequentialState v'.value = .ok st') (hv : st'.stateVersion = st.stateVersion + 1)
      (hle : Le st st')

def marks (st : SequentialState) : Nat := st.writerEpoch.toNat + st.indexedSeq.toNat + st.publishedSeq.toNat

/-- CURRENT is the object it was, or one with higher marks. -/
def Advance (s w : World ι) : Prop := ∀ v, s.entries (currentKey P.table) = some v →
  ∃ v', w.entries (currentKey P.table) = some v' ∧ (v' = v ∨ ∃ st st', decodeSequentialState v.value = .ok st ∧
    decodeSequentialState v'.value = .ok st' ∧ marks st < marks st')

structure Guar (i : ι) (s w : World ι) : Prop where
  grow : Grow P s w
  others : ∀ j, j ≠ i → Rely P j s w
  tick : Tick P s w
  advance : Advance P s w

end DBPlayground.Invariant
