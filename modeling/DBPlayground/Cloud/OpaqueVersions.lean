import DBPlayground.Cloud.System
import DBPlayground.Lib.Lockstep

namespace DBPlayground.OpaqueVersions

open ByteReader Table Wire Records Keys WalCodec Program Session Store StateStore TableWriter WalIndexer
  SnapshotLoader CloudSystem Lockstep

/-- Versions of CURRENT that two stores gave to the same write. -/
abbrev Pairing := Nat → Nat → Prop

structure SameState (V : Pairing) (a b : VersionedSequentialState) : Prop where
  state : a.state = b.state
  version : V a.version b.version

structure SameWriter (V : Pairing) (a b : Writer) : Prop where
  currentState : Option.Rel (SameState V) a.currentState b.currentState
  nextSeq : a.nextSeq = b.nextSeq

structure SameSnapshot (V : Pairing) (a b : TableSnapshot) : Prop where
  version : V a.currentMetadataVersion b.currentMetadataVersion
  rest : { a with currentMetadataVersion := 0 } = { b with currentMetadataVersion := 0 }

inductive SameReply (V : Pairing) : Reply → Reply → Prop
  | started (r) : SameReply V (.started r) (.started r)
  | imported (r) : SameReply V (.imported r) (.imported r)
  | indexed (r) : SameReply V (.indexed r) (.indexed r)
  | threw (e) : SameReply V (.threw e) (.threw e)
  | loaded {a b} (h : Option.Rel (SameSnapshot V) a b) : SameReply V (.loaded a) (.loaded b)

inductive SameOutcome (V : Pairing) : Outcome Call Reply → Outcome Call Reply → Prop
  | tail (c) : SameOutcome V (.tail c) (.tail c)
  | done {a b} (h : SameReply V a b) : SameOutcome V (.done a) (.done b)

/-- The same answer to a conditional write, whatever the version. -/
inductive SameKind : ConditionalWriteResult → ConditionalWriteResult → Prop
  | applied (n m) : SameKind (.applied n) (.applied m)
  | preconditionFailed : SameKind .preconditionFailed .preconditionFailed
  | retryableConflict : SameKind .retryableConflict .retryableConflict

inductive SameResult (V : Pairing) : ConditionalWriteResult → ConditionalWriteResult → Prop
  | applied {n m} (h : V n m) : SameResult V (.applied n) (.applied m)
  | preconditionFailed : SameResult V .preconditionFailed .preconditionFailed
  | retryableConflict : SameResult V .retryableConflict .retryableConflict

/-- The same object of the metadata store; only of CURRENT are the versions compared. -/
structure SameValue (t : TableDescriptor) (key : Bytes) (V : Pairing) (v v' : VersionedValue) : Prop where
  value : v.value = v'.value
  version : key = currentKey t → V v.version v'.version

theorem rel_mono {α : Type} {R S : α → α → Prop} {x y : Option α} (hRS : ∀ a b, R a b → S a b) (h : Option.Rel R x y) :
    Option.Rel S x y := by
  cases h with
  | none => exact .none
  | some h => exact .some (hRS _ _ h)

section mono

variable {V V' : Pairing} (hV : V ≤ V')

include hV

theorem SameState.mono {a b : VersionedSequentialState} (h : SameState V a b) : SameState V' a b :=
  ⟨h.state, hV _ _ h.version⟩

theorem SameWriter.mono {a b : Writer} (h : SameWriter V a b) : SameWriter V' a b :=
  ⟨rel_mono (fun _ _ => SameState.mono hV) h.currentState, h.nextSeq⟩

theorem SameReply.mono {a b : Reply} (h : SameReply V a b) : SameReply V' a b := by
  cases h with
  | started r => exact .started r
  | imported r => exact .imported r
  | indexed r => exact .indexed r
  | threw e => exact .threw e
  | loaded h => exact .loaded (rel_mono (fun _ _ h => ⟨hV _ _ h.version, h.rest⟩) h)

theorem SameOutcome.mono {a b : Outcome Call Reply} (h : SameOutcome V a b) : SameOutcome V' a b := by
  cases h with
  | tail c => exact .tail c
  | done h => exact .done (h.mono hV)

end mono

inductive SameOp (t : TableDescriptor) (V : Pairing) : Op → Op → Prop
  | metaGet (key) : SameOp t V (.metaGet key) (.metaGet key)
  | putIfAbsent (key value) : SameOp t V (.putIfAbsent key value) (.putIfAbsent key value)
  | compareExchange {n m} (value) (h : V n m) :
      SameOp t V (.compareExchange (currentKey t) n value) (.compareExchange (currentKey t) m value)
  | openInput (path) : SameOp t V (.openInput path) (.openInput path)
  | createIfAbsent (path bytes) : SameOp t V (.createIfAbsent path bytes) (.createIfAbsent path bytes)
  | writeFile (path bytes) : SameOp t V (.writeFile path bytes) (.writeFile path bytes)
  | newDataFileKey : SameOp t V .newDataFileKey .newDataFileKey
  | newManifestKey : SameOp t V .newManifestKey .newManifestKey
  | self : SameOp t V .self .self
  | setSelf {x y} (h : SameWriter V x y) : SameOp t V (.setSelf x) (.setSelf y)

/-- Answers that differ at most in versions, where those of CURRENT are paired. -/
def SameRes (t : TableDescriptor) (V : Pairing) : (o o' : Op) → Res o → Res o' → Prop
  | .metaGet key, .metaGet _, r, r' => Option.Rel (SameValue t key V) r r'
  | .putIfAbsent _ _, .putIfAbsent _ _, r, r' => SameKind r r'
  | .compareExchange _ _ _, .compareExchange _ _ _, r, r' => SameResult V r r'
  | .openInput _, .openInput _, r, r' => r = r'
  | .createIfAbsent _ _, .createIfAbsent _ _, r, r' => r = r'
  | .writeFile _ _, .writeFile _ _, _, _ => True
  | .newDataFileKey, .newDataFileKey, r, r' => r = r'
  | .newManifestKey, .newManifestKey, r, r' => r = r'
  | .self, .self, r, r' => SameWriter V r r'
  | .setSelf _, .setSelf _, _, _ => True
  | _, _, _, _ => False

def bridge (t : TableDescriptor) : Bridge Pairing Op Ans where
  op := SameOp t
  ans V o o' := Results (fun V => SameRes t V o o') V

theorem SameOp.mono {t : TableDescriptor} {V V' : Pairing} {o o' : Op} (hV : V ≤ V') (h : SameOp t V o o') :
    SameOp t V' o o' := by
  cases h with
  | metaGet key => exact .metaGet key
  | putIfAbsent key value => exact .putIfAbsent key value
  | compareExchange value h => exact .compareExchange value (hV _ _ h)
  | openInput path => exact .openInput path
  | createIfAbsent path bytes => exact .createIfAbsent path bytes
  | writeFile path bytes => exact .writeFile path bytes
  | newDataFileKey => exact .newDataFileKey
  | newManifestKey => exact .newManifestKey
  | self => exact .self
  | setSelf h => exact .setSelf (h.mono hV)

abbrev Plain {α : Type} : Pairing → α → α → Prop := fun _ a b => a = b

section rules

variable {α α' : Type} {t : TableDescriptor} {V : Pairing} {S : Pairing → α → α' → Prop}

theorem request_same {o o' : Op} {f : Res o → StoreMethod α} {f' : Res o' → StoreMethod α'} (ho : SameOp t V o o')
    (hf : ∀ V', V ≤ V' → ∀ r r', SameRes t V' o o' r r' → RelatedM (bridge t) S V' (f r) (f' r')) :
    RelatedM (bridge t) S V (request o >>= f) (request o' >>= f') := by
  refine .call ho fun V' hV r r' hr => ?_
  cases hr with
  | error e => exact .ret (.error e)
  | ok h => exact hf V' hV _ _ h

theorem throwIf_same {bad : Prop} [Decidable bad] {e : Exn} {f : Unit → StoreMethod α} {f' : Unit → StoreMethod α'}
    (hf : ¬ bad → RelatedM (bridge t) S V (f ()) (f' ())) :
    RelatedM (bridge t) S V (throwIf bad e >>= f) (throwIf bad e >>= f') := by
  unfold throwIf
  split
  · exact .ret (.error e)
  · next h => exact hf h

end rules

section stateStore

variable (t : TableDescriptor) (H : Hashes) (V : Pairing)

theorem load_same : RelatedM (bridge t) (fun V => Option.Rel (SameState V)) V (load t) (load t) := by
  unfold load
  refine request_same (.metaGet _) fun V' _ r r' hr => ?_
  cases hr with
  | none => exact relatedM_pure .none
  | some h =>
      dsimp only
      rw [← h.value]
      exact relatedM_lift fun st _ => throwIf_same fun _ => relatedM_pure (.some ⟨rfl, h.version rfl⟩)

theorem loadManifest_same (state : SequentialState) :
    RelatedM (bridge t) Plain V (loadManifest t state) (loadManifest t state) := by
  unfold loadManifest
  refine request_same (.metaGet _) fun V' _ r r' hr => ?_
  cases hr with
  | none => exact relatedM_throw _
  | some h =>
      dsimp only
      rw [← h.value]
      exact relatedM_lift fun m _ => throwIf_same fun _ => relatedM_pure rfl

theorem loadBatchIndex_same (keys : List Bytes) :
    RelatedM (bridge t) Plain V (loadBatchIndex t keys) (loadBatchIndex t keys) := by
  induction keys generalizing V with
  | nil => exact relatedM_pure rfl
  | cons key keys ih =>
      unfold loadBatchIndex
      refine request_same (.metaGet _) fun V' _ r r' hr => ?_
      cases hr with
      | none => exact relatedM_throw _
      | some h =>
          dsimp only
          rw [← h.value]
          refine relatedM_lift fun part _ => (ih V').bind fun V'' _ rest rest' hrest => relatedM_pure ?_
          rw [hrest]

theorem putIfAbsent_same (key value : Bytes) :
    RelatedM (bridge t) (fun _ => SameKind) V (putIfAbsent key value) (putIfAbsent key value) := by
  rw [← bind_pure (putIfAbsent key value)]
  exact request_same (.putIfAbsent _ _) fun V' _ r r' hr => relatedM_pure hr

theorem writeManifest_same (key : Bytes) (m : SequentialManifest) :
    RelatedM (bridge t) (fun _ => SameKind) V (writeManifest t key m) (writeManifest t key m) :=
  relatedM_lift fun bytes _ => putIfAbsent_same t V _ bytes

theorem writeBatchIndex_same (key : Bytes) (entries : List SequentialBatchEntry) :
    RelatedM (bridge t) (fun _ => SameKind) V (writeBatchIndex t key entries) (writeBatchIndex t key entries) :=
  relatedM_lift fun bytes _ => putIfAbsent_same t V _ bytes

theorem checkInitialManifest_same :
    RelatedM (bridge t) Plain V (checkInitialManifest t) (checkInitialManifest t) := by
  unfold checkInitialManifest
  refine request_same (.metaGet _) fun V' _ r r' hr => ?_
  have hvalue : r.map (·.value) = r'.map (·.value) := by
    cases hr with
    | none => rfl
    | some h => exact congrArg some h.value
  refine relatedM_lift fun bytes _ => ?_
  rw [hvalue]
  unfold throwIf
  split
  · exact relatedM_throw _
  · exact relatedM_pure rfl

theorem putInitialState_same :
    RelatedM (bridge t) (fun _ => SameKind) V (putInitialState t) (putInitialState t) :=
  relatedM_lift fun bytes _ => putIfAbsent_same t V _ bytes

theorem initializeTable_same :
    RelatedM (bridge t) (fun _ => SameKind) V (initializeTable t) (initializeTable t) := by
  unfold initializeTable
  refine (writeManifest_same t V _ _).bind fun V' _ r r' hr => ?_
  cases hr with
  | applied n m => exact putInitialState_same t V'
  | preconditionFailed =>
      refine (checkInitialManifest_same t V').bind fun V'' _ _ _ _ => ?_
      exact putInitialState_same t V''
  | retryableConflict => exact relatedM_pure .retryableConflict

variable {V} in
theorem compareExchange_same {a b : VersionedSequentialState} (h : SameState V a b) (next : SequentialState) :
    RelatedM (bridge t) SameResult V (StateStore.compareExchange t a next) (StateStore.compareExchange t b next) := by
  unfold StateStore.compareExchange
  rw [← h.state]
  refine throwIf_same fun _ => relatedM_lift fun bytes _ => ?_
  rw [← bind_pure (Store.compareExchange _ a.version _), ← bind_pure (Store.compareExchange _ b.version _)]
  exact request_same (.compareExchange bytes h.version) fun V' _ r r' hr => relatedM_pure hr

theorem loadSequentialWal_same (seq : U64) :
    RelatedM (bridge t) Plain V (loadSequentialWal t H seq) (loadSequentialWal t H seq) := by
  unfold loadSequentialWal
  refine relatedM_lift fun path _ => request_same (.openInput path) fun V' _ r r' hr => ?_
  obtain rfl : r = r' := hr
  cases r with
  | none => exact relatedM_pure rfl
  | some bytes =>
      exact throwIf_same fun _ => relatedM_lift fun wal _ => throwIf_same fun _ => relatedM_pure rfl

end stateStore

section tableWriter

variable (t : TableDescriptor) (H : Hashes) (V : Pairing)

theorem self_same {α : Type} {S : Pairing → α → α → Prop} {f f' : Writer → StoreMethod α} {t : TableDescriptor} {V : Pairing}
    (hf : ∀ V', V ≤ V' → ∀ x y, SameWriter V' x y → RelatedM (bridge t) S V' (f x) (f' y)) :
    RelatedM (bridge t) S V (self >>= f) (self >>= f') :=
  request_same .self hf

theorem setSelf_same {α : Type} {S : Pairing → α → α → Prop} {f f' : Unit → StoreMethod α}
    {t : TableDescriptor} {V : Pairing}
    {x y : Writer} (h : SameWriter V x y) (hf : ∀ V', V ≤ V' → RelatedM (bridge t) S V' (f ()) (f' ())) :
    RelatedM (bridge t) S V (setSelf x >>= f) (setSelf y >>= f') :=
  request_same (.setSelf h) fun V' hV _ _ _ => hf V' hV

theorem startingState_same :
    RelatedM (bridge t) (fun V => Option.Rel (SameState V)) V (startingState t) (startingState t) := by
  unfold startingState
  refine (load_same t V).bind fun V' _ r r' hr => ?_
  cases hr with
  | some h => exact relatedM_pure (.some h)
  | none =>
      refine (initializeTable_same t V').bind fun V'' _ r r' hr => ?_
      cases hr with
      | applied | preconditionFailed => exact load_same t V''
      | retryableConflict => exact relatedM_pure .none

theorem startReply_same (code : CloudWriterStartCode) (epoch : U64) :
    RelatedM (bridge t) SameOutcome V (pure (startReply code epoch) : Step) (pure (startReply code epoch) : Step) :=
  relatedM_pure (.done (.started _))

variable {V} in
theorem acquireEpoch_same (attempts : Nat) {a b : VersionedSequentialState} (h : SameState V a b) :
    RelatedM (bridge t) SameOutcome V (acquireEpoch t attempts a) (acquireEpoch t attempts b) := by
  induction attempts generalizing V a b with
  | zero => exact startReply_same t V _ _
  | succ attempts ih =>
      unfold acquireEpoch
      dsimp only
      rw [← h.state]
      split
      · exact startReply_same t V _ _
      · refine (compareExchange_same t h _).bind fun V' _ r r' hr => ?_
        cases hr with
        | applied => exact relatedM_pure (.tail _)
        | retryableConflict => exact startReply_same t V' _ _
        | preconditionFailed =>
            refine (load_same t V').bind fun V'' _ r r' hr => ?_
            cases hr with
            | none => exact startReply_same t V'' _ _
            | some h => exact ih h

theorem start_same (attempts : Nat) :
    RelatedM (bridge t) SameOutcome V (start t attempts) (start t attempts) := by
  unfold start
  refine self_same fun V' _ x y hxy => ?_
  obtain ⟨hcs, _⟩ := hxy
  generalize x.currentState = cs at hcs
  generalize y.currentState = cs' at hcs
  cases hcs with
  | some h =>
      dsimp only
      rw [← h.state]
      exact startReply_same t V' _ _
  | none =>
      refine (startingState_same t V').bind fun V'' _ r r' hr => ?_
      cases hr with
      | none => exact startReply_same t V'' _ _
      | some h => exact acquireEpoch_same t attempts h

theorem finishStart_same (seq epoch : U64) :
    RelatedM (bridge t) SameOutcome V (finishStart t seq epoch) (finishStart t seq epoch) := by
  unfold finishStart
  refine (load_same t V).bind fun V' _ r r' hr => self_same fun V'' hV x y hxy => ?_
  have hnone : SameWriter V'' { x with currentState := none } { y with currentState := none } := ⟨.none, hxy.nextSeq⟩
  cases hr with
  | none => exact setSelf_same hnone fun V₃ _ => startReply_same t V₃ _ _
  | some h =>
      dsimp only
      rw [← h.state]
      split
      · exact setSelf_same hnone fun V₃ _ => startReply_same t V₃ _ _
      · exact setSelf_same ⟨.some (h.mono hV), rfl⟩ fun V₃ _ => startReply_same t V₃ _ _

theorem placeFence_same (seq epoch : U64) :
    RelatedM (bridge t) SameOutcome V (placeFence t H seq epoch) (placeFence t H seq epoch) := by
  unfold placeFence
  refine relatedM_lift fun bytes _ => relatedM_lift fun path _ => request_same (.createIfAbsent path bytes)
    fun V' _ r r' hr => ?_
  obtain rfl : r = r' := hr
  cases r with
  | alreadyExists => exact relatedM_pure (.tail _)
  | created => exact finishStart_same t V' seq epoch
  | retryableConflict =>
      refine (loadSequentialWal_same t H V' seq).bind fun V'' _ wal wal' hwal => ?_
      subst hwal
      cases wal with
      | none => exact startReply_same t V'' _ _
      | some landed =>
          dsimp only
          split
          · exact startReply_same t V'' _ _
          · exact finishStart_same t V'' seq epoch

theorem fence_same (seq epoch : U64) :
    RelatedM (bridge t) SameOutcome V (fence t H seq epoch) (fence t H seq epoch) := by
  unfold fence
  refine (load_same t V).bind fun V' _ r r' hr => ?_
  cases hr with
  | none => exact startReply_same t V' _ _
  | some h =>
      dsimp only
      rw [← h.state]
      split
      · exact startReply_same t V' _ _
      · refine (loadSequentialWal_same t H V' _).bind fun V'' _ wal wal' hwal => ?_
        subst hwal
        cases wal with
        | none => exact placeFence_same t H V'' _ _
        | some landed => exact relatedM_pure (.tail _)

variable {V} in
theorem result_same {x y : Writer} {code : CloudImportCode} (h : SameWriter V x y) :
    result x.currentState code = result y.currentState code := by
  obtain ⟨hcs, _⟩ := h
  generalize x.currentState = cs at hcs
  generalize y.currentState = cs' at hcs
  cases hcs with
  | none => rfl
  | some h => simp only [result, h.state]

theorem answer_same (code : CloudImportCode) (walSeq : U64) :
    RelatedM (bridge t) SameOutcome V (answer code walSeq) (answer code walSeq) := by
  unfold answer
  refine self_same fun V' _ x y hxy => ?_
  rw [result_same hxy]
  exact relatedM_pure (.done (.imported _))

theorem scanWals_same (seq : U64) (n : Nat) :
    RelatedM (bridge t) Plain V (scanWals t H seq n) (scanWals t H seq n) := by
  induction n generalizing V seq with
  | zero => exact relatedM_pure rfl
  | succ n ih =>
      unfold scanWals
      refine (loadSequentialWal_same t H V seq).bind fun V' _ wal wal' hwal => ?_
      subst hwal
      cases wal with
      | none => exact relatedM_pure rfl
      | some wal =>
          refine (ih V' (seq + 1)).bind fun V'' _ rest rest' hrest => ?_
          subst hrest
          cases rest with
          | none => exact relatedM_pure rfl
          | some rest => exact relatedM_pure rfl

theorem checkLanded_same (wal : SequentialWal) (bytes : Bytes) :
    RelatedM (bridge t) Plain V (checkLanded t H wal bytes) (checkLanded t H wal bytes) := by
  unfold checkLanded
  refine (loadSequentialWal_same t H V wal.seq).bind fun V' _ r r' hr => ?_
  subst hr
  cases r with
  | none => exact relatedM_pure rfl
  | some landed =>
      dsimp only
      split
      · exact self_same fun V'' _ x y hxy => setSelf_same ⟨.none, hxy.nextSeq⟩ fun _ _ => relatedM_pure rfl
      · split
        · exact relatedM_pure rfl
        · exact relatedM_lift fun again _ => relatedM_pure rfl

theorem afterCreate_same (batch : CloudImportBatch) (wal : SequentialWal) :
    RelatedM (bridge t) SameOutcome V (afterCreate batch wal) (afterCreate batch wal) := by
  unfold afterCreate
  refine self_same fun V' _ x y hxy => setSelf_same ⟨hxy.currentState, congrArg (· + 1) hxy.nextSeq⟩ fun V'' _ => ?_
  cases batch.visibility with
  | deferred => exact answer_same t V'' _ _
  | immediate => exact relatedM_pure (.tail _)

theorem appendBatch_same (batch : CloudImportBatch) (nextSeq epoch : U64) :
    RelatedM (bridge t) SameOutcome V (appendBatch t H batch nextSeq epoch) (appendBatch t H batch nextSeq epoch) := by
  unfold appendBatch
  split
  · exact answer_same t V _ _
  · refine relatedM_lift fun path _ => ?_
    split
    · exact answer_same t V _ _
    · exact relatedM_throw _
    · refine request_same (.createIfAbsent path _) fun V' _ r r' hr => ?_
      obtain rfl : r = r' := hr
      cases r with
      | created => exact afterCreate_same t V' _ _
      | alreadyExists | retryableConflict =>
          refine (checkLanded_same t H V' _ _).bind fun V'' _ code code' hcode => ?_
          subst hcode
          cases code with
          | none => exact afterCreate_same t V'' _ _
          | some code => exact answer_same t V'' _ _

theorem answerKnown_same (batch : CloudImportBatch) (latest : SequentialState) (prior : U64) :
    RelatedM (bridge t) SameOutcome V (answerKnown batch latest prior) (answerKnown batch latest prior) := by
  unfold answerKnown
  split
  · exact answer_same t V _ _
  · cases batch.visibility with
    | deferred => exact answer_same t V _ _
    | immediate => exact relatedM_pure (.tail _)

theorem importKnown_same (batch : CloudImportBatch) (latest : SequentialState) (nextSeq : U64) :
    RelatedM (bridge t) SameOutcome V (importKnown t H batch latest nextSeq) (importKnown t H batch latest nextSeq) := by
  unfold importKnown
  refine relatedM_lift fun requestBytes _ => relatedM_lift fun requested _ => ?_
  refine (loadManifest_same t V latest).bind fun V₁ _ manifest _ hm => ?_
  subst hm
  refine (loadBatchIndex_same t V₁ _).bind fun V₂ _ indexed _ hi => ?_
  subst hi
  refine (scanWals_same t H V₂ _ _).bind fun V₃ _ scanned _ hs => ?_
  subst hs
  cases scanned with
  | none => exact answer_same t V₃ _ _
  | some scanned =>
      dsimp only
      split
      · exact answer_same t V₃ _ _
      · split
        · exact answerKnown_same t V₃ _ _ _
        · split
          · exact answer_same t V₃ _ _
          · exact appendBatch_same t H V₃ _ _ _

theorem importBatch_same (batch : CloudImportBatch) :
    RelatedM (bridge t) SameOutcome V (importBatch t H batch) (importBatch t H batch) := by
  unfold importBatch
  refine self_same fun V' _ x y hxy => ?_
  obtain ⟨hcs, hseq⟩ := hxy
  generalize hx : x.currentState = cs at hcs
  generalize hy : y.currentState = cs' at hcs
  cases hcs with
  | none => exact answer_same t V' _ _
  | some hcur =>
      dsimp only
      rw [← hcur.state]
      split
      · exact answer_same t V' _ _
      · refine (load_same t V').bind fun V'' hV r r' hr => ?_
        cases hr with
        | none => exact answer_same t V'' _ _
        | some h =>
            dsimp only
            rw [← h.state]
            split
            · exact setSelf_same ⟨.none, hseq⟩ fun V₃ _ => answer_same t V₃ _ _
            · refine setSelf_same ⟨.some h, hseq⟩ fun V₃ _ => ?_
              rw [← hseq]
              exact importKnown_same t H V₃ _ _ _

theorem publishLoop_same (seq epoch : U64) (refused : CloudImportResult) (attempts : Nat) :
    RelatedM (bridge t) SameOutcome V (publishLoop t seq epoch refused attempts)
      (publishLoop t seq epoch refused attempts) := by
  induction attempts generalizing V with
  | zero => exact relatedM_pure (.done (.imported _))
  | succ attempts ih =>
      unfold publishLoop
      refine (load_same t V).bind fun V' _ r r' hr => ?_
      cases hr with
      | none => exact relatedM_pure (.done (.imported _))
      | some h =>
          dsimp only
          rw [← h.state]
          split
          · exact self_same fun V'' hV x y hxy =>
              setSelf_same ⟨.some (h.mono hV), hxy.nextSeq⟩ fun V₃ _ => answer_same t V₃ _ _
          · split
            · exact relatedM_pure (.done (.imported _))
            · refine (compareExchange_same t h _).bind fun V'' _ r r' hr => ?_
              cases hr with
              | applied hv =>
                  exact self_same fun V₃ hV x y hxy => setSelf_same ⟨.some ⟨rfl, hV _ _ hv⟩, hxy.nextSeq⟩
                    fun V₄ _ => answer_same t V₄ _ _
              | preconditionFailed | retryableConflict => exact ih V''

theorem publish_same (attempts : Nat) (seq epoch : U64) :
    RelatedM (bridge t) SameOutcome V (publish t attempts seq epoch) (publish t attempts seq epoch) := by
  unfold publish
  refine self_same fun V' _ x y hxy => ?_
  rw [result_same hxy]
  exact publishLoop_same t V' seq epoch _ attempts

end tableWriter

section walIndexer

variable (t : TableDescriptor) (H : Hashes) (F : DataFormat) (V : Pairing)

theorem collectWals_same (seq : U64) (n : Nat) :
    RelatedM (bridge t) Plain V (collectWals t H seq n) (collectWals t H seq n) := by
  induction n generalizing V seq with
  | zero => exact relatedM_pure rfl
  | succ n ih =>
      unfold collectWals
      refine (loadSequentialWal_same t H V _).bind fun V' _ wal wal' hwal => ?_
      subst hwal
      cases wal with
      | none => exact relatedM_pure rfl
      | some wal =>
          refine (ih V' (seq + 1)).bind fun V'' _ rest rest' hrest => ?_
          subst hrest
          exact relatedM_pure rfl

theorem writeDataFile_same (chunks : List Chunk) :
    RelatedM (bridge t) Plain V (writeDataFile t F chunks) (writeDataFile t F chunks) := by
  unfold writeDataFile
  refine request_same .newDataFileKey fun V' _ key key' hkey => ?_
  obtain rfl : key = key' := hkey
  split
  · exact relatedM_pure rfl
  · exact relatedM_lift fun bytes _ => request_same (.writeFile _ _) fun V'' _ _ _ _ => relatedM_pure rfl

theorem extendManifest_same (m : SequentialManifest) (first last : U64) (chunks : List Chunk) :
    RelatedM (bridge t) Plain V (extendManifest t F m first last chunks) (extendManifest t F m first last chunks) := by
  unfold extendManifest
  split
  · exact relatedM_pure rfl
  · refine (writeDataFile_same t F V chunks).bind fun V' _ path path' hpath => ?_
    subst hpath
    cases path with
    | none => exact relatedM_pure rfl
    | some path => exact relatedM_pure rfl

variable {V} in
theorem publishIndex_same {a b : VersionedSequentialState} (h : SameState V a b) (m : SequentialManifest)
    (entries : List SequentialBatchEntry) (last : U64) :
    RelatedM (bridge t) Plain V (publishIndex t a m entries last) (publishIndex t b m entries last) := by
  unfold publishIndex
  refine request_same .newManifestKey fun V₁ hV₁ key key' hkey => ?_
  obtain rfl : key = key' := hkey
  rw [← h.state]
  split
  · exact relatedM_pure rfl
  · refine (writeBatchIndex_same t V₁ _ _).bind fun V₂ hV₂ r r' hr => ?_
    cases hr with
    | preconditionFailed | retryableConflict => exact relatedM_pure rfl
    | applied =>
        refine (writeManifest_same t V₂ _ _).bind fun V₃ hV₃ r r' hr => ?_
        cases hr with
        | preconditionFailed | retryableConflict => exact relatedM_pure rfl
        | applied =>
            have h₃ := ((h.mono hV₁).mono hV₂).mono hV₃
            refine (compareExchange_same t h₃ _).bind fun V₄ _ r r' hr => ?_
            cases hr with
            | applied | preconditionFailed | retryableConflict => exact relatedM_pure rfl

theorem indexPass_same : RelatedM (bridge t) Plain V (indexPass t H F) (indexPass t H F) := by
  unfold indexPass
  refine (load_same t V).bind fun V₁ _ r r' hr => ?_
  cases hr with
  | none => exact relatedM_pure rfl
  | some h =>
      dsimp only
      rw [← h.state]
      refine (loadManifest_same t V₁ _).bind fun V₂ hV₂ m _ hm => ?_
      subst hm
      refine (loadBatchIndex_same t V₂ _).bind fun V₃ hV₃ entries _ he => ?_
      subst he
      refine (collectWals_same t H V₃ _ _).bind fun V₄ hV₄ wals _ hw => ?_
      subst hw
      split
      · exact relatedM_pure rfl
      · refine (extendManifest_same t F V₄ _ _ _ _).bind fun V₅ hV₅ m _ hm => ?_
        subst hm
        cases m with
        | none => exact relatedM_pure rfl
        | some m => exact publishIndex_same t ((((h.mono hV₂).mono hV₃).mono hV₄).mono hV₅) m _ _

theorem indexLoop_same (attempts : Nat) :
    RelatedM (bridge t) Plain V (indexLoop t H F attempts) (indexLoop t H F attempts) := by
  induction attempts generalizing V with
  | zero =>
      unfold indexLoop
      refine (load_same t V).bind fun V' _ r r' hr => relatedM_pure ?_
      cases hr with
      | none => rfl
      | some h =>
          exact congrArg (fun st => indexResult .retryableConflict (some st)) h.state
  | succ attempts ih =>
      unfold indexLoop
      refine (indexPass_same t H F V).bind fun V' _ r r' hr => ?_
      subst hr
      cases r with
      | none => exact ih V'
      | some r => exact relatedM_pure rfl

theorem index_same (attempts : Nat) :
    RelatedM (bridge t) SameOutcome V (index t H F attempts) (index t H F attempts) := by
  unfold index
  refine (indexLoop_same t H F V attempts).bind fun V' _ r r' hr => ?_
  subst hr
  exact relatedM_pure (.done (.indexed _))

end walIndexer

section snapshotLoader

variable (t : TableDescriptor) (H : Hashes) (V : Pairing)

theorem requiredWals_same (seq : U64) (n : Nat) :
    RelatedM (bridge t) Plain V (requiredWals t H seq n) (requiredWals t H seq n) := by
  induction n generalizing V seq with
  | zero => exact relatedM_pure rfl
  | succ n ih =>
      unfold requiredWals
      refine (loadSequentialWal_same t H V _).bind fun V' _ wal wal' hwal => ?_
      subst hwal
      cases wal with
      | none => exact relatedM_pure rfl
      | some wal =>
          refine (ih V' (seq + 1)).bind fun V'' _ rest rest' hrest => ?_
          subst hrest
          cases rest with
          | none => exact relatedM_pure rfl
          | some rest => exact relatedM_pure rfl

theorem loadLoop_same (probeLimit attempts : Nat) :
    RelatedM (bridge t) (fun V => Option.Rel (SameSnapshot V)) V (loadLoop t H probeLimit attempts)
      (loadLoop t H probeLimit attempts) := by
  induction attempts generalizing V with
  | zero => exact relatedM_throw _
  | succ attempts ih =>
      unfold loadLoop
      refine (load_same t V).bind fun V₁ _ r r' hr => ?_
      cases hr with
      | none => exact relatedM_pure .none
      | some h =>
          dsimp only
          rw [← h.state]
          refine (loadManifest_same t V₁ _).bind fun V₂ hV₂ m _ hm => ?_
          subst hm
          refine (requiredWals_same t H V₂ _ _).bind fun V₃ hV₃ required _ hreq => ?_
          subst hreq
          cases required with
          | none => exact ih V₃
          | some required =>
              refine (collectWals_same t H V₃ _ _).bind fun V₄ hV₄ probed _ hp => ?_
              subst hp
              refine relatedM_pure (.some ⟨hV₄ _ _ (hV₃ _ _ (hV₂ _ _ h.version)), ?_⟩)
              simp only [snapshot, h.state]

theorem loadSnapshot_same (probeLimit : Nat) :
    RelatedM (bridge t) SameOutcome V (loadSnapshot t H probeLimit) (loadSnapshot t H probeLimit) := by
  unfold loadSnapshot
  exact (loadLoop_same t H V probeLimit 2).bind fun V' _ r r' hr => relatedM_pure (.done (.loaded hr))

end snapshotLoader

variable {ι : Type} [DecidableEq ι]

omit [DecidableEq ι] in
theorem method_same (P : Params ι) (i : ι) (c : Call) (V : Pairing) :
    RelatedM (bridge P.table) SameOutcome V (method P i c) (method P i c) := by
  cases c with
  | start => exact start_same P.table V _
  | fence seq epoch => exact fence_same P.table P.hashes V seq epoch
  | importBatch batch => exact importBatch_same P.table P.hashes V batch
  | publish batch seq epoch => exact publish_same P.table V _ seq epoch
  | index => exact index_same P.table P.hashes P.format V _
  | load probeLimit => exact loadSnapshot_same P.table P.hashes V probeLimit

theorem code_same (P : Params ι) (i : ι) (c : Call) (V : Pairing) :
    Related (bridge P.table) SameOutcome V ((service P).code i c) ((service P).code i c) := by
  refine Related.bind (method_same P i c V) fun V' _ r r' hr => ?_
  cases hr with
  | error e => exact .ret (.done (.threw e))
  | ok h => exact .ret h

end DBPlayground.OpaqueVersions
