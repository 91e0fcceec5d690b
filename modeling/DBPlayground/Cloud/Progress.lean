import DBPlayground.Cloud.Correct
import DBPlayground.Cloud.SoloWriter

namespace DBPlayground.Progress

open ByteReader Table Wire Records Keys WalCodec WalRoundTrip WalLimits WalSize Program Session Solo Store
  StateStore TableWriter WalIndexer CloudSystem Log Invariant ReadSpecs LogReads Correct SoloReads SoloWriter

variable {ι : Type}

/-- A table whose CURRENT can be created, over stores that give all benign
answers. -/
structure Creatable (P : Params ι) : Prop where
  serves : Serves P
  short : P.table.tableId.length ≤ 2 ^ 20
  manifest : ∃ m, encodeSequentialManifest (initialManifest P.table) = .ok m

structure Usable (P : Params ι) : Prop extends Creatable P where
  located : trimSlashes P.table.filePrefix ≠ []
  columns : P.table.schema.length ≤ 1024

/-- A table that nobody but object `i` has touched, and that `i` raised the
epoch of. Its fields are `x`; what it appended is in `created`. -/
structure Opened (P : Params ι) (i : ι) (x : Writer) (w : World ι) : Prop where
  writer : w.writers i = x
  others : ∀ j, j ≠ i → w.writers j = {}
  current : ∃ b, w.entries (currentKey P.table) = some ⟨b, 2⟩ ∧
    decodeSequentialState b = .ok (raised (initialState P.table))
  manifest : ∃ v, w.entries (metaKey P.table initialKey) = some v ∧
    encodeSequentialManifest (initialManifest P.table) = .ok v.value
  objects : ∀ key, key ≠ currentKey P.table → key ≠ metaKey P.table initialKey → w.entries key = none
  version : w.nextVersion = 3
  issued : ∀ key, w.issued key = none
  life : w.incarnation i = 1
  unborn : ∀ j, j ≠ i → w.incarnation j = 0
  acquired : w.acquired = [((i, 1), 1)]

variable {P : Params ι} {i : ι} {s : World ι}

theorem tableId_ne_nil (hU : Creatable P) : P.table.tableId ≠ [] := by
  obtain ⟨m, hm⟩ := hU.manifest
  obtain ⟨_, h, _⟩ := Except.bind_ok.mp hm
  exact fun hnil => throwIf_ok.mp h (.inl hnil)

theorem encode_initial (hU : Creatable P) (st : SequentialState) (hid : st.tableId = P.table.tableId)
    (hkey : st.manifestKey = initialKey) (hle : st.indexedSeq ≤ st.publishedSeq) (hver : st.schemaVersion = 1) :
    ∃ b, encodeSequentialState st = .ok b := by
  have hlen := hU.short
  refine encode_state (by rw [hid]; exact tableId_ne_nil hU) (by rw [hid]; omega) ?_ ?_ hle hver
  · rw [hkey]
    decide
  · rw [hkey]
    decide

theorem Opened.create {x : Writer} (h : Opened P i x s) (path bytes : Bytes) :
    Opened P i x (s.create i path bytes) :=
  ⟨h.writer, h.others, h.current, h.manifest, h.objects, h.version, h.issued, h.life, h.unborn, h.acquired⟩

variable [DecidableEq ι]

theorem Opened.setWriter {x : Writer} (h : Opened P i x s) (y : Writer) : Opened P i y (s.setWriter i y) := by
  refine ⟨World.setWriter_writers _ _ _, ?_, h.current, h.manifest, h.objects, h.version, h.issued, h.life, h.unborn,
    h.acquired⟩
  intro j hj
  rw [show (s.setWriter i y).writers j = s.writers j from Function.update_of_ne hj _ _]
  exact h.others j hj

theorem runs_code {c : Call} {r : Except Exn (Outcome Call Reply)} {t : World ι}
    (h : SoloRun P i c (method P i c) s r t) :
    Runs (service P) i c ((service P).code i c) s (outcome r) t := by
  refine h.bind ?_
  cases r <;> exact .ret _ _

variable {th : ι → Thread Op Ans Call Reply} {c d : Call} {r : Except Exn (Outcome Call Reply)} {t : World ι}

theorem steps_method (hc : clientCall c = true) (ha : P.accepts i c = true)
    (h : SoloRun P i c (method P i c) (s.enter i c) r t) :
    Steps (service P) ⟨s, Function.update th i .idle⟩ ⟨t, Function.update th i (.busy c (.ret (outcome r)))⟩ :=
  steps_call (by simp [service, hc, ha]) (runs_code h)

theorem steps_goesOn (h : SoloRun P i d (method P i d) s r t) :
    Steps (service P) ⟨s, Function.update th i (.busy c (.ret (.tail d)))⟩
      ⟨t, Function.update th i (.busy d (.ret (outcome r)))⟩ :=
  steps_tail.trans (runs_code h).steps

theorem idle_eq : Function.update (fun _ : ι => (Thread.idle : Thread Op Ans Call Reply)) i .idle = fun _ => .idle :=
  Function.update_eq_self i _

theorem steps_idle (hidle : th i = .idle) (hc : clientCall c = true) (ha : P.accepts i c = true)
    (h : SoloRun P i c (method P i c) (s.enter i c) r t) :
    Steps (service P) ⟨s, th⟩ ⟨t, Function.update th i (.busy c (.ret (outcome r)))⟩ := by
  have hsteps : Steps (service P) ⟨s, Function.update th i .idle⟩ _ := steps_method hc ha h
  rwa [← hidle, Function.update_eq_self] at hsteps

theorem steps_resume (hth : th i = .busy c (.ret (.tail d))) (h : SoloRun P i d (method P i d) s r t) :
    Steps (service P) ⟨s, th⟩ ⟨t, Function.update th i (.busy d (.ret (outcome r)))⟩ := by
  have hsteps : Steps (service P) ⟨s, Function.update th i (.busy c (.ret (.tail d)))⟩ _ := steps_goesOn h
  rwa [← hth, Function.update_eq_self] at hsteps

theorem steps_done {reply : Reply} : Steps (service P)
    ⟨s, Function.update (fun _ => .idle) i (.busy c (.ret (.done reply)))⟩ ⟨s, fun _ => .idle⟩ := by
  have hsteps : Steps (service P) ⟨s, Function.update (fun _ => .idle) i (.busy c (.ret (.done reply)))⟩ _ := steps_reply
  rwa [idle_eq] at hsteps

theorem opened_of_start {m b b' : Bytes} (hm : encodeSequentialManifest (initialManifest P.table) = .ok m)
    (hb' : encodeSequentialState (raised (initialState P.table)) = .ok b') :
    Opened P i {} (((((World.empty : World ι).enter i .start).put (metaKey P.table initialKey) m).put
      (currentKey P.table) b).put (currentKey P.table) b' |>.addAcquired i 1) where
  writer := rfl
  others _ _ := rfl
  current := by
    refine ⟨b', ?_, decode_encode_state hb'⟩
    simp only [World.addAcquired, World.put, Function.update_self]
    rfl
  manifest := by
    refine ⟨⟨m, 0⟩, ?_, hm⟩
    simp only [World.addAcquired, World.put,
      Function.update_of_ne (metaKey_ne_current (t := P.table) (show initialKey ≠ ascii "CURRENT" by decide)),
      Function.update_self]
    rfl
  objects key hcur hman := by
    simp only [World.addAcquired, World.put, Function.update_of_ne hcur, Function.update_of_ne hman]
    rfl
  version := rfl
  issued _ := rfl
  life := by simp [World.addAcquired, World.put, World.enter, World.empty]
  unborn j hj := by simp [World.addAcquired, World.put, World.enter, World.empty, Function.update_of_ne hj]
  acquired := by simp [World.addAcquired, World.put, World.enter, World.empty]

theorem exists_raised (hU : Creatable P) (hstart : P.accepts i .start = true) (hatt : P.attempts i ≠ 0) :
    ∃ s, Reachable P ⟨s, Function.update (fun _ => .idle) i (.busy .start (.ret (.tail (.fence 1 1))))⟩ ∧
      Opened P i {} s ∧ s.created = [] := by
  obtain ⟨n, hn⟩ := Nat.exists_eq_add_one_of_ne_zero hatt
  obtain ⟨m, hm⟩ := hU.manifest
  obtain ⟨b, hb⟩ := encode_initial hU (initialState P.table) rfl rfl (BitVec.le_refl _) rfl
  obtain ⟨b', hb'⟩ := encode_initial hU (raised (initialState P.table)) rfl rfl (BitVec.le_refl _) rfl
  have hrun := runs_start_new (P := P) (i := i) (n := n) (s := (World.empty : World ι).enter i .start) hU.serves rfl rfl
    rfl hm hb hb'
  rw [← hn] at hrun
  exact ⟨_, steps_idle rfl rfl hstart hrun, opened_of_start hm hb', rfl⟩

def startedWriter (t : TableDescriptor) (next : U64) : Writer := ⟨some ⟨raised (initialState t), 2⟩, next⟩

/-- The log with nothing but the fence of object `i` in it. -/
structure Fenced (P : Params ι) (i : ι) (fence : Creation ι) : Prop where
  author : fence.author = (i, 1)
  kind : (walOf P fence).kind = .fence
  writerEpoch : (walOf P fence).writerEpoch = 1
  size : fence.bytes.length ≤ maxWalBytes

theorem exists_started (hU : Usable P) (hstart : P.accepts i .start = true) (hatt : P.attempts i ≠ 0) :
    ∃ s fence, Reachable P ⟨s, Function.update (fun _ => .idle) i
        (.busy (.fence 1 1) (.ret (.done (.started ⟨.started, 1⟩))))⟩ ∧
      Opened P i (startedWriter P.table 2) s ∧ s.created = [fence] ∧ Fenced P i fence := by
  obtain ⟨s, hreach, hopen, hnil⟩ := exists_raised hU.toCreatable hstart hatt
  obtain ⟨b, hv, hd⟩ := hopen.current
  have hlen := hU.short
  obtain ⟨bytes, hbytes⟩ := encode_fence (H := P.hashes) (t := P.table) 1 1 (tableId_ne_nil hU.toCreatable)
    (by omega) (by decide) (by decide) (by show (ascii "fence-1").length < 2 ^ 32; decide)
  have hinv : Inv P s := inv_of_reachable hreach
  have hrun := runs_fence (i := i) (n := 0) hU.serves hinv hv hd rfl
    (show (0 : U64) + 1 = 1 by decide) (show (0 : U64) < 1 by decide) (by rw [hnil]; rfl) rfl (by decide) hU.located
    hbytes
  refine ⟨_, ⟨walPath P.table 1, bytes, (i, s.incarnation i)⟩, hreach.trans (steps_goesOn hrun),
    (hopen.create _ bytes).setWriter _, ?_, ?_⟩
  · simp only [World.setWriter, World.create, hnil, List.nil_append]
  · obtain ⟨_, digest, hwal⟩ := Slot.of_encode (P := P) (k := 0) (i, s.incarnation i)
      (walKey_ok (by decide) hU.located) hbytes (fits_fence _ _) (.fence hbytes)
    refine ⟨by rw [hopen.life], ?_, ?_, ?_⟩
    · exact congrArg SequentialWal.kind hwal
    · exact congrArg SequentialWal.writerEpoch hwal
    · show bytes.length ≤ maxWalBytes
      rw [length_encode hbytes, walSize, maxWalBytes]
      show 9 + (4 + P.table.tableId.length) + 24 + (4 + (ascii "fence-1").length) + (4 + 0) + 4 + 0 + 48 ≤ 268435456
      rw [show (ascii "fence-1").length = 7 from rfl]
      omega

/-- The batches that a run of the system may be given, with what the codec
makes of them. -/
structure Importable (P : Params ι) (i : ι) (b : CloudImportBatch) : Prop where
  accepted : P.accepts i (.importBatch b) = true
  valid : isValidBatch P.table b = true
  encodes : ∃ bytes, encodeSequentialWal P.hashes P.table.schema (batchWal P.table b 1 1) = .ok bytes
  fits : Fits P.table.schema (batchWal P.table b 1 1)

structure HoldsBatch (P : Params ι) (i : ι) (b : CloudImportBatch) (seq e : U64) (d : Creation ι) : Prop where
  author : d.author = (i, 1)
  encoded : encodeSequentialWal P.hashes P.table.schema (batchWal P.table b seq e) = .ok d.bytes
  decoded : ∃ digest, walOf P d = reread P.table.schema digest (batchWal P.table b seq e)

theorem setWriter_self {x : Writer} (h : s.writers i = x) : s.setWriter i x = s := by
  rw [← h, World.setWriter, Function.update_eq_self]

omit [DecidableEq ι] in
theorem countKnown_started {fence : Creation ι} {b : CloudImportBatch} {known : List SequentialBatchEntry} {n : Nat}
    {digest : Bytes} (hs : Inv P s) (hlog : s.created = [fence]) (hfence : Fenced P i fence) (hk : IndexOk P s n known) :
    countKnown known (b.batchIds.headD []) digest b.batchIds 0 0 = some (0, 0) := by
  refine countKnown_fresh ?_
  intro id _ e he
  obtain ⟨k, d, hd, _, _, hid, _⟩ := hk.sound e he
  have hmem := List.mem_of_getElem? hd
  rw [hlog, List.mem_singleton] at hmem
  rw [((hs.slots k d hd).fence_contents (by rw [hmem]; exact hfence.kind)).1] at hid
  cases hid

omit [DecidableEq ι] in
theorem batchIds_ne_nil {b : CloudImportBatch} (hb : Importable P i b) : b.batchIds ≠ [] := by
  have hvalid := hb.valid
  simp only [isValidBatch, Bool.and_eq_true, Bool.not_eq_true', List.isEmpty_eq_false_iff] at hvalid
  exact hvalid.1.1.1.1

theorem runs_import_append {fence : Creation ι} {b : CloudImportBatch} (hU : Usable P) (hs : Inv P s)
    (hopen : Opened P i (startedWriter P.table 2) s) (hlog : s.created = [fence]) (hfence : Fenced P i fence)
    (hb : Importable P i b) (h : SoloRun P i (.importBatch b) (appendBatch P.table P.hashes b 2 1) s r t) :
    SoloRun P i (.importBatch b) (importBatch P.table P.hashes b) s r t := by
  obtain ⟨v, hv, hd⟩ := hopen.current
  obtain ⟨bytes, hbytes⟩ := hb.encodes
  obtain ⟨ids, entries, _, _, hreq⟩ := decode_encode_wal hbytes hb.fits
  have hself : s.setWriter i ⟨some ⟨raised (initialState P.table), 2⟩, 2⟩ = s := setWriter_self hopen.writer
  have hsize : ∀ d ∈ s.created, d.bytes.length ≤ maxWalBytes := by
    rw [hlog]
    simpa using hfence.size
  have hone : s.created.length = 1 := by rw [hlog]; rfl
  refine runs_import 0 0 hU.serves hs hU.columns hopen.writer hv hd rfl hb.valid hbytes hreq (by rw [hone]; decide)
    (by rw [hone]; decide) hsize ?_ ?_
  · intro known hk
    rw [hself] at hk
    exact countKnown_started hs hlog hfence hk
  · rw [hself, if_neg (fun h => batchIds_ne_nil hb (List.length_eq_zero_iff.mp h.symm)), if_neg (fun h => h rfl)]
    exact h

omit [DecidableEq ι] in
theorem payloadDigest_eq {b : CloudImportBatch} {seq e seq' e' : U64} {bytes bytes' : Bytes} {wal wal' : SequentialWal}
    (h : encodeSequentialWal P.hashes P.table.schema (batchWal P.table b seq e) = .ok bytes)
    (hd : decodeSequentialWal P.hashes P.table.schema bytes = .ok wal)
    (h' : encodeSequentialWal P.hashes P.table.schema (batchWal P.table b seq' e') = .ok bytes')
    (hd' : decodeSequentialWal P.hashes P.table.schema bytes' = .ok wal') : wal.payloadDigest = wal'.payloadDigest := by
  obtain ⟨_, ids, entries, hi, hc, rfl⟩ := decoded_eq h hd
  obtain ⟨_, ids', entries', hi', hc', rfl⟩ := decoded_eq h' hd'
  obtain rfl : ids = ids' := Except.ok.inj (hi.symm.trans hi')
  obtain rfl : entries = entries' := List.right_unique_forall₂' (fun _ _ _ h h' => Except.ok.inj (h.symm.trans h')) hc hc'
  rfl

theorem runs_import_known {b : CloudImportBatch} {k : Nat} {d : Creation ι} {cs : VersionedSequentialState} {next e : U64}
    {v : VersionedValue} {st : SequentialState} (hU : Usable P) (hs : Inv P s) (hw : s.writers i = ⟨some cs, next⟩)
    (hv : s.entries (currentKey P.table) = some v) (hd : decodeSequentialState v.value = .ok st)
    (hepoch : st.writerEpoch = cs.state.writerEpoch) (hb : Importable P i b)
    (hsize : ∀ d ∈ s.created, d.bytes.length ≤ maxWalBytes) (hnext : next.toNat ≤ s.created.length + 1)
    (hroom : s.created.length + 1 < 2 ^ 64) (hk : s.created[k]? = some d)
    (hold : HoldsBatch P i b (BitVec.ofNat 64 (k + 1)) e d) (hidx : k < st.indexedSeq.toNat) :
    SoloRun P i (.importBatch b) (importBatch P.table P.hashes b) s
      (.ok (.done (.imported ⟨.alreadyCommitted, st.writerEpoch, st.publishedSeq, BitVec.ofNat 64 (k + 1)⟩)))
      (s.setWriter i ⟨some ⟨st, v.version⟩, next⟩) := by
  obtain ⟨bytes, hbytes⟩ := hb.encodes
  obtain ⟨ids, entries, _, _, hreq⟩ := decode_encode_wal hbytes hb.fits
  obtain ⟨digest, hwal⟩ := hold.decoded
  have hids : (walOf P d).batchIds = b.batchIds := congrArg SequentialWal.batchIds hwal
  have hop : (walOf P d).operationId = b.batchIds.headD [] := congrArg SequentialWal.operationId hwal
  have hdigest := payloadDigest_eq hold.encoded (hs.slots k d hk).decoded hbytes hreq
  have hle : BitVec.ofNat 64 (k + 1) ≤ st.publishedSeq := by
    obtain ⟨st', hc⟩ := hs.current v hv
    obtain rfl : st' = st := Except.ok.inj (hc.decoded.symm.trans hd)
    have hpub : st'.indexedSeq.toNat ≤ st'.publishedSeq.toNat := hc.state.indexed
    show (BitVec.ofNat 64 (k + 1)).toNat ≤ st'.publishedSeq.toNat
    rw [BitVec.toNat_ofNat]
    have hmod := Nat.mod_le (k + 1) (2 ^ 64)
    omega
  refine runs_import b.batchIds.length (BitVec.ofNat 64 (k + 1)) hU.serves hs hU.columns hw hv hd hepoch hb.valid hbytes
    hreq hnext hroom hsize ?_ ?_
  · intro known hknown
    have hfound : ∀ id ∈ b.batchIds, ∃ e ∈ known, e.batchId = id := fun id hid =>
      hknown.complete k d hk (by omega) id (by rw [hids]; exact hid)
    rw [← hdigest, ← Nat.zero_add b.batchIds.length]
    refine countKnown_known (.inl ⟨rfl, batchIds_ne_nil hb⟩) hfound ?_
    intro id hid e he heq
    obtain ⟨k', d', hk', _, hseq, hmem, hop', hdig'⟩ := hknown.sound e he
    obtain rfl : k' = k := hs.disjoint k' k d' d hk' hk id (by rw [← heq]; exact hmem) (by rw [hids]; exact hid)
    obtain rfl : d' = d := Option.some.inj (hk'.symm.trans hk)
    exact ⟨hop'.trans hop, hdig', hseq⟩
  · rw [if_pos rfl, answerKnown, if_pos hle]
    refine runs_self hU.serves ?_
    rw [World.setWriter_writers]
    exact runsM_pure _

theorem exists_appended {b : CloudImportBatch} (hU : Usable P) (hstart : P.accepts i .start = true)
    (hatt : P.attempts i ≠ 0) (hb : Importable P i b) (hvis : b.visibility = .immediate) :
    ∃ s fence d, Reachable P ⟨s, Function.update (fun _ => .idle) i
        (.busy (.importBatch b) (.ret (.tail (.publish b 2 1))))⟩ ∧
      Opened P i (startedWriter P.table 3) s ∧ s.created = [fence, d] ∧ Fenced P i fence ∧ HoldsBatch P i b 2 1 d := by
  obtain ⟨s, fence, hreach, hopen, hlog, hfence⟩ := exists_started hU hstart hatt
  obtain ⟨bytes, hbytes⟩ := hb.encodes
  obtain ⟨bytes', hbytes'⟩ := encode_batch 2 1 hbytes (by decide) (by decide)
  have hinv : Inv P s := inv_of_reachable hreach
  have hone : s.created.length = 1 := by rw [hlog]; rfl
  have happend := runs_appendBatch hU.serves hinv hopen.writer (by rw [hone]; rfl) (by rw [hone]; decide) hU.located
    hbytes' hvis
  have hsteps := (hreach.trans steps_done).trans
    (steps_idle rfl rfl hb.accepted (runs_import_append hU hinv hopen hlog hfence hb happend))
  obtain ⟨_, digest, hwal⟩ := Slot.of_encode (P := P) (k := 1) (i, s.incarnation i)
    (walKey_ok (by decide) hU.located) hbytes' ⟨hb.fits.count, hb.fits.payload⟩
    (.batch b ⟨i, hb.accepted⟩ hb.valid hbytes')
  refine ⟨_, fence, ⟨walPath P.table 2, bytes', (i, s.incarnation i)⟩, hsteps,
    (hopen.create _ bytes').setWriter _, ?_, hfence, ⟨by rw [hopen.life], hbytes', digest, hwal⟩⟩
  simp only [World.setWriter, World.create, hlog, List.cons_append, List.nil_append]

/-- Object `i` is started, its batch is in slot 2 and published. -/
structure Committed (P : Params ι) (i : ι) (b : CloudImportBatch) (w : World ι) (fence d : Creation ι) : Prop where
  writer : ∃ cs v, w.writers i = ⟨some cs, 3⟩ ∧ cs.state.writerEpoch = 1 ∧
    w.entries (currentKey P.table) = some v ∧ decodeSequentialState v.value = .ok cs.state
  published : ∀ cs, (w.writers i).currentState = some cs → cs.state.publishedSeq = 2
  life : w.incarnation i = 1
  acquired : w.acquired = [((i, 1), 1)]
  log : w.created = [fence, d]
  fenced : Fenced P i fence
  holds : HoldsBatch P i b 2 1 d

theorem exists_committed {b : CloudImportBatch} (hU : Usable P) (hstart : P.accepts i .start = true)
    (hatt : P.attempts i ≠ 0) (hb : Importable P i b) (hvis : b.visibility = .immediate) :
    ∃ s fence d, Reachable P ⟨s, Function.update (fun _ => .idle) i
        (.busy (.publish b 2 1) (.ret (.done (.imported ⟨.committed, 1, 2, 2⟩))))⟩ ∧
      Committed P i b s fence d := by
  obtain ⟨s, fence, d, hreach, hopen, hlog, hfence, hd⟩ := exists_appended hU hstart hatt hb hvis
  obtain ⟨n, hn⟩ := Nat.exists_eq_add_one_of_ne_zero hatt
  obtain ⟨v, hv, hdec⟩ := hopen.current
  obtain ⟨bytes, hbytes⟩ := encode_initial hU.toCreatable (published (raised (initialState P.table)) 2) rfl rfl
    (by show (0 : U64) ≤ 2; decide) rfl
  have hrun := runs_publish (P := P) (i := i) (b := b) (n := n) hU.serves hv hdec rfl (BitVec.le_refl _)
    (show (0 : U64) < 2 by decide) (show (0 : U64) + 1 = 1 by decide) hbytes
  rw [← hn] at hrun
  refine ⟨_, fence, d, hreach.trans (steps_goesOn hrun),
    ⟨⟨⟨published (raised (initialState P.table)) 2, s.nextVersion⟩, ⟨bytes, s.nextVersion⟩, ?_, ?_, ?_,
      decode_encode_state hbytes⟩, ?_, hopen.life, hopen.acquired, hlog, hfence, hd⟩⟩
  · rw [World.setWriter_writers, hopen.writer]
    rfl
  · rfl
  · exact Function.update_self (currentKey P.table) _ s.entries
  · intro cs hcs
    rw [World.setWriter_writers] at hcs
    cases hcs
    rfl

end DBPlayground.Progress
