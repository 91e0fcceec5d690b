import DBPlayground.Cloud.SoloReads
import DBPlayground.Cloud.WalSize

namespace DBPlayground.SoloWriter

open ByteReader Table Wire Records Keys WalCodec WalRoundTrip WalLimits WalSize Program Session Solo Store
  StateStore TableWriter WalIndexer CloudSystem Log Invariant ReadSpecs LogReads SoloReads

section Encoding

variable {t : TableDescriptor} {H : Hashes}

theorem encode_state {st : SequentialState} (hid : st.tableId ≠ []) (hidlen : st.tableId.length < 2 ^ 32)
    (hkey : st.manifestKey.take 9 = ascii "manifest/") (hkeylen : st.manifestKey.length < 2 ^ 32)
    (hle : st.indexedSeq ≤ st.publishedSeq) (hver : st.schemaVersion = 1) :
    ∃ b, encodeSequentialState st = .ok b := by
  refine ⟨_, Except.bind_ok.mpr ⟨(), throwIf_ok.mpr ?_, Except.bind_ok.mpr ⟨_, putString_ok.mpr ⟨hidlen, rfl⟩,
    Except.bind_ok.mpr ⟨_, putString_ok.mpr ⟨hkeylen, rfl⟩, rfl⟩⟩⟩⟩
  rintro (h | h | h | h)
  · exact hid h
  · exact h hkey
  · exact absurd hle (BitVec.not_le.mpr h)
  · exact h hver

theorem encode_fence (seq epoch : U64) (hid : t.tableId ≠ []) (hlen : t.tableId.length < 2 ^ 32) (hseq : seq ≠ 0)
    (hepoch : epoch ≠ 0) (hop : (fenceWal t seq epoch).operationId.length < 2 ^ 32) :
    ∃ b, encodeSequentialWal H t.schema (fenceWal t seq epoch) = .ok b := by
  refine ⟨_, encode_ok.mpr ⟨⟨?_, ?_, ?_, rfl, Nat.two_pow_pos 32⟩, _, _, [], Except.bind_ok.mpr ⟨_,
    putString_ok.mpr ⟨hlen, rfl⟩, Except.bind_ok.mpr ⟨_, putString_ok.mpr ⟨hop, rfl⟩, Except.bind_ok.mpr ⟨_,
      rfl, rfl⟩⟩⟩, rfl, .nil, rfl⟩⟩
  · rintro (h | h | h | h)
    · exact hid h
    · exact hseq h
    · exact hepoch h
    · simp [fenceWal, ascii] at h
  · rintro ⟨h, _⟩
    cases h
  · rintro ⟨_, h | h⟩ <;> exact h rfl

theorem encode_batch {b : CloudImportBatch} (seq epoch : U64) {bytes : Bytes}
    (h : encodeSequentialWal H t.schema (batchWal t b 1 1) = .ok bytes) (hseq : seq ≠ 0) (hepoch : epoch ≠ 0) :
    ∃ bytes', encodeSequentialWal H t.schema (batchWal t b seq epoch) = .ok bytes' := by
  obtain ⟨hw, header, ids, entries, hh, hi, he, _⟩ := encode_ok.mp h
  obtain ⟨tableId, ht, hh⟩ := Except.bind_ok.mp hh
  obtain ⟨operationId, ho, hh⟩ := Except.bind_ok.mp hh
  obtain ⟨ids', hi', _⟩ := Except.bind_ok.mp hh
  refine ⟨_, encode_ok.mpr ⟨⟨?_, hw.append, hw.fence, hw.version, hw.count⟩, _, ids, entries, Except.bind_ok.mpr
    ⟨tableId, ht, Except.bind_ok.mpr ⟨operationId, ho, Except.bind_ok.mpr ⟨ids', hi', rfl⟩⟩⟩, hi, he, rfl⟩⟩
  rintro (h | h | h | h)
  · exact hw.header (.inl h)
  · exact hseq h
  · exact hepoch h
  · exact hw.header (.inr (.inr (.inr h)))

end Encoding

variable {ι : Type} [DecidableEq ι] {P : Params ι} {i : ι} {c : Call} {α : Type} {r : Except Exn α} {s t : World ι}

theorem runs_putIfAbsent {key value : Bytes} (hP : Serves P) (hnone : s.entries key = none) :
    SoloRun P i c (putIfAbsent key value) s (.ok (.applied s.nextVersion)) (s.put key value) :=
  runs_ask .answer hP (by simp only [perform, if_pos hnone]) rfl

theorem runs_create {path bytes : Bytes} {f : CreateFileResult → StoreMethod α} (hP : Serves P)
    (hnone : s.files path = none) (hlast : path ≠ walPath P.table uint64Max)
    (h : SoloRun P i c (f .created) (s.create i path bytes) r t) :
    SoloRun P i c (createIfAbsent path bytes >>= f) s r t :=
  runs_request .answer hP (by simp only [perform, if_pos hnone]) (bne_iff_ne.mpr hlast) h

/-- The condition under which `CompareExchange` passes a new state on. -/
structure Follows (t : TableDescriptor) (st next : SequentialState) : Prop where
  tableId : next.tableId = t.tableId
  version : next.stateVersion = st.stateVersion + 1
  le : Le st next
  indexed : next.indexedSeq ≤ next.publishedSeq

theorem Follows.not_refused {t : TableDescriptor} {st next : SequentialState} (hn : Follows t st next) :
    ¬ (next.tableId ≠ t.tableId ∨ next.stateVersion ≠ st.stateVersion + 1 ∨ next.writerEpoch < st.writerEpoch ∨
      next.indexedSeq < st.indexedSeq ∨ next.publishedSeq < st.publishedSeq ∨ next.indexedSeq > next.publishedSeq) := by
  rintro (h | h | h | h | h | h)
  · exact h hn.tableId
  · exact h hn.version
  · exact absurd hn.le.writerEpoch (BitVec.not_le.mpr h)
  · exact absurd hn.le.indexedSeq (BitVec.not_le.mpr h)
  · exact absurd hn.le.publishedSeq (BitVec.not_le.mpr h)
  · exact absurd hn.indexed (BitVec.not_le.mpr h)

theorem runs_compareExchange {v : VersionedValue} {st next : SequentialState} {bytes : Bytes}
    {f : ConditionalWriteResult → StoreMethod α} (hP : Serves P) (hv : s.entries (currentKey P.table) = some v)
    (hn : Follows P.table st next) (hb : encodeSequentialState next = .ok bytes)
    (h : SoloRun P i c (f (.applied s.nextVersion)) ((s.put (currentKey P.table) bytes).acquire i c bytes) r t) :
    SoloRun P i c (StateStore.compareExchange P.table ⟨st, v.version⟩ next >>= f) s r t := by
  have hx : perform i c .answer (.compareExchange (currentKey P.table) v.version bytes) s =
      some (.ok (.applied s.nextVersion), (s.put (currentKey P.table) bytes).acquire i c bytes) := by
    simp only [perform, hv, Option.map_some, if_true]
  exact runsM_bind (runs_throwIf hn.not_refused (runsM_lift hb (runs_ask .answer hP hx rfl))) h

omit [DecidableEq ι] in
theorem acquire_start {st : SequentialState} {bytes : Bytes} (h : decodeSequentialState bytes = .ok st) :
    s.acquire i .start bytes = s.addAcquired i st.writerEpoch := by
  simp only [World.acquire, h]

omit [DecidableEq ι] in
theorem acquire_of_ne {bytes : Bytes} (h : c ≠ .start) : s.acquire i c bytes = s := by
  unfold World.acquire
  split
  · exact absurd rfl h
  · rfl

def raised (st : SequentialState) : SequentialState :=
  { st with writerEpoch := st.writerEpoch + 1, stateVersion := st.stateVersion + 1 }

theorem raised_follows {td : TableDescriptor} {st : SequentialState} (hid : st.tableId = td.tableId)
    (hle : st.indexedSeq ≤ st.publishedSeq) (hmax : st.writerEpoch ≠ uint64Max) : Follows td st (raised st) := by
  refine ⟨hid, rfl, ⟨?_, BitVec.le_refl _, BitVec.le_refl _⟩, hle⟩
  have hne : st.writerEpoch.toNat ≠ 18446744073709551615 := fun h => hmax (BitVec.eq_of_toNat_eq h)
  have hlt := st.writerEpoch.isLt
  show st.writerEpoch.toNat ≤ (st.writerEpoch + 1).toNat
  rw [toNat_succ]
  omega

theorem runs_acquireEpoch {n : Nat} {v : VersionedValue} {st : SequentialState} {bytes : Bytes} (hP : Serves P)
    (hv : s.entries (currentKey P.table) = some v) (hid : st.tableId = P.table.tableId)
    (hle : st.indexedSeq ≤ st.publishedSeq) (hmax : st.writerEpoch ≠ uint64Max)
    (hb : encodeSequentialState (raised st) = .ok bytes) :
    SoloRun P i .start (acquireEpoch P.table (n + 1) ⟨st, v.version⟩) s
      (.ok (.tail (.fence (st.indexedSeq + 1) (st.writerEpoch + 1))))
      ((s.put (currentKey P.table) bytes).addAcquired i (st.writerEpoch + 1)) := by
  rw [acquireEpoch, if_neg hmax]
  refine runs_compareExchange hP hv (raised_follows hid hle hmax) hb ?_
  rw [acquire_start (decode_encode_state hb)]
  exact runsM_pure _

theorem runs_start {n : Nat} {v : VersionedValue} {st : SequentialState} {bytes : Bytes} (hP : Serves P)
    (hidle : (s.writers i).currentState = none) (hv : s.entries (currentKey P.table) = some v)
    (hd : decodeSequentialState v.value = .ok st) (hid : st.tableId = P.table.tableId)
    (hle : st.indexedSeq ≤ st.publishedSeq) (hmax : st.writerEpoch ≠ uint64Max)
    (hb : encodeSequentialState (raised st) = .ok bytes) :
    SoloRun P i .start (start P.table (n + 1)) s (.ok (.tail (.fence (st.indexedSeq + 1) (st.writerEpoch + 1))))
      ((s.put (currentKey P.table) bytes).addAcquired i (st.writerEpoch + 1)) := by
  refine runs_self hP ?_
  rw [hidle]
  refine runsM_bind (runs_load hP hv hd hid rfl (runsM_pure _)) ?_
  exact runs_acquireEpoch hP hv hid hle hmax hb


theorem runs_start_new {n : Nat} {m b b' : Bytes} (hP : Serves P) (hidle : (s.writers i).currentState = none)
    (hcur : s.entries (currentKey P.table) = none) (hman : s.entries (metaKey P.table initialKey) = none)
    (hm : encodeSequentialManifest (initialManifest P.table) = .ok m)
    (hb : encodeSequentialState (initialState P.table) = .ok b)
    (hb' : encodeSequentialState (raised (initialState P.table)) = .ok b') :
    SoloRun P i .start (start P.table (n + 1)) s (.ok (.tail (.fence 1 1)))
      ((((s.put (metaKey P.table initialKey) m).put (currentKey P.table) b).put (currentKey P.table) b').addAcquired
        i 1) := by
  have hne : currentKey P.table ≠ metaKey P.table initialKey := (metaKey_ne_current (by decide)).symm
  have hcur' : (s.put (metaKey P.table initialKey) m).entries (currentKey P.table) = none := by
    simp only [World.put, Function.update_of_ne hne, hcur]
  have hinit : SoloRun P i .start (initializeTable P.table) s (.ok (.applied (s.nextVersion + 1)))
      ((s.put (metaKey P.table initialKey) m).put (currentKey P.table) b) := by
    refine runsM_bind (runsM_lift hm (runs_putIfAbsent hP hman)) ?_
    exact runsM_lift hb (runs_putIfAbsent hP hcur')
  have hv : ((s.put (metaKey P.table initialKey) m).put (currentKey P.table) b).entries (currentKey P.table) =
      some ⟨b, s.nextVersion + 1⟩ := by
    simp only [World.put, Function.update_self]
  have hstate : SoloRun P i .start (startingState P.table) s
      (.ok (some ⟨initialState P.table, s.nextVersion + 1⟩))
      ((s.put (metaKey P.table initialKey) m).put (currentKey P.table) b) := by
    refine runs_load_none hP hcur rfl (runsM_bind hinit ?_)
    exact load_runs hP hv (decode_encode_state hb) rfl rfl
  have hmax : (initialState P.table).writerEpoch ≠ uint64Max := show (0 : U64) ≠ uint64Max by decide
  have hraise := runs_acquireEpoch (i := i) (n := n) hP hv rfl (BitVec.le_refl _) hmax hb'
  rw [show (initialState P.table).indexedSeq + 1 = 1 from show (0 : U64) + 1 = 1 by decide,
    show (initialState P.table).writerEpoch + 1 = 1 from show (0 : U64) + 1 = 1 by decide] at hraise
  refine runs_self hP ?_
  rw [hidle]
  exact runsM_bind hstate hraise

omit [DecidableEq ι] in
theorem walKey_ok {seq : U64} (hseq : seq ≠ 0) (hloc : trimSlashes P.table.filePrefix ≠ []) :
    sequentialWalKey P.table seq = .ok (walPath P.table seq) := by
  rw [sequentialWalKey, throwIf, if_neg hseq, throwIf, if_neg hloc]
  rfl

theorem runs_fence {n : Nat} {seq epoch : U64} {v : VersionedValue} {st : SequentialState} {bytes : Bytes}
    (hP : Serves P) (hs : Inv P s) (hv : s.entries (currentKey P.table) = some v)
    (hd : decodeSequentialState v.value = .ok st) (hid : st.tableId = P.table.tableId)
    (hepoch : st.writerEpoch = epoch) (hidx : st.indexedSeq < seq) (hlen : s.created.length = n)
    (hseq : seq = BitVec.ofNat 64 (n + 1)) (hroom : n + 2 < 2 ^ 64) (hloc : trimSlashes P.table.filePrefix ≠ [])
    (hb : encodeSequentialWal P.hashes P.table.schema (fenceWal P.table seq epoch) = .ok bytes) :
    SoloRun P i (.fence seq epoch) (fence P.table P.hashes seq epoch) s (.ok (startReply .started epoch))
      ((s.create i (walPath P.table seq) bytes).setWriter i ⟨some ⟨st, v.version⟩, seq + 1⟩) := by
  have hnat : seq.toNat = n + 1 := by
    rw [hseq, BitVec.toNat_ofNat]
    omega
  have hz : seq ≠ 0 := by
    rintro rfl
    cases hnat
  have hlast : walPath P.table seq ≠ walPath P.table uint64Max := by
    intro h
    have hmax := congrArg BitVec.toNat (walPath_injective h)
    rw [hnat, show uint64Max.toNat = 18446744073709551615 from rfl] at hmax
    omega
  have hnone : s.files (walPath P.table seq) = none := by
    by_contra hne
    obtain ⟨b, hb⟩ := Option.ne_none_iff_exists'.mp hne
    have hle := (hs.onlySlots seq b hb).2
    omega
  refine runs_load hP hv hd hid rfl ?_
  dsimp only
  rw [if_neg (by rw [hepoch]; exact fun h => h rfl), if_neg (BitVec.not_le.mpr hidx)]
  refine runs_loadWal_none hP hs (by omega) hloc ?_
  refine runsM_lift hb (runsM_lift (walKey_ok hz hloc) (runs_create hP hnone hlast ?_))
  refine runs_load hP hv hd hid rfl (runs_self hP ?_)
  dsimp only
  rw [if_neg (by rw [hepoch]; exact fun h => h rfl)]
  exact runs_setSelf hP (runsM_pure _)

theorem countKnown_fresh {known : List SequentialBatchEntry} {op digest : Bytes} {ids : List Bytes} {already : Nat}
    {prior : U64} (h : ∀ id ∈ ids, ∀ e ∈ known, e.batchId ≠ id) :
    countKnown known op digest ids already prior = some (already, prior) := by
  induction ids with
  | nil => rfl
  | cons id ids ih =>
      have hnone : known.find? (·.batchId == id) = none := by
        rw [List.find?_eq_none]
        intro e he
        simpa using h id List.mem_cons_self e he
      rw [countKnown, hnone]
      exact ih fun id' hid => h id' (List.mem_cons_of_mem _ hid)

theorem countKnown_known {known : List SequentialBatchEntry} {op digest : Bytes} {ids : List Bytes} {already : Nat}
    {prior seq : U64} (hprior : prior = 0 ∧ ids ≠ [] ∨ prior = seq)
    (hfound : ∀ id ∈ ids, ∃ e ∈ known, e.batchId = id)
    (hsame : ∀ id ∈ ids, ∀ e ∈ known, e.batchId = id → e.operationId = op ∧ e.payloadDigest = digest ∧ e.seq = seq) :
    countKnown known op digest ids already prior = some (already + ids.length, seq) := by
  induction ids generalizing already prior with
  | nil =>
      obtain ⟨_, hne⟩ | rfl := hprior
      · exact absurd rfl hne
      · rfl
  | cons id ids ih =>
      obtain ⟨e, he, hid⟩ := hfound id List.mem_cons_self
      cases hf : known.find? (·.batchId == id) with
      | none =>
          rw [List.find?_eq_none] at hf
          exact absurd hid (by simpa using hf e he)
      | some e' =>
          have hid' : e'.batchId = id := by simpa using List.find?_some hf
          obtain ⟨hop, hdig, hseq⟩ := hsame id List.mem_cons_self e' (List.mem_of_find?_eq_some hf) hid'
          rw [countKnown, hf]
          dsimp only
          rw [if_neg (by rcases hprior with ⟨h, _⟩ | h <;> simp [hop, hdig, hseq, h]),
            ih (.inr hseq) (fun id' h => hfound id' (List.mem_cons_of_mem _ h))
              (fun id' h => hsame id' (List.mem_cons_of_mem _ h)), List.length_cons, Nat.add_right_comm, Nat.add_assoc]

theorem runs_import {b : CloudImportBatch} {cs : VersionedSequentialState} {next : U64} {v : VersionedValue}
    {st : SequentialState} {bytes : Bytes} {req : SequentialWal} {r : Except Exn (Outcome Call Reply)}
    (already : Nat) (prior : U64) (hP : Serves P) (hs : Inv P s)
    (hcols : P.table.schema.length ≤ 1024) (hw : s.writers i = ⟨some cs, next⟩)
    (hv : s.entries (currentKey P.table) = some v) (hd : decodeSequentialState v.value = .ok st)
    (hepoch : st.writerEpoch = cs.state.writerEpoch) (hvalid : isValidBatch P.table b = true)
    (hb : encodeSequentialWal P.hashes P.table.schema (batchWal P.table b 1 1) = .ok bytes)
    (hreq : decodeSequentialWal P.hashes P.table.schema bytes = .ok req)
    (hnext : next.toNat ≤ s.created.length + 1) (hroom : s.created.length + 1 < 2 ^ 64)
    (hsize : ∀ d ∈ s.created, d.bytes.length ≤ maxWalBytes)
    (hk : ∀ known, IndexOk P (s.setWriter i ⟨some ⟨st, v.version⟩, next⟩)
        (st.indexedSeq.toNat + (next.toNat - (st.indexedSeq + 1).toNat)) known →
      countKnown known (b.batchIds.headD []) req.payloadDigest b.batchIds 0 0 = some (already, prior))
    (h : SoloRun P i (.importBatch b)
      (if already = b.batchIds.length then answerKnown b st prior
        else if already ≠ 0 then answer .invalidRequest 0
        else appendBatch P.table P.hashes b next st.writerEpoch)
      (s.setWriter i ⟨some ⟨st, v.version⟩, next⟩) r t) :
    SoloRun P i (.importBatch b) (importBatch P.table P.hashes b) s r t := by
  obtain ⟨st', hc⟩ := hs.current v hv
  obtain rfl : st' = st := by
    have hd' := hc.decoded
    rw [hd] at hd'
    cases hd'
    rfl
  have hheld : Held P s i ⟨some ⟨st', v.version⟩, next⟩ := by
    intro hO cs' hcs
    cases hcs
    have hold := hs.held i hO cs (by rw [hw])
    rwa [← hepoch] at hold
  have hs' := hs.setWriter hheld
  obtain ⟨st'', hc'⟩ := hs'.current v hv
  obtain rfl : st'' = st' := by
    have hd' := hc'.decoded
    rw [hd] at hd'
    cases hd'
    rfl
  obtain ⟨mv, m, hmv, hm, hok⟩ := hc'.state.manifest
  obtain ⟨es, hes, hindex⟩ := hok.index
  have hle : st''.indexedSeq.toNat ≤ st''.publishedSeq.toNat := hc.state.indexed
  have hpub := hc.state.published
  have hsucc : (st''.indexedSeq + 1).toNat = st''.indexedSeq.toNat + 1 := by
    rw [toNat_succ]
    omega
  have hlen : st''.indexedSeq.toNat + (next.toNat - (st''.indexedSeq + 1).toNat) ≤
      (s.setWriter i ⟨some ⟨st'', v.version⟩, next⟩).created.length := by
    show _ ≤ s.created.length
    omega
  have hknown := hk _ (indexOk_append hs' hindex hlen)
  refine runs_self hP ?_
  rw [hw]
  dsimp only
  rw [if_neg (by simp [hvalid])]
  refine runs_load hP hv hd hc.state.tableId rfl ?_
  dsimp only
  rw [if_neg (by rw [hepoch]; exact fun h => h rfl)]
  refine runs_setSelf hP (runsM_lift hb (runsM_lift hreq ?_))
  refine runs_loadManifest hP hcols hmv hm hok hc'.state.version rfl (runs_loadBatchIndex hP hes (fun _ _ => rfl) ?_)
  refine runs_scanWals hP hs' ?_ hlen hsize ?_
  · rw [← hsucc, ← eq_ofNat_toNat]
  · dsimp only
    rw [hknown]
    exact h

theorem runs_answer {code : CloudImportCode} {seq : U64} (hP : Serves P) :
    SoloRun P i c (answer code seq) s
      (.ok (.done (.imported { result (s.writers i).currentState code with walSeq := seq }))) s :=
  runs_self hP (runsM_pure _)

theorem runs_afterCreate {b : CloudImportBatch} {wal : SequentialWal} {x : Writer} (hP : Serves P)
    (hw : s.writers i = x) (hvis : b.visibility = .immediate) :
    SoloRun P i c (afterCreate b wal) s (.ok (.tail (.publish b wal.seq wal.writerEpoch)))
      (s.setWriter i { x with nextSeq := x.nextSeq + 1 }) := by
  refine runs_self hP ?_
  rw [hw]
  refine runs_setSelf hP ?_
  rw [hvis]
  exact runsM_pure _

theorem runs_appendBatch {b : CloudImportBatch} {cs : VersionedSequentialState} {seq epoch : U64} {bytes : Bytes}
    (hP : Serves P) (hs : Inv P s) (hw : s.writers i = ⟨some cs, seq⟩) (hseq : seq.toNat = s.created.length + 1)
    (hroom : s.created.length + 2 < 2 ^ 64) (hloc : trimSlashes P.table.filePrefix ≠ [])
    (hb : encodeSequentialWal P.hashes P.table.schema (batchWal P.table b seq epoch) = .ok bytes)
    (hvis : b.visibility = .immediate) :
    SoloRun P i (.importBatch b) (appendBatch P.table P.hashes b seq epoch) s (.ok (.tail (.publish b seq epoch)))
      ((s.create i (walPath P.table seq) bytes).setWriter i ⟨some cs, seq + 1⟩) := by
  have hmax : seq ≠ uint64Max := by
    rintro rfl
    rw [show uint64Max.toNat = 18446744073709551615 from rfl] at hseq
    omega
  have hz : seq ≠ 0 := by
    rintro rfl
    cases hseq
  have hnone : s.files (walPath P.table seq) = none := by
    by_contra hne
    obtain ⟨b, hb⟩ := Option.ne_none_iff_exists'.mp hne
    have hle := (hs.onlySlots seq b hb).2
    omega
  rw [appendBatch, if_neg hmax]
  refine runsM_lift (walKey_ok hz hloc) ?_
  rw [hb]
  refine runs_create hP hnone (fun h => hmax (walPath_injective h)) ?_
  have hw' : (s.create i (walPath P.table seq) bytes).writers i = ⟨some cs, seq⟩ := hw
  exact runs_afterCreate hP hw' hvis

def published (st : SequentialState) (seq : U64) : SequentialState :=
  { st with publishedSeq := seq, stateVersion := st.stateVersion + 1 }

theorem runs_publish {b : CloudImportBatch} {n : Nat} {seq epoch : U64} {v : VersionedValue} {st : SequentialState}
    {bytes : Bytes} (hP : Serves P) (hv : s.entries (currentKey P.table) = some v)
    (hd : decodeSequentialState v.value = .ok st) (hid : st.tableId = P.table.tableId)
    (hle : st.indexedSeq ≤ st.publishedSeq) (hlt : st.publishedSeq < seq) (hepoch : st.writerEpoch = epoch)
    (hb : encodeSequentialState (published st seq) = .ok bytes) :
    SoloRun P i (.publish b seq epoch) (publish P.table (n + 1) seq epoch) s
      (.ok (.done (.imported ⟨.committed, epoch, seq, seq⟩)))
      ((s.put (currentKey P.table) bytes).setWriter i
        ⟨some ⟨published st seq, s.nextVersion⟩, (s.writers i).nextSeq⟩) := by
  have hbenign : benign P.table (.publish b seq epoch) (.metaGet (currentKey P.table)) (.ok (some v)) = true := by
    simp [benign, hd, hlt]
  subst hepoch
  refine runs_self hP (runs_load hP hv hd hid hbenign ?_)
  dsimp only
  rw [if_neg (BitVec.not_le.mpr hlt), if_neg (fun h => h rfl)]
  refine runs_compareExchange hP hv ⟨hid, rfl, ⟨BitVec.le_refl _, BitVec.le_refl _, BitVec.le_of_lt hlt⟩,
    BitVec.le_trans hle (BitVec.le_of_lt hlt)⟩ hb ?_
  rw [acquire_of_ne (by rintro ⟨⟩)]
  refine runs_self hP (runs_setSelf hP (runs_self hP ?_))
  rw [World.setWriter_writers]
  exact runsM_pure _

end DBPlayground.SoloWriter
