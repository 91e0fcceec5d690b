import DBPlayground.Cloud.Readback

namespace DBPlayground.DedupIndex

open ByteReader Table Wire Records Keys WalCodec Program Session Store StateStore TableWriter WalIndexer
  CloudSystem Log Invariant Contract LogReads IndexSpec Correct LogOrder Readback SoloReads Progress TextTable

variable {ι : Type} (P : Params ι)

def rowsAt (w : World ι) (seq : Nat) : Nat :=
  match (w.files (walPath P.table (BitVec.ofNat 64 seq))).map (decodeSequentialWal P.hashes P.table.schema) with
  | some (.ok wal) => if wal.kind = .append then (wal.chunks.map (·.rowCount)).sum else 0
  | _ => 0

variable {P} {w : World ι}

theorem rowsAt_slot (hw : Inv P w) {k : Nat} {c : Creation ι} (hk : w.created[k]? = some c) :
    rowsAt P w (k + 1) = ((walOf P c).chunks.flatMap Chunk.rows).length := by
  have hslot := hw.slots k c hk
  have hfile := hw.files c (List.mem_of_getElem? hk)
  rw [hslot.path] at hfile
  simp only [rowsAt, hfile, Option.map_some, hslot.decoded, length_rows_chunks]
  split
  · rfl
  · rename_i hkind
    have hfence : (walOf P c).kind = .fence := by
      cases h : (walOf P c).kind with
      | append => exact absurd h hkind
      | fence => rfl
    rw [(hslot.fence_contents hfence).2]
    rfl

theorem length_rowsOf (hw : Inv P w) {n len : Nat} (hn : n + len ≤ w.created.length) :
    (rowsOf P ((w.created.drop n).take len)).length = ((List.range' (n + 1) len).map (rowsAt P w)).sum := by
  induction len generalizing n with
  | zero => rfl
  | succ len ih =>
      obtain ⟨c, hc⟩ : ∃ c, w.created[n]? = some c := ⟨_, List.getElem?_eq_getElem (by omega)⟩
      obtain ⟨hlt, rfl⟩ := List.getElem?_eq_some_iff.mp hc
      rw [List.drop_eq_getElem_cons hlt, List.take_succ_cons, List.range'_succ, List.map_cons, List.sum_cons,
        rowsAt_slot hw hc, ← ih (by omega), rowsOf, List.flatMap_cons, List.length_append]
      rfl

theorem eval_loadBatchIndex {keys : List Bytes} {es : List SequentialBatchEntry} (h : IndexFiles P w keys es) :
    evalMethod (reads w) (loadBatchIndex P.table keys) = .ok es := by
  induction h with
  | nil => rfl
  | @cons key keys v part rest hv hd _ _ ih =>
      rw [loadBatchIndex, evalMethod_bind]
      show Except.bind (.ok (w.entries (metaKey P.table key))) _ = _
      rw [hv]
      show evalMethod (reads w) (Program.lift (decodeSequentialBatchIndex v.value) >>= _) = _
      rw [hd, evalMethod_bind]
      show evalMethod (reads w) (loadBatchIndex P.table keys >>= _) = _
      rw [evalMethod_bind, ih]
      rfl

theorem mem_index_iff (hw : Inv P w) {n : U64} {es : List SequentialBatchEntry} (h : IndexOk P w n.toNat es)
    (e : SequentialBatchEntry) : e ∈ es ↔ ∃ seq wal, WalAt P w seq wal ∧ wal.kind = .append ∧ seq ≤ n ∧
      e.batchId ∈ wal.batchIds ∧ e.seq = seq ∧ e.operationId = wal.operationId ∧ e.payloadDigest = wal.payloadDigest := by
  have hroom := hw.room
  constructor
  · intro he
    obtain ⟨k, c, hk, hlt, hseq, hid, hop, hdigest⟩ := h.sound e he
    have hlen : k < w.created.length := (List.getElem?_eq_some_iff.mp hk).1
    refine ⟨_, walOf P c, WalAt.of_slot hw hk, ?_, ?_, hid, hseq, hop, hdigest⟩
    · cases hkind : (walOf P c).kind with
      | append => rfl
      | fence =>
          rw [((hw.slots k c hk).fence_contents hkind).1] at hid
          cases hid
    · show (BitVec.ofNat 64 (k + 1)).toNat ≤ n.toNat
      rw [BitVec.toNat_ofNat]
      omega
  · rintro ⟨seq, wal, hat, _, hle, hid, hseq, hop, hdigest⟩
    obtain ⟨k, c, hk, hnat, rfl⟩ := hat.slot hw
    have hle : seq.toNat ≤ n.toNat := hle
    obtain ⟨e', he', hsame⟩ := h.complete k c hk (by omega) _ hid
    obtain ⟨k', c', hk', _, hseq', hid', hop', hdigest'⟩ := h.sound e' he'
    obtain rfl : k' = k := hw.disjoint k' k c' c hk' hk _ hid' (by rw [hsame]; exact hid)
    obtain rfl : c' = c := Option.some.inj (hk'.symm.trans hk)
    have hnum : e'.seq = e.seq := by
      rw [hseq', hseq, ← hnat, BitVec.ofNat_toNat, BitVec.setWidth_eq]
    obtain rfl : e' = e := by
      cases e
      cases e'
      simp_all
    exact he'

variable [DecidableEq ι] {x : Config ι Op Ans (World ι) Call Reply} {st : SequentialState}

/-- The manifest that CURRENT names lists every batch of the indexed slots
once, and its data files account for all rows of these slots. -/
theorem index_complete (hx : Reachable P x) (hst : CurrentState P x.store st) :
    ∃ v m es, x.store.entries (metaKey P.table st.manifestKey) = some v ∧ encodeSequentialManifest m = .ok v.value ∧
      (P.table.schema.length ≤ 1024 → decodeSequentialManifest v.value = .ok m) ∧
      evalMethod (reads x.store) (loadBatchIndex P.table m.batchIndexFiles) = .ok es ∧
      (es.map (·.batchId)).Nodup ∧
      (∀ e, e ∈ es ↔ ∃ seq wal, WalAt P x.store seq wal ∧ wal.kind = .append ∧ seq ≤ st.indexedSeq ∧
        e.batchId ∈ wal.batchIds ∧ e.seq = seq ∧ e.operationId = wal.operationId ∧
        e.payloadDigest = wal.payloadDigest) ∧
      m.dataFiles.Pairwise (fun f g => f.lastSeq < g.firstSeq) ∧
      (∀ f ∈ m.dataFiles, 0 < f.firstSeq ∧ f.firstSeq ≤ f.lastSeq ∧ f.lastSeq ≤ st.indexedSeq ∧
        f.rowCount.toNat = ((List.range' f.firstSeq.toNat (f.lastSeq.toNat + 1 - f.firstSeq.toNat)).map
          (rowsAt P x.store)).sum) ∧
      ∀ seq wal, WalAt P x.store seq wal → wal.kind = .append → seq ≤ st.indexedSeq →
        ∃ f ∈ m.dataFiles, f.firstSeq ≤ seq ∧ seq ≤ f.lastSeq := by
  have hinv := inv_of_reachable hx
  obtain ⟨v, hv, hd⟩ := hst
  obtain ⟨st', hc⟩ := hinv.current v hv
  obtain rfl : st' = st := Except.ok.inj (hc.decoded.symm.trans hd)
  obtain ⟨u, m, hu, hm, hok⟩ := hc.state.manifest
  obtain ⟨es, hfiles, hes⟩ := hok.index
  have hindexed : st'.indexedSeq.toNat ≤ st'.publishedSeq.toNat := hc.state.indexed
  have hpublished := hc.state.published
  refine ⟨u, m, es, hu, hm, ?_, eval_loadBatchIndex hfiles, hok.distinct es hfiles, mem_index_iff hinv hes,
    hok.files.ascending, ?_, ?_⟩
  · intro hcols
    exact decode_encode_manifest hm (by rw [hok.schema]; exact hcols)
  · intro f hf
    obtain ⟨hpos, hle, hlast⟩ := hok.files.range f hf
    have hle' : f.firstSeq.toNat ≤ f.lastSeq.toNat := hle
    refine ⟨hpos, hle, hlast, ?_⟩
    rw [hok.files.rows f hf, List.drop_take, length_rowsOf hinv (by omega), Nat.sub_add_cancel hpos]
    congr 3
    omega
  · intro seq wal hat hkind hle
    obtain ⟨k, c, hk, hnat, rfl⟩ := hat.slot hinv
    have hle : seq.toNat ≤ st'.indexedSeq.toNat := hle
    obtain ⟨f, hf, hfirst, hlast⟩ := hok.files.covers k c hk (by omega) hkind
    refine ⟨f, hf, ?_, ?_⟩
    · show f.firstSeq.toNat ≤ seq.toNat
      omega
    · show seq.toNat ≤ f.lastSeq.toNat
      omega

theorem text_index_complete : ∃ x st, ∃ m : SequentialManifest, ∃ es, Reachable (benignParams (ascii "x")) x ∧
    CurrentState (benignParams (ascii "x")) x.store st ∧ st.indexedSeq = 2 ∧
    evalMethod (reads x.store) (loadBatchIndex textTable m.batchIndexFiles) = .ok es ∧
    (es.map (·.batchId)).Nodup ∧ m.dataFiles.Pairwise (fun f g => f.lastSeq < g.firstSeq) := by
  have hP : Serves (benignParams (ascii "x")) := serves_benignParams
  have hlen : (ascii "x").length ≤ 2 ^ 20 := by decide
  have hb : Importable (benignParams (ascii "x")) 0 (textBatch (ascii "x")) := importable_textBatch (by decide) 0
  obtain ⟨s, fence, d, hx, hopen, hlog, hfence, hd⟩ := exists_appended (usable_textParams hP) rfl (by simp [textParams])
    hb rfl
  obtain ⟨b, hv, hdec⟩ := hopen.current
  obtain ⟨t, b', hrun, hcur, hst, _⟩ := runs_index_text (i := 2) hlen hP (inv_of_reachable hx)
    ⟨hlog, hfence, hd, hopen.manifest, hopen.objects, hopen.issued⟩ hv hdec rfl rfl (by show (0 : U64) < 2; decide)
  have hx' := hx.trans (steps_idle (i := 2) rfl rfl rfl hrun)
  obtain ⟨v, m, es, _, _, _, hes, hnodup, _, hasc, _⟩ := index_complete hx' ⟨_, hcur, hst⟩
  exact ⟨_, _, m, es, hx', ⟨_, hcur, hst⟩, rfl, hes, hnodup, hasc⟩

end DBPlayground.DedupIndex
