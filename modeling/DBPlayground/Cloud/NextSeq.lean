import DBPlayground.Cloud.Acks

namespace DBPlayground.NextSeq

open ByteReader Table Wire Records Keys WalCodec Program RelyGuarantee Session Store StateStore TableWriter
  WalIndexer CloudSystem Log Invariant Rules Contract Correct LogReads SoloReads SoloWriter Progress TextTable LogOrder
  Acks Solo

variable {ι : Type} {P : Params ι} {w : World ι} {i : ι}

/-- No epoch has been written since the one object `i` acquired. -/
def Unsuperseded (P : Params ι) (w : World ι) (i : ι) : Prop :=
  ∃ st, CurrentState P w st ∧ ((i, w.incarnation i), st.writerEpoch) ∈ w.acquired

theorem StartedOk.next_eq (hL : Landing P) (hw : Inv P w) {cs : VersionedSequentialState}
    (h : StartedOk P w i cs) (hu : Unsuperseded P w i) :
    (w.writers i).nextSeq.toNat = w.created.length + 1 := by
  obtain ⟨e, k, c, hlife, hnext, _⟩ := h.life
  obtain ⟨st, ⟨v, hv, hd⟩, hacq⟩ := hu
  have hsame := congrArg Prod.snd (List.inj_on_of_nodup_map hw.authors hacq hlife.acquired rfl)
  have hlen := hlife.last hL ⟨v, st, hv, hd, hsame⟩
  have hroom := hlife.room hL
  rw [hnext, BitVec.toNat_ofNat]
  omega

variable [DecidableEq ι] {x : Config ι Op Ans (World ι) Call Reply} {b : CloudImportBatch} {r : CloudImportResult}

/-- After a positive reply the writer's next slot lies behind the slot it
reported, and is the first empty one. -/
theorem next_behind_reply (hL : Landing P) (hx : Reachable P x) (hr : Returns x i b r)
    (hcode : positive r.code = true) (hu : Unsuperseded P x.store i) :
    r.walSeq < (x.store.writers i).nextSeq ∧
      ∀ seq : U64, x.store.files (walPath P.table seq) ≠ none ↔
        0 < seq.toNat ∧ seq < (x.store.writers i).nextSeq := by
  have hinv := inv_of_reachable hx
  obtain ⟨hidle, hacked⟩ := hr.acked hx hcode
  obtain ⟨cs, hcs⟩ := Option.ne_none_iff_exists'.mp hacked.started
  have hnext := StartedOk.next_eq hL hinv (hidle cs hcs) hu
  obtain ⟨k, c, b', hk, hseq, _⟩ := hacked.holds
  obtain ⟨hlt, _⟩ := List.getElem?_eq_some_iff.mp hk
  refine ⟨?_, ?_⟩
  · show r.walSeq.toNat < (x.store.writers i).nextSeq.toNat
    omega
  · intro seq
    rw [slots_iff hinv seq, BitVec.lt_def, hnext, Nat.lt_succ_iff]

theorem text_next_behind_reply : ∃ x r, Reachable (benignParams (ascii "x")) x ∧ Returns x 0 (textBatch (ascii "x")) r ∧
    r.code = .committed ∧ r.walSeq < (x.store.writers 0).nextSeq := by
  obtain ⟨s, fence, d, hx, hc⟩ := exists_committed_text (ascii "x") (by decide) serves_benignParams
  obtain ⟨cs, v, _, hepoch, hv, hd⟩ := hc.writer
  have hu : Unsuperseded (benignParams (ascii "x")) s 0 := by
    refine ⟨cs.state, ⟨v, hv, hd⟩, ?_⟩
    rw [hepoch, hc.life, hc.acquired]
    exact List.mem_singleton.mpr rfl
  exact ⟨_, _, hx, returns_publish, rfl, (next_behind_reply landing_benignParams hx returns_publish rfl hu).1⟩

section AppliedConflict

variable {s : World (Fin 3)} {fence : Creation (Fin 3)} {text : Bytes}

/-- The create takes effect, is answered with a conflict, and reading the slot
back fails: `Import` throws with the batch in the log. -/
theorem runs_import_lost (hlen : text.length + 8 < 2 ^ 32) (hs : Inv (anyParams text) s)
    (hopen : Opened (anyParams text) 0 (startedWriter textTable 2) s) (hlog : s.created = [fence])
    (hfence : Fenced (anyParams text) 0 fence) :
    ∃ d, SoloRun (anyParams text) 0 (.importBatch (textBatch text)) (importBatch textTable hashes (textBatch text)) s
        (.error (.runtimeError "timeout")) (s.create 0 (walPath textTable 2) d.bytes) ∧
      (s.create 0 (walPath textTable 2) d.bytes).created = [fence, d] ∧
      HoldsBatch (anyParams text) 0 (textBatch text) 2 1 d := by
  have hU : Usable (anyParams text) := usable_textParams serves_anyParams
  have hb : Importable (anyParams text) 0 (textBatch text) := importable_textBatch hlen 0
  obtain ⟨bytes, hbytes⟩ := hb.encodes
  obtain ⟨bytes', hbytes'⟩ := encode_batch 2 1 hbytes (by decide) (by decide)
  have hkey : sequentialWalKey textTable 2 = .ok (walPath textTable 2) :=
    walKey_ok (P := anyParams text) (by decide) hU.located
  have hnone : s.files (walPath textTable 2) = none := by
    by_contra hne
    obtain ⟨b, hfile⟩ := Option.ne_none_iff_exists'.mp hne
    have hle := (hs.onlySlots 2 b hfile).2
    rw [hlog] at hle
    exact absurd hle (by show ¬ 2 ≤ 1; decide)
  have hcreate : perform 0 (.importBatch (textBatch text)) (.conflict true)
      (.createIfAbsent (walPath textTable 2) bytes') s =
        some (.ok .retryableConflict, s.create 0 (walPath textTable 2) bytes') := by
    simp only [perform, if_pos hnone, if_true]
  have hread : SoloRun (anyParams text) 0 (.importBatch (textBatch text)) (loadSequentialWal textTable hashes 2)
      (s.create 0 (walPath textTable 2) bytes') (.error (.runtimeError "timeout"))
      (s.create 0 (walPath textTable 2) bytes') :=
    runsM_lift hkey (.call ⟨.fault "timeout" false, rfl, rfl⟩ (.ret _ _))
  have happend : SoloRun (anyParams text) 0 (.importBatch (textBatch text))
      (appendBatch textTable hashes (textBatch text) 2 1) s (.error (.runtimeError "timeout"))
      (s.create 0 (walPath textTable 2) bytes') := by
    rw [appendBatch, if_neg (by decide)]
    refine runsM_lift hkey ?_
    rw [show encodeSequentialWal hashes textTable.schema (batchWal textTable (textBatch text) 2 1) = _ from hbytes']
    exact .call ⟨.conflict true, hcreate, rfl⟩ (runsM_throw (runsM_throw hread))
  obtain ⟨_, digest, hwal⟩ := Slot.of_encode (P := anyParams text) (k := 1) (0, s.incarnation 0)
    (walKey_ok (by decide) hU.located) hbytes' ⟨hb.fits.count, hb.fits.payload⟩
    (.batch (textBatch text) ⟨0, hb.accepted⟩ hb.valid hbytes')
  refine ⟨⟨walPath textTable 2, bytes', (0, s.incarnation 0)⟩,
    runs_import_append hU hs hopen hlog hfence hb happend, ?_, ⟨by rw [hopen.life], hbytes', digest, hwal⟩⟩
  simp only [World.create, hlog, List.cons_append, List.nil_append]

theorem exists_indexed_lost (text : Bytes) (hlen : text.length ≤ 2 ^ 20) :
    ∃ t d v st, Reachable (anyParams text) ⟨t, fun _ => .idle⟩ ∧ t.writers 0 = startedWriter textTable 2 ∧
      t.created.length = 2 ∧ t.created[1]? = some d ∧ (∀ c ∈ t.created, c.bytes.length ≤ maxWalBytes) ∧
      HoldsBatch (anyParams text) 0 (textBatch text) 2 1 d ∧ t.entries (currentKey textTable) = some v ∧
      decodeSequentialState v.value = .ok (indexedState (raised (initialState textTable)) 2 st) ∧
      t.incarnation 0 = 1 ∧ t.acquired = [((0, 1), 1)] := by
  have hP : Serves (anyParams text) := serves_anyParams
  obtain ⟨s, fence, hx, hopen, hlog, hfence⟩ := exists_started (P := anyParams text) (i := 0) (usable_textParams hP) rfl
    (by simp [anyParams, textParams])
  obtain ⟨d, hrun, hlog', hd⟩ := runs_import_lost (by omega) (inv_of_reachable hx) hopen hlog hfence
  have hx' : Reachable (anyParams text) ⟨s.create 0 (walPath textTable 2) d.bytes, fun _ => .idle⟩ :=
    ((hx.trans steps_done).trans (steps_idle rfl rfl (importable_textBatch (by omega) 0).accepted hrun)).trans steps_done
  have hopen' := hopen.create (walPath textTable 2) d.bytes
  obtain ⟨b, hv, hdec⟩ := hopen'.current
  obtain ⟨t, b', hidx, hcur, hst, hwriters, hcreated, hacq, hlife⟩ := runs_index_text (i := 2) hlen hP
    (inv_of_reachable hx') ⟨hlog', hfence, hd, hopen'.manifest, hopen'.objects, hopen'.issued⟩ hv hdec rfl rfl
    (by show (0 : U64) < 2; decide)
  refine ⟨t, d, _, _, (hx'.trans (steps_idle rfl rfl rfl hidx)).trans steps_done, ?_, ?_, ?_, ?_, hd, hcur, hst, ?_, ?_⟩
  · rw [hwriters, hopen'.writer]
    rfl
  · rw [hcreated, hlog']
    rfl
  · rw [hcreated, hlog']
    rfl
  · rw [hcreated, hlog']
    simpa using ⟨hfence.size, size_textBatch hlen hd⟩
  · rw [hlife, hopen'.life]
  · rw [hacq, hopen'.acquired]

end AppliedConflict

/-- The retry of the lost import finds the batch in the index and reports its
slot, which is the writer's next one. -/
theorem text_reply_at_next : ∃ x r, Reachable (anyParams (ascii "x")) x ∧ Returns x 0 (textBatch (ascii "x")) r ∧
    positive r.code = true ∧ Unsuperseded (anyParams (ascii "x")) x.store 0 ∧
    ¬ r.walSeq < (x.store.writers 0).nextSeq := by
  obtain ⟨t, d, v, st, hx, hw, htwo, hk, hsize, hd, hv, hdec, hlife, hacq⟩ := exists_indexed_lost (ascii "x")
    (by decide)
  have hrun := runs_import_known (k := 1) (usable_textParams serves_anyParams) (inv_of_reachable hx) hw hv hdec rfl
    (importable_textBatch (by decide) 0) hsize (by rw [htwo]; decide) (by rw [htwo]; decide) hk hd
    (by show 1 < 2; decide)
  have hsteps := hx.trans (steps_idle rfl rfl (importable_textBatch (by decide) 0).accepted hrun)
  refine ⟨_, ⟨.alreadyCommitted, 1, 2, 2⟩, hsteps, .inl Solo.replies_done, rfl, ⟨_, ⟨v, hv, hdec⟩, ?_⟩, ?_⟩
  · show ((0, t.incarnation 0), (1 : U64)) ∈ t.acquired
    rw [hlife, hacq]
    exact List.mem_singleton.mpr rfl
  · show ¬ (2 : U64) < (World.writers (World.setWriter _ _ _) 0).nextSeq
    rw [World.setWriter_writers]
    exact BitVec.lt_irrefl (2 : U64)

end DBPlayground.NextSeq
