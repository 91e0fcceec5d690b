import DBPlayground.Cloud.LogOrder

namespace DBPlayground.Snapshots

open ByteReader Table Wire Records Keys WalCodec Program RelyGuarantee Session Store StateStore TableWriter
  WalIndexer SnapshotLoader CloudSystem Log Invariant Rules ReadSpecs Contract Correct LoadSpec LogOrder LogReads Solo
  SoloReads SoloWriter SoloIndexer Progress TextTable

variable {ι : Type} [DecidableEq ι] {P : Params ι} {x : Config ι Op Ans (World ι) Call Reply} {i : ι}
  {probeLimit : Nat}

section Loading

variable {s : World ι} {v : VersionedValue} {st : SequentialState}

theorem runs_loadSnapshot (hP : Serves P) (hs : Inv P s) (hcols : P.table.schema.length ≤ 1024)
    (hloc : trimSlashes P.table.filePrefix ≠ []) (hsize : ∀ c ∈ s.created, c.bytes.length ≤ maxWalBytes)
    (hv : s.entries (currentKey P.table) = some v) (hd : decodeSequentialState v.value = .ok st)
    (hpub : st.publishedSeq.toNat = s.created.length) (hroom : s.created.length + 1 < 2 ^ 64) (hprobe : 0 < probeLimit) :
    ∃ snap, SoloRun P i (.load probeLimit) (loadSnapshot P.table P.hashes probeLimit) s
      (.ok (.done (.loaded (some snap)))) s ∧ snap.publishedSeq = st.publishedSeq := by
  obtain ⟨st', hc⟩ := hs.current v hv
  obtain rfl : st' = st := Except.ok.inj (hc.decoded.symm.trans hd)
  obtain ⟨w, m, hw, hm, hok⟩ := hc.state.manifest
  have hle : st'.indexedSeq.toNat ≤ st'.publishedSeq.toNat := hc.state.indexed
  have hmax : uint64Max.toNat = 2 ^ 64 - 1 := by decide
  have hloop : SoloRun P i (.load probeLimit) (loadLoop P.table P.hashes probeLimit 2) s
      (.ok (some (snapshot P.table ⟨st', v.version⟩ m probeLimit
        (slice P s st'.indexedSeq.toNat (st'.publishedSeq.toNat - st'.indexedSeq.toNat))
        (slice P s st'.publishedSeq.toNat 0)))) s := by
    refine runs_load hP hv hd hc.state.tableId rfl (runs_loadManifest hP hcols hw hm hok hc.state.version rfl ?_)
    have hfirst : st'.indexedSeq = BitVec.ofNat 64 st'.indexedSeq.toNat := by simp
    have hlast : st'.publishedSeq = BitVec.ofNat 64 st'.publishedSeq.toNat := by simp
    refine runs_requiredWals hP hs hfirst ?_ hsize ?_
    · show st'.indexedSeq.toNat + (st'.publishedSeq.toNat - st'.indexedSeq.toNat) ≤ s.created.length
      omega
    · refine runs_collectWals hP hs hlast hpub ?_ hroom hloc hsize (runsM_pure _)
      show 0 < min probeLimit (uint64Max.toNat - st'.publishedSeq.toNat)
      omega
  exact ⟨_, runsM_bind hloop (runsM_pure _), rfl⟩

end Loading

theorem load_nothing {y : Config ι Op Ans (World ι) Call Reply} (hy : Reachable P y)
    (hi : y.thread i = .busy (.load probeLimit) ((service P).code i (.load probeLimit)))
    (hyx : During (service P) i y x) (hr : Replies x i (.load probeLimit) (.loaded none)) :
    y.store.entries (currentKey P.table) = none := by
  by_contra hcur
  have hwp : wp (ctx P i (.load probeLimit)) ((service P).code i (.load probeLimit))
      (fun o _ => ∃ r, o = .done r ∧ r ≠ .loaded none) y.store := by
    refine wp_code (wp_mono (load_finds (inv_of_reachable hy) hcur) fun o _ _ ho => ?_)
    cases o with
    | ok o =>
        obtain ⟨snap, rfl⟩ := ho
        exact ⟨_, rfl, fun h => by cases h⟩
    | error e => exact ⟨_, rfl, fun h => by cases h⟩
  obtain ⟨p, hp, hend⟩ := (good_of_reachable hy).pending (Q := fun o _ => ∃ r, o = .done r ∧ r ≠ Reply.loaded none)
    (fun _ _ h => by obtain ⟨_, h, _⟩ := h; cases h) hi hwp hyx
  rw [hr] at hp
  cases hp
  obtain ⟨_, h, hne⟩ := hend x.store (Rely.refl i x.store) (inv_of_reachable (hy.trans hyx.steps))
  cases h
  exact hne rfl

/-- What `Load` delivers is the log up to some slot between the published one
and the probe limit behind it; it delivers nothing only if CURRENT is missing
when it reads it, its first request; and nothing but a WAL that is too large
makes it fail. -/
theorem snapshot_is_log_stretch (hR : Readable P) (hF : ReadsBack P.format) (hx : Reachable P x)
    (hsize : ∀ c ∈ x.store.created, c.bytes.length ≤ maxWalBytes) :
    (∀ e, ¬ Replies x i (.load probeLimit) (.threw e)) ∧
    (∀ y, Reachable P y → y.thread i = .busy (.load probeLimit) ((service P).code i (.load probeLimit)) →
      During (service P) i y x → Replies x i (.load probeLimit) (.loaded none) →
      y.store.entries (currentKey P.table) = none) ∧
    ∀ snap, Replies x i (.load probeLimit) (.loaded (some snap)) →
      (∃ vs, Seen P x.store vs ∧ vs.version = snap.currentMetadataVersion ∧
        vs.state.publishedSeq = snap.publishedSeq) ∧
      ∃ k, Denotes P x.store snap k ∧ k ≤ x.store.created.length ∧ snap.publishedSeq.toNat ≤ k ∧
        k ≤ snap.publishedSeq.toNat + probeLimit := by
  have hgood := good_of_reachable hx
  refine ⟨?_, fun y hy hi hyx hr => load_nothing hy hi hyx hr, ?_⟩
  · intro e hr
    obtain ⟨c, hc, hlarge⟩ := (hgood.replies hr).2 hR
    exact absurd (hsize c hc) (Nat.not_le.mpr hlarge)
  · intro snap hr
    have hok : SnapshotOk P x.store probeLimit snap := (hgood.replies hr).2
    exact ⟨hok.current, hok.denotes hF⟩

theorem text_snapshot : ∃ x snap k, Reachable (benignParams (ascii "x")) x ∧
    Replies x 1 (.load 1) (.loaded (some snap)) ∧ Denotes (benignParams (ascii "x")) x.store snap k ∧
    2 ≤ k ∧ k ≤ 3 := by
  obtain ⟨s, fence, d, hx, hc⟩ := exists_committed_text (ascii "x") (by decide) serves_benignParams
  obtain ⟨cs, v, hw, _, hv, hd⟩ := hc.writer
  have hpub : cs.state.publishedSeq = 2 := hc.published cs (by rw [hw])
  have hsize : ∀ c ∈ s.created, c.bytes.length ≤ maxWalBytes := by
    rw [hc.log]
    simpa using ⟨hc.fenced.size, size_textBatch (by decide) hc.holds⟩
  have htwo : s.created.length = 2 := by rw [hc.log]; rfl
  obtain ⟨snap, hrun, hsnap⟩ := runs_loadSnapshot (P := benignParams (ascii "x")) (i := 1) serves_benignParams
    (inv_of_reachable hx) readable_benignParams.columns readable_benignParams.located hsize hv hd
    (by rw [hpub, htwo]; rfl) (by rw [htwo]; decide) Nat.one_pos
  have hx' := hx.trans (steps_idle (i := 1) rfl rfl rfl hrun)
  obtain ⟨_, k, hk, _, hle, hge⟩ := (snapshot_is_log_stretch readable_benignParams readsBack_textFormat hx' hsize).2.2 snap
    replies_done
  rw [hsnap, hpub] at hle hge
  exact ⟨_, snap, k, hx', replies_done, hk, hle, hge⟩

def rootTable : TableDescriptor := { textTable with filePrefix := ascii "/" }

def rootParams : Params (Fin 3) := { anyParams (ascii "x") with table := rootTable }

/-- `Start` creates CURRENT before the first path of a WAL is formed. From then
on a probe for WALs throws. -/
theorem root_load_throws : ∃ x, Reachable rootParams x ∧ x.store.created = [] ∧ ReadsBack rootParams.format ∧
    Replies x 1 (.load 1) (.threw (.invalidArgument "sequential: empty file prefix")) := by
  have hP : Serves rootParams := fun _ _ _ _ _ _ => rfl
  obtain ⟨s, hx, hopen, hnil⟩ := exists_raised (P := rootParams) (i := 0)
    ⟨hP, by decide, _, rfl⟩ rfl (by decide)
  obtain ⟨b, hv, hd⟩ := hopen.current
  obtain ⟨st', hc⟩ := (inv_of_reachable hx).current _ hv
  obtain rfl : st' = _ := Except.ok.inj (hc.decoded.symm.trans hd)
  obtain ⟨w, m, hw, hm, hok⟩ := hc.state.manifest
  have hprobe : SoloRun rootParams 1 (.load 1) (collectWals rootTable hashes 0 1) s
      (.error (.invalidArgument "sequential: empty file prefix")) s := runsM_throw (runsM_lift_throw rfl)
  have hrequired : SoloRun rootParams 1 (.load 1) (requiredWals rootTable hashes 0 0) s (.ok (some [])) s := runsM_pure _
  have hloop : SoloRun rootParams 1 (.load 1) (loadLoop rootTable hashes 1 2) s
      (.error (.invalidArgument "sequential: empty file prefix")) s := by
    refine runs_load hP hv hd rfl rfl (runs_loadManifest hP (by decide) hw hm hok rfl rfl ?_)
    exact runsM_bind hrequired (runsM_throw hprobe)
  exact ⟨_, hx.trans (steps_idle (i := 1) rfl rfl rfl (runsM_throw hloop)), hnil, readsBack_textFormat, replies_done⟩

end DBPlayground.Snapshots
