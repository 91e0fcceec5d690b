import DBPlayground.Cloud.LogReads

namespace DBPlayground.LoadSpec

open ByteReader Table Wire Records Keys WalCodec Program RelyGuarantee Session Store StateStore TableWriter
  WalIndexer SnapshotLoader CloudSystem Log Invariant Rules ReadSpecs Contract LogReads

variable {ι : Type} {P : Params ι} {i : ι} {s w u : World ι} {probeLimit : Nat}

theorem throws_load (hs : Inv P s) (hidle : Idle P i s) {x : Exn} (hq : Quiet P i s u) (hu : Inv P u)
    (h : Readable P → ∃ c ∈ u.created, maxWalBytes < c.bytes.length) :
    Throws P i (.load probeLimit) x u :=
  ⟨hidle.quiet hs hu hq, h⟩

theorem faults_load (hs : Inv P s) (hidle : Idle P i s) (o : Op) :
    Faults P i (.load probeLimit) (Throws P i (.load probeLimit)) s o := by
  intro s' x u hr _ ha hu hiu
  refine throws_load hs hidle (hr.quiet.trans hu.quiet) hiu ?_
  intro hR
  rw [hR.answers] at ha
  cases ha

theorem walReads_load (hs : Inv P s) (hidle : Idle P i s) :
    WalReads P i (.load probeLimit) (Throws P i (.load probeLimit)) s := by
  refine ⟨fun _ => faults_load hs hidle _, ?_, ?_⟩
  · exact fun hp x u hu hiu => throws_load hs hidle hu.quiet hiu fun hR => absurd hp hR.located
  · intro s' d x u hr _ hd hl hu hiu
    exact throws_load hs hidle (hr.quiet.trans hu.quiet) hiu fun _ => ⟨d, hu.quiet.grow.created.subset hd, hl⟩

theorem snapshot_denotes (probeLimit len : Nat) (hw : Inv P w) {vs : VersionedSequentialState}
    {m : SequentialManifest} (hst : StateOk P w vs.state) (hm : ManifestOk P w m vs.state.indexedSeq)
    (hF : ReadsBack P.format) :
    Denotes P w (snapshot P.table vs m probeLimit
      (slice P w vs.state.indexedSeq.toNat (vs.state.publishedSeq.toNat - vs.state.indexedSeq.toNat))
      (slice P w vs.state.publishedSeq.toNat len)) (vs.state.publishedSeq.toNat + len) := by
  have hle : vs.state.indexedSeq.toNat ≤ vs.state.publishedSeq.toNat := hst.indexed
  refine ⟨_, hm.data hF, ?_⟩
  have hsplit : ∀ a b : List SequentialWal, (appended (a ++ b)).flatMap (·.chunks) =
      (appended a).flatMap (·.chunks) ++ (appended b).flatMap (·.chunks) := by
    intro a b
    rw [appended, List.filter_append, List.flatMap_append]
    rfl
  have hmid := rowsOf_take (P := P) (w := w) vs.state.indexedSeq.toNat
    (vs.state.publishedSeq.toNat - vs.state.indexedSeq.toNat)
  rw [Nat.add_sub_of_le hle] at hmid
  simp only [snapshot]
  rw [hsplit, List.flatMap_append, rows_slice hw, rows_slice hw, ← List.append_assoc, hmid, rowsOf_take]

variable [DecidableEq ι]

theorem load_ok (hs : Inv P s) (hidle : Idle P i s) :
    wpm (ctx P i (.load probeLimit)) (loadSnapshot P.table P.hashes probeLimit) (Ends P i (.load probeLimit))
      (Throws P i (.load probeLimit)) s := by
  rw [loadSnapshot, loadLoop, bind_assoc]
  refine wpm_load hs (faults_load hs hidle _) ?_ ?_
  · intro s₁ hr₁ hi₁ _
    exact wpm_pure fun u hu hiu => ⟨hidle.quiet hs hiu (hr₁.quiet.trans hu.quiet), trivial⟩
  · intro s₁ vs hr₁ hi₁ hvs _
    have hidle₁ := hidle.quiet hs hi₁ hr₁.quiet
    have hst := hvs.seen.state
    have hle : vs.state.indexedSeq.toNat ≤ vs.state.publishedSeq.toNat := hst.indexed
    dsimp only
    rw [bind_assoc]
    refine wpm_loadManifest hi₁ hst (faults_load hi₁ hidle₁ _) ?_ ?_
    · intro hcols x u hq hiu
      exact throws_load hi₁ hidle₁ hq hiu fun hR => absurd hR.columns (by omega)
    · intro s₂ m hr₂ hi₂ hm
      have hidle₂ := hidle₁.quiet hi₁ hi₂ hr₂.quiet
      have hpub := (hr₂.quiet.grow.stateOk hst).published
      have hroom := hi₂.room
      rw [bind_assoc]
      refine wpm_requiredWals hi₂ (eq_ofNat_toNat _) (by omega) (walReads_load hi₂ hidle₂) ?_
      intro s₃ hr₃ hi₃
      have hidle₃ := hidle₂.quiet hi₂ hi₃ hr₃.quiet
      dsimp only
      rw [bind_assoc]
      refine wpm_collectWals hi₃ (eq_ofNat_toNat _) ?_ (walReads_load hi₃ hidle₃) ?_
      · have hmax : uint64Max.toNat = 2 ^ 64 - 1 := by decide
        omega
      · intro s₄ len hr₄ hi₄ hlen hin
        refine wpm_pure fun u hu hiu => ⟨hidle₃.quiet hi₃ hiu (hr₄.quiet.trans hu.quiet), ?_⟩
        have hg₄ := hr₄.quiet.grow.trans hu.quiet.grow
        have hg₃ := hr₃.quiet.grow.trans hg₄
        have hg₂ := hr₂.quiet.grow.trans hg₃
        have hlen₃ := hr₃.quiet.grow.length
        have hlen₄ := hr₄.quiet.grow.length
        refine ⟨⟨vs, hvs.seen.grow hg₂, rfl, rfl⟩, ?_⟩
        intro hF
        refine ⟨vs.state.publishedSeq.toNat + len, ?_, ?_, Nat.le_add_right _ _, ?_⟩
        · have hd := snapshot_denotes probeLimit len hiu (hg₂.stateOk hst) (hg₃.manifestOk (by omega) hm) hF
          rw [slice_grow hg₄ (by omega), slice_grow hu.quiet.grow (by omega)] at hd
          exact hd
        · have hlen := hu.quiet.grow.length
          omega
        · show _ ≤ vs.state.publishedSeq.toNat + probeLimit
          omega

/-- Once there is a CURRENT, `Load` delivers a snapshot or throws. -/
theorem load_finds (hs : Inv P s) (hcur : s.entries (currentKey P.table) ≠ none) :
    wpm (ctx P i (.load probeLimit)) (loadSnapshot P.table P.hashes probeLimit)
      (fun o _ => ∃ snap, o = .done (.loaded (some snap))) (fun _ _ => True) s := by
  have hreads : ∀ s, WalReads P i (.load probeLimit) (fun _ _ => True) s := fun _ =>
    ⟨fun _ _ _ _ _ _ _ _ _ => trivial, fun _ _ _ _ _ => trivial, fun _ _ _ _ _ _ _ _ _ _ => trivial⟩
  rw [loadSnapshot, loadLoop, bind_assoc]
  refine wpm_load hs (fun _ _ _ _ _ _ _ _ => trivial) ?_ ?_
  · intro s₁ hr₁ hi₁ hnone
    obtain ⟨v, hv⟩ := Option.ne_none_iff_exists'.mp hcur
    obtain ⟨v', hv', _⟩ := hr₁.quiet.grow.current v hv
    rw [hnone] at hv'
    cases hv'
  · intro s₁ vs hr₁ hi₁ hvs _
    have hst := hvs.seen.state
    have hle : vs.state.indexedSeq.toNat ≤ vs.state.publishedSeq.toNat := hst.indexed
    dsimp only
    rw [bind_assoc]
    refine wpm_loadManifest hi₁ hst (fun _ _ _ _ _ _ _ _ => trivial) (fun _ _ _ _ _ => trivial) ?_
    intro s₂ m hr₂ hi₂ hm
    have hpub := (hr₂.quiet.grow.stateOk hst).published
    have hroom := hi₂.room
    rw [bind_assoc]
    refine wpm_requiredWals hi₂ (eq_ofNat_toNat _) (by omega) (hreads _) ?_
    intro s₃ hr₃ hi₃
    dsimp only
    rw [bind_assoc]
    refine wpm_collectWals hi₃ (eq_ofNat_toNat _) ?_ (hreads _) ?_
    · have hmax : uint64Max.toNat = 2 ^ 64 - 1 := by decide
      omega
    · exact fun _ _ _ _ _ _ => wpm_pure fun _ _ _ => ⟨_, rfl⟩

end DBPlayground.LoadSpec
