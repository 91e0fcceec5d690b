import DBPlayground.Cloud.LogOrder

namespace DBPlayground.EpochOwnership

open ByteReader Table Wire Records Keys WalCodec Program RelyGuarantee Session Store StateStore TableWriter
  WalIndexer CloudSystem Log Invariant Rules ReadSpecs Contract Correct LogOrder Solo SoloReads SoloWriter
  SoloIndexer Progress TextTable

variable {ι : Type} {P : Params ι} {w u s : World ι} {i : ι} {b : CloudImportBatch}

def Raised (P : Params ι) (w : World ι) (e : U64) : Prop := ∃ st, CurrentState P w st ∧ e < st.writerEpoch

theorem Raised.grow {e : U64} (h : Raised P w e) (hg : Grow P w u) : Raised P u e := by
  obtain ⟨st, ⟨v, hv, hd⟩, hlt⟩ := h
  obtain ⟨v', hv', hl⟩ := hg.current v hv
  obtain ⟨st', hd', hle⟩ := hl.state st hd
  exact ⟨st', ⟨v', hv', hd'⟩, Nat.lt_of_lt_of_le hlt hle.writerEpoch⟩

theorem Raised.loaded {e : U64} (h : Raised P w e) {vs : VersionedSequentialState} (hl : Loaded P w vs) :
    e < vs.state.writerEpoch := by
  obtain ⟨st, ⟨v, hv, hd⟩, hlt⟩ := h
  obtain ⟨v', hv', _, hc⟩ := hl.current
  rw [hv] at hv'
  cases hv'
  rw [hc.decoded] at hd
  cases hd
  exact hlt

/-- A call of `Import` that ends as `Fenced`, or in an exception of the store
that it asks for CURRENT. -/
def EndsFenced (P : Params ι) (i : ι) (b : CloudImportBatch) (o : Outcome Call Reply) : Prop :=
  (∃ r, o = .done (.imported r) ∧ r.code = .fenced) ∨
    ∃ e w, o = .done (.threw e) ∧ P.allow i (.importBatch b) (.metaGet (currentKey P.table)) w (.error e) = true

variable [DecidableEq ι]

theorem import_fenced {cs : VersionedSequentialState} (hcs : (s.writers i).currentState = some cs)
    (hvalid : isValidBatch P.table b = true)
    (hraised : Raised P s cs.state.writerEpoch) :
    wp (ctx P i (.importBatch b)) ((service P).code i (.importBatch b)) (fun o _ => EndsFenced P i b o) s := by
  refine wp_code ?_
  show wpm _ (importBatch P.table P.hashes b) _ _ s
  rw [importBatch]
  refine wpm_self fun s₁ hr₁ hi₁ => ?_
  rw [hcs]
  dsimp only
  rw [if_neg (by rw [hvalid]; decide)]
  have hraised₁ := hraised.grow hr₁.quiet.grow
  refine wpm_load hi₁ ?_ ?_ ?_
  · intro s' x u _ _ ha _ _
    exact .inr ⟨x, s', rfl, ha⟩
  · intro s₂ hr₂ _ hnone
    obtain ⟨_, ⟨v, hv, _⟩, _⟩ := hraised₁.grow hr₂.quiet.grow
    rw [hnone] at hv
    cases hv
  · intro s₂ latest hr₂ _ hl _
    have hlt := (hraised₁.grow hr₂.quiet.grow).loaded hl
    dsimp only
    rw [if_pos (fun heq => by rw [heq] at hlt; exact BitVec.lt_irrefl _ hlt)]
    refine wpm_setSelf (Held.of_none rfl) fun s₃ _ _ _ => ?_
    rw [answer]
    refine wpm_self fun s₄ _ _ => wpm_pure fun u _ _ => .inl ⟨_, rfl, ?_⟩
    rw [World.setWriter_writers]
    rfl

variable {x y z : Config ι Op Ans (World ι) Call Reply}

/-- While `Publish` never finds its WAL published under a foreign epoch, a
started writer holds the epoch that its `Start` acquired, no epoch is shared
between two lives of writers, and whoever is overtaken is fenced. -/
theorem epoch_owned (hO : Owned P) (hx : Reachable P x) :
    (∀ i cs, (x.store.writers i).currentState = some cs →
      ((i, x.store.incarnation i), cs.state.writerEpoch) ∈ x.store.acquired) ∧
    (∀ a seq wal, Wrote P x.store a seq wal → (a, wal.writerEpoch) ∈ x.store.acquired) ∧
    (∀ a b e e', (a, e) ∈ x.store.acquired → (b, e') ∈ x.store.acquired → (a = b ↔ e = e')) ∧
    (∀ i b cs y z, x.thread i = .idle → (x.store.writers i).currentState = some cs →
      isValidBatch P.table b = true → Raised P x.store cs.state.writerEpoch →
      Step (service P) x y → During (service P) i y z → (∃ p, y.thread i = .busy (.importBatch b) p) →
      ∀ c o, z.thread i = .busy c (.ret o) → EndsFenced P i b o) := by
  have hinv := inv_of_reachable hx
  refine ⟨fun i cs hcs => hinv.held i hO cs hcs, ?_, ?_, ?_⟩
  · rintro a seq wal ⟨k, c, hc, _, rfl, rfl⟩
    exact hinv.stamps hO c (List.mem_of_getElem? hc)
  · intro a b e e' ha hb
    constructor
    · rintro rfl
      exact congrArg Prod.snd (List.inj_on_of_nodup_map hinv.authors ha hb rfl)
    · rintro rfl
      exact author_unique hinv ha hb
  · rintro i b cs y z hidle hcs hvalid hraised hstep hduring ⟨p, hbusy⟩ c o ho
    have hy : Reachable P y := hx.tail hstep
    obtain ⟨hstore, rfl⟩ := hstep.called hidle hbusy
    have hsame : y.store = x.store := hstore
    have hwp := import_fenced (P := P) (i := i) (b := b) hcs hvalid hraised
    rw [← hsame] at hwp
    have hQ : ∀ (d : Call) (t : World ι), ¬ EndsFenced P i b (.tail d) := by
      rintro d t (⟨r, h, _⟩ | ⟨e, w, h, _⟩) <;> cases h
    obtain ⟨p, hp, hend⟩ :=
      (good_of_reachable hy).pending (Q := fun o _ => EndsFenced P i b o) hQ hbusy hwp hduring
    rw [ho] at hp
    cases hp
    exact hend z.store (Rely.refl i z.store) (inv_of_reachable (hy.trans hduring.steps))

theorem text_epoch_owned : ∃ x cs, Reachable (benignParams (ascii "x")) x ∧
    (x.store.writers 0).currentState = some cs ∧
    ((0, x.store.incarnation 0), cs.state.writerEpoch) ∈ x.store.acquired := by
  obtain ⟨s, fence, d, hx, hc⟩ := exists_committed_text (ascii "x") (by decide) serves_benignParams
  obtain ⟨cs, v, hw, _⟩ := hc.writer
  have hcs : (s.writers 0).currentState = some cs := by rw [hw]
  exact ⟨_, cs, hx, hcs, (epoch_owned owned_benignParams hx).1 0 cs hcs⟩

section Takeover

variable {t : World (Fin 3)} {text : Bytes}

theorem runs_publish_found {b : CloudImportBatch} {seq epoch : U64} {v : VersionedValue} {st : SequentialState} {i : Fin 3}
    (hv : t.entries (currentKey textTable) = some v) (hd : decodeSequentialState v.value = .ok st)
    (hid : st.tableId = textTable.tableId) (hle : seq ≤ st.publishedSeq) :
    SoloRun (anyParams text) i (.publish b seq epoch) (publish textTable 1 seq epoch) t
      (.ok (.done (.imported ⟨.committed, st.writerEpoch, st.publishedSeq, seq⟩)))
      (t.setWriter i ⟨some ⟨st, v.version⟩, (t.writers i).nextSeq⟩) := by
  have hP : Serves (anyParams text) := serves_anyParams
  have hload : SoloRun (anyParams text) i (.publish b seq epoch) (load textTable) t (.ok (some ⟨st, v.version⟩)) t := by
    refine .call ⟨.answer, rfl, rfl⟩ ?_
    rw [hv]
    exact runsM_lift hd (runs_throwIf (fun hne => hne hid) (runsM_pure _))
  refine runs_self hP (runsM_bind hload ?_)
  dsimp only
  rw [if_pos hle]
  refine runs_self hP (runs_setSelf hP (runs_self hP ?_))
  rw [World.setWriter_writers]
  exact runsM_pure _

theorem runs_takeover {x : Writer} (hopen : Opened (anyParams text) 0 x t) :
    ∃ u b, SoloRun (anyParams text) 1 .start (start textTable 1) (t.enter 1 .start) (.ok (.tail (.fence 1 2))) u ∧
      u.entries = Function.update t.entries (currentKey textTable) (some b) ∧
      decodeSequentialState b.value = .ok (raised (raised (initialState textTable))) ∧ u.created = t.created ∧
      u.issued = t.issued ∧ u.writers = t.writers ∧ u.incarnation 0 = 1 ∧
      u.acquired = [((0, 1), 1), ((1, 1), 2)] := by
  have hP : Serves (anyParams text) := serves_anyParams
  obtain ⟨b, hv, hdec⟩ := hopen.current
  obtain ⟨bytes, hbytes⟩ := encode_initial (usable_textParams hP).toCreatable
    (raised (raised (initialState textTable))) rfl rfl
    (BitVec.le_refl _) rfl
  have hnone : (t.writers 1).currentState = none := by rw [hopen.others 1 (by decide)]
  have henter : t.enter 1 .start = { t with incarnation := Function.update t.incarnation 1 (t.incarnation 1 + 1) } := by
    simp only [World.enter, hnone]
  rw [henter]
  have hrun := runs_start (P := anyParams text) (i := 1) (n := 0)
    (s := { t with incarnation := Function.update t.incarnation 1 (t.incarnation 1 + 1) }) hP hnone hv hdec rfl
    (BitVec.le_refl _) (by show (1 : U64) ≠ uint64Max; decide) hbytes
  refine ⟨_, ⟨bytes, t.nextVersion⟩, hrun, rfl, decode_encode_state hbytes, rfl, rfl, rfl, ?_, ?_⟩
  · exact hopen.life
  · simp only [World.addAcquired, World.put, Function.update_self, hopen.acquired, hopen.unborn 1 (by decide),
      List.cons_append, List.nil_append]
    rfl

/-- Object 0 has appended and is about to publish; object 1 has raised the
epoch; object 2 has indexed, and so published, the slot. -/
theorem exists_overtaken (text : Bytes) (hlen : text.length ≤ 2 ^ 20) :
    ∃ t th st v, Reachable (anyParams text) ⟨t, th⟩ ∧
      th 0 = .busy (.importBatch (textBatch text)) (.ret (.tail (.publish (textBatch text) 2 1))) ∧
      t.entries (currentKey textTable) = some v ∧ decodeSequentialState v.value = .ok st ∧
      st.tableId = textTable.tableId ∧ st.publishedSeq = 2 ∧ st.writerEpoch = 2 ∧
      t.incarnation 0 = 1 ∧ t.acquired = [((0, 1), 1), ((1, 1), 2)] := by
  have hP : Serves (anyParams text) := serves_anyParams
  obtain ⟨s, fence, d, hx, hopen, hlog, hfence, hd⟩ := exists_appended (i := 0) (usable_textParams hP) rfl
    (by simp [textParams]) (importable_textBatch (by omega) 0) rfl
  obtain ⟨u, b, hstart, hentries, hdec, hcreated, hissued, _, hlife, hacq⟩ := runs_takeover hopen
  have hx₁ := hx.trans (steps_idle (i := 1) rfl rfl rfl hstart)
  have hne : metaKey textTable initialKey ≠ currentKey textTable := metaKey_ne_current (by decide)
  obtain ⟨v, hman, hm⟩ := hopen.manifest
  have hu : Unindexed (anyParams text) text u fence d := by
    refine ⟨hcreated.trans hlog, hfence, hd, ⟨v, ?_, hm⟩, ?_, fun key => by rw [hissued]; exact hopen.issued key⟩
    · rw [hentries, Function.update_of_ne hne]
      exact hman
    · intro key hcur hkey
      rw [hentries, Function.update_of_ne hcur]
      exact hopen.objects key hcur hkey
  obtain ⟨t, b', hrun, hcur, hst, _, _, hacq', hlife'⟩ := runs_index_text (i := 2) hlen hP (inv_of_reachable hx₁) hu
    (by rw [hentries]; exact Function.update_self _ _ _) hdec rfl rfl (by show (0 : U64) < 2; decide)
  have hx₂ := hx₁.trans (steps_idle (i := 2) rfl rfl rfl hrun)
  exact ⟨t, _, _, _, hx₂, rfl, hcur, hst, rfl, rfl, rfl, by rw [hlife', hlife], by rw [hacq', hacq]⟩

end Takeover

/-- The overtaken writer reports success and goes on with the epoch that the
other one acquired. -/
theorem text_epoch_shared : ∃ x cs, Reachable (anyParams (ascii "x")) x ∧
    (x.store.writers 0).currentState = some cs ∧ ((1, 1), cs.state.writerEpoch) ∈ x.store.acquired ∧
    ((0, x.store.incarnation 0), cs.state.writerEpoch) ∉ x.store.acquired := by
  obtain ⟨t, th, st, v, hx, hth, hv, hd, hid, hpub, hepoch, hlife, hacq⟩ := exists_overtaken (ascii "x")
    (by decide)
  have hrun : SoloRun (anyParams (ascii "x")) 0 (.publish (textBatch (ascii "x")) 2 1) (publish textTable 1 2 1) t _ _ :=
    runs_publish_found hv hd hid (by rw [hpub]; exact BitVec.le_refl _)
  refine ⟨_, ⟨st, v.version⟩, hx.trans (steps_resume hth hrun), ?_, ?_, ?_⟩
  · show (World.writers (World.setWriter _ _ _) 0).currentState = _
    rw [World.setWriter_writers]
  · show ((1, 1), st.writerEpoch) ∈ t.acquired
    rw [hepoch, hacq]
    exact List.mem_cons_of_mem _ List.mem_cons_self
  · show ((0, t.incarnation 0), st.writerEpoch) ∉ t.acquired
    rw [hepoch, hlife, hacq]
    decide

end DBPlayground.EpochOwnership
