import DBPlayground.Cloud.WriteSpecs
import DBPlayground.Cloud.LogReads

namespace DBPlayground.PublishSpec

open ByteReader Table Wire Records Keys WalCodec Program RelyGuarantee Session Store StateStore TableWriter
  WalIndexer CloudSystem Log Invariant Rules ReadSpecs WriteSpecs Contract LogReads

variable {ι : Type} [DecidableEq ι] {P : Params ι} {i : ι} {c : Call} {E : Exn → World ι → Prop}
  {s w u : World ι} {cs vs : VersionedSequentialState} {b : CloudImportBatch} {seq epoch : U64}

theorem startedOk_reload (h : StartedOk P w i cs) (hseen : Seen P w vs)
    (hle : cs.state.writerEpoch ≤ vs.state.writerEpoch)
    (ho : Owned P → vs.state.writerEpoch = cs.state.writerEpoch) {x : Writer}
    (hx : x.nextSeq = (w.writers i).nextSeq) : StartedOk P (w.setWriter i x) i vs := by
  obtain ⟨e, k, d, hlife, hnext, hwal, howned⟩ := h.life
  refine ⟨hseen.grow grow_setWriter, e, k, d, hlife.setWriter, ?_, BitVec.le_trans hwal hle,
    fun hO => (ho hO).trans (howned hO)⟩
  rw [World.setWriter_writers, hx]
  exact hnext

theorem answer_ok {code : CloudImportCode}
    (h : ∀ u r, Rely P i s u → Inv P u → r.code = code → r.walSeq = seq →
      Idle P i u ∧ Post P i c (.imported r) u) :
    wpm (ctx P i c) (answer code seq) (Ends P i c) E s := by
  rw [answer]
  refine wpm_self fun s₁ hr₁ _ => wpm_pure fun u hu hiu => ?_
  refine h u _ (hr₁.trans hu) hiu ?_ rfl
  cases (s.writers i).currentState <;> rfl

theorem answer_acked {code : CloudImportCode} (hc : c = .importBatch b ∨ ∃ q e, c = .publish b q e) (hs : Inv P s)
    (hcs : (s.writers i).currentState = some cs) (hok : StartedOk P s i cs) (hb : Holds P s b seq)
    (hpub : code ≠ .durable → ∃ vs, Seen P s vs ∧ seq ≤ vs.state.publishedSeq) :
    wpm (ctx P i c) (answer code seq) (Ends P i c) E s := by
  refine answer_ok ?_
  intro u r hr hi hcode hwal
  have hacked : Acked P u i b r := by
    subst hwal
    refine ⟨by rw [hr.quiet.writer, hcs]; exact Option.some_ne_none cs, hb.grow hr.quiet.grow, ?_⟩
    intro hne
    obtain ⟨vs, hseen, hle⟩ := hpub (fun h => hne (hcode.trans h))
    exact ⟨vs, hseen.grow hr.quiet.grow, hle⟩
  refine ⟨(hok.idle hcs).quiet hs hi hr.quiet, ?_⟩
  rcases hc with rfl | ⟨q, e, rfl⟩
  · exact fun _ => hacked
  · exact fun _ => hacked

theorem answer_refused {code : CloudImportCode} (hcode : positive code = false) (hs : Inv P s)
    (hidle : Idle P i s) :
    wpm (ctx P i (.importBatch b)) (answer code seq) (Ends P i (.importBatch b)) E s := by
  refine answer_ok ?_
  intro u r hr hi hr' _
  refine ⟨hidle.quiet hs hi hr.quiet, ?_⟩
  intro hpos
  rw [hr', hcode] at hpos
  cases hpos

theorem committed_ok {q e : U64} (hs : Inv P s) (hok : StartedOk P s i cs) (hseen : Seen P s vs)
    (hle : cs.state.writerEpoch ≤ vs.state.writerEpoch)
    (ho : Owned P → vs.state.writerEpoch = cs.state.writerEpoch) (hb : Holds P s b seq)
    (hpub : seq ≤ vs.state.publishedSeq) :
    wpm (ctx P i (.publish b q e)) (do
      let me ← self
      setSelf { me with currentState := some vs }
      answer .committed seq) (Ends P i (.publish b q e)) E s := by
  refine wpm_self fun s₁ hr₁ hi₁ =>
    wpm_setSelf ((hok.quiet hs hi₁ hr₁.quiet).held rfl ho) fun s₂ hr₂ hi₂ hi₂' => ?_
  have hr := hr₁.trans hr₂
  have hok₂ := hok.quiet hs hi₂ hr.quiet
  have hseen₂ := hseen.grow hr.quiet.grow
  refine answer_acked (.inr ⟨q, e, rfl⟩) hi₂' ?_
    (startedOk_reload hok₂ hseen₂ hle ho (by rw [hr.quiet.writer])) ((hb.grow hr.quiet.grow).grow grow_setWriter) ?_
  · rw [World.setWriter_writers]
  · exact fun _ => ⟨vs, hseen₂.grow grow_setWriter, hpub⟩

omit [DecidableEq ι] in
theorem stateOk_publish {st : SequentialState} (h : StateOk P s st) (hlt : ¬ st.publishedSeq ≥ seq)
    (hb : Holds P s b seq) :
    StateOk P s { st with publishedSeq := seq, stateVersion := st.stateVersion + 1 } := by
  obtain ⟨k, d, b', hk, hseq, _⟩ := hb
  obtain ⟨hlen, _⟩ := List.getElem?_eq_some_iff.mp hk
  refine ⟨h.tableId, h.version, ?_, by show seq.toNat ≤ _; omega, h.key, h.manifest⟩
  exact BitVec.le_trans h.indexed (BitVec.le_of_lt (BitVec.not_le.mp hlt))

theorem publishLoop_ok {refused : CloudImportResult} (hrefused : positive refused.code = false)
    {q : U64} (attempts : Nat) (hs : Inv P s) (hcs : (s.writers i).currentState = some cs)
    (hok : StartedOk P s i cs) (hb : Holds P s b seq) (ho : Owned P → epoch = cs.state.writerEpoch)
    (hq : q = seq) :
    wpm (ctx P i (.publish b q epoch)) (publishLoop P.table seq epoch refused attempts)
      (Ends P i (.publish b q epoch)) (Throws P i (.publish b q epoch)) s := by
  subst hq
  have hE : ∀ {t}, Inv P t → Idle P i t → Escapes P i (Throws P i (.publish b q epoch)) t :=
    fun ht hidle x u hq hiu => ⟨hidle.quiet ht hiu hq, trivial⟩
  have hstop : ∀ {t}, Inv P t → Idle P i t →
      wpm (ctx P i (.publish b q epoch)) (pure (.done (.imported refused))) (Ends P i (.publish b q epoch))
        (Throws P i (.publish b q epoch)) t := by
    intro t ht hidle
    refine wpm_pure fun u hu hiu => ⟨hidle.quiet ht hiu hu.quiet, ?_⟩
    intro hpos
    rw [hrefused] at hpos
    cases hpos
  induction attempts generalizing s with
  | zero => exact hstop hs (hok.idle hcs)
  | succ attempts ih =>
      rw [publishLoop]
      refine wpm_load hs ((hE hs (hok.idle hcs)).faults _) ?_ ?_
      · exact fun s₁ hr₁ hi₁ _ => hstop hi₁ ((hok.idle hcs).quiet hs hi₁ hr₁.quiet)
      · intro s₁ latest hr₁ hi₁ hl ha
        have hok₁ := hok.quiet hs hi₁ hr₁.quiet
        have hcs₁ : (s₁.writers i).currentState = some cs := by rw [hr₁.quiet.writer]; exact hcs
        have hb₁ := hb.grow hr₁.quiet.grow
        obtain ⟨v, hv, _, hc⟩ := hl.current
        have hle : cs.state.writerEpoch ≤ latest.state.writerEpoch := hok₁.seen.epoch_le hc hv
        dsimp only
        split
        · rename_i hpub
          refine committed_ok hi₁ hok₁ hl.seen hle ?_ hb₁ hpub
          intro hO
          rw [hv] at ha
          exact (hO i b q epoch s₁ v latest.state ha hc.decoded hpub).trans (ho hO)
        · rename_i hpub
          split
          · exact hstop hi₁ (hok₁.idle hcs₁)
          · rename_i hepoch
            have hlt := BitVec.not_le.mp hpub
            have hraise : Le latest.state { latest.state with
                publishedSeq := q
                stateVersion := latest.state.stateVersion + 1 } :=
              ⟨BitVec.le_refl _, BitVec.le_refl _, BitVec.le_of_lt hlt⟩
            refine wpm_swap (by nofun) hi₁ hl.seen (stateOk_publish hl.seen.state hpub hb₁) hraise rfl
              (marks_lt hraise (.inr (.inr hlt))) (hE hi₁ (hok₁.idle hcs₁)) ?_
            intro u r hqu hi hv
            have hok_u := hok₁.quiet hi₁ hi hqu
            have hb_u := hb₁.grow hqu.grow
            cases r with
            | applied version =>
                refine committed_ok hi hok_u (hv version rfl).seen hle ?_ hb_u (BitVec.le_refl _)
                exact fun hO => (not_not.mp hepoch).trans (ho hO)
            | preconditionFailed | retryableConflict =>
                exact ih hi (by rw [hqu.writer]; exact hcs₁) hok_u hb_u

theorem publish_ok (hs : Inv P s) (hpre : Pre P i (.publish b seq epoch) s) :
    wpm (ctx P i (.publish b seq epoch)) (publish P.table (P.attempts i) seq epoch)
      (Ends P i (.publish b seq epoch)) (Throws P i (.publish b seq epoch)) s := by
  obtain ⟨cs, hcs, hok, hb, ho⟩ := hpre
  rw [publish]
  refine wpm_self fun s₁ hr₁ hi₁ => ?_
  refine publishLoop_ok ?_ _ hi₁ (by rw [hr₁.quiet.writer]; exact hcs) (hok.quiet hs hi₁ hr₁.quiet)
    (hb.grow hr₁.quiet.grow) ho rfl
  rw [hcs]
  rfl

end DBPlayground.PublishSpec
