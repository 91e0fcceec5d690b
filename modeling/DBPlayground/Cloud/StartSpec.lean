import DBPlayground.Cloud.WriteSpecs
import DBPlayground.Cloud.LogReads

namespace DBPlayground.StartSpec

open ByteReader Table Wire Records Keys WalCodec Program RelyGuarantee Session Store StateStore TableWriter
  WalIndexer CloudSystem Log Invariant Rules ReadSpecs WriteSpecs Contract LogReads

variable {ι : Type} [DecidableEq ι] {P : Params ι} {i : ι} {c : Call} {α : Type} {Q : α → World ι → Prop}
  {E : Exn → World ι → Prop} {s w u : World ι}

theorem wpm_startingState {f : Option VersionedSequentialState → StoreMethod α} (hs : Inv P s)
    (hE : Escapes P i E s)
    (h : ∀ u r, Quiet P i s u → Inv P u → (∀ vs, r = some vs → Seen P u vs) → wpm (ctx P i c) (f r) Q E u) :
    wpm (ctx P i c) (startingState P.table >>= f) Q E s := by
  rw [startingState, bind_assoc]
  refine wpm_load hs (hE.faults _) ?_ ?_
  · intro s₁ hr₁ hi₁ _
    dsimp only
    rw [bind_assoc]
    refine wpm_initializeTable hi₁ (hE.quiet hr₁.quiet) ?_
    intro s₂ r hq₂ hi₂
    have hq := hr₁.quiet.trans hq₂
    have hagain : wpm (ctx P i c) (load P.table >>= f) Q E s₂ := by
      refine wpm_load hi₂ ((hE.quiet hq).faults _) ?_ ?_
      · exact fun u hu hi _ => h u none (hq.trans hu.quiet) hi (fun _ hn => nomatch hn)
      · intro u vs hu hi hl _
        refine h u (some vs) (hq.trans hu.quiet) hi ?_
        intro vs' hvs
        cases hvs
        exact hl.seen
    cases r with
    | retryableConflict => exact h s₂ none hq hi₂ (fun _ hn => nomatch hn)
    | applied | preconditionFailed => exact hagain
  · intro s₁ vs hr₁ hi₁ hl _
    refine h s₁ (some vs) hr₁.quiet hi₁ ?_
    intro vs' hvs
    cases hvs
    exact hl.seen

theorem start_gives_up {code : CloudWriterStartCode} {epoch : U64} (hcode : code ≠ .started)
    (hnone : (s.writers i).currentState = none) :
    wpm (ctx P i c) (pure (startReply code epoch)) (Ends P i c) E s := by
  refine wpm_pure fun u hu _ => ⟨Idle.of_none (by rw [hu.quiet.writer]; exact hnone), ?_⟩
  cases c with
  | fence => exact fun h => absurd h hcode
  | start | importBatch | publish | index | load => trivial

omit [DecidableEq ι] in
theorem stateOk_raise {st : SequentialState} (h : StateOk P s st) :
    StateOk P s { st with writerEpoch := st.writerEpoch + 1, stateVersion := st.stateVersion + 1 } :=
  ⟨h.tableId, h.version, h.indexed, h.published, h.key, h.manifest⟩

theorem lt_succ_of_ne {e : U64} (h : e ≠ uint64Max) : e < e + 1 := by
  have hne : e.toNat ≠ 2 ^ 64 - 1 := fun he => h (BitVec.eq_of_toNat_eq he)
  have hlt := e.isLt
  show e.toNat < (e + 1).toNat
  rw [toNat_succ]
  omega

theorem acquireEpoch_ok {vs : VersionedSequentialState} (attempts : Nat) (hs : Inv P s) (hseen : Seen P s vs)
    (hnone : (s.writers i).currentState = none) (hfresh : ∀ a ∈ s.acquired, a.1 ≠ (i, s.incarnation i)) :
    wpm (ctx P i .start) (acquireEpoch P.table attempts vs) (Ends P i .start) (Throws P i .start) s := by
  induction attempts generalizing s vs with
  | zero => exact start_gives_up (by decide) hnone
  | succ attempts ih =>
      rw [acquireEpoch]
      split
      · exact start_gives_up (by decide) hnone
      · rename_i hmax
        have hlt := lt_succ_of_ne hmax
        have hE : Escapes P i (Throws P i .start) s :=
          fun x u hq _ => ⟨Idle.of_none (by rw [hq.writer]; exact hnone), trivial⟩
        refine wpm_acquire hs hseen (stateOk_raise hseen.state)
          ⟨BitVec.le_of_lt hlt, BitVec.le_refl _, BitVec.le_refl _⟩ rfl hlt hfresh hE ?_ ?_
        · intro u v hg hi hw hacq hnew
          refine wpm_pure fun t ht _ => Pre.fence_quiet ⟨by rw [hw]; exact hnone, hacq, hnew, ?_⟩ ht.quiet
          have hst := hg.stateOk hseen.state
          have hpub := hst.published
          have hidx : vs.state.indexedSeq.toNat ≤ vs.state.publishedSeq.toNat := hst.indexed
          show (vs.state.indexedSeq + 1).toNat ≤ _
          rw [toNat_succ]
          omega
        · intro u r hq hi hr
          have hnone' : (u.writers i).currentState = none := by rw [hq.writer]; exact hnone
          cases r with
          | applied v => exact absurd rfl (hr v)
          | retryableConflict => exact start_gives_up (by decide) hnone'
          | preconditionFailed =>
              refine wpm_load hi ((hE.quiet hq).faults _) ?_ ?_
              · intro t ht _ _
                exact start_gives_up (by decide) (by rw [ht.quiet.writer]; exact hnone')
              · intro t vs' ht hit hl _
                have hqt := hq.trans ht.quiet
                refine ih hit hl.seen (by rw [hqt.writer]; exact hnone) ?_
                intro a ha heq
                rw [hqt.life] at heq
                exact hfresh a (hqt.acquired a ha (by rw [heq])) heq

theorem start_ok (hs : Inv P s) (hpre : Pre P i .start s) :
    wpm (ctx P i .start) (start P.table (P.attempts i)) (Ends P i .start) (Throws P i .start) s := by
  obtain ⟨hidle, hfresh⟩ := hpre
  rw [start]
  refine wpm_self ?_
  intro s₁ hr₁ hi₁
  cases hcur : (s.writers i).currentState with
  | some current =>
      exact wpm_pure fun u hu hiu => ⟨hidle.quiet hs hiu (hr₁.quiet.trans hu.quiet), trivial⟩
  | none =>
      have hnone₁ : (s₁.writers i).currentState = none := by rw [hr₁.quiet.writer]; exact hcur
      refine wpm_startingState hi₁ (fun x u hq _ => ⟨Idle.of_none (by rw [hq.writer]; exact hnone₁), trivial⟩) ?_
      intro u r hq hi hseen
      have hqu := hr₁.quiet.trans hq
      have hnone : (u.writers i).currentState = none := by rw [hqu.writer]; exact hcur
      cases r with
      | none => exact start_gives_up (by decide) hnone
      | some vs =>
          refine acquireEpoch_ok _ hi (hseen vs rfl) hnone ?_
          intro a ha heq
          rw [hqu.life] at heq
          exact hfresh hcur a (hqu.acquired a ha (by rw [heq])) heq

section Fence

variable {seq epoch : U64} {n : Nat} {bytes path : Bytes}

/-- The fence is in place: it is our own WAL and the last one. -/
structure Fenced (P : Params ι) (w : World ι) (i : ι) (epoch : U64) (n : Nat) (d : Creation ι) : Prop where
  life : Life P w i epoch n d
  kind : (walOf P d).kind = .fence
  stamp : (walOf P d).writerEpoch = epoch

omit [DecidableEq ι] in
theorem Fenced.quiet {d : Creation ι} (h : Fenced P w i epoch n d) (hw : Inv P w) (hu : Inv P u)
    (hq : Quiet P i w u) : Fenced P u i epoch n d := ⟨h.life.quiet hw hu hq, h.kind, h.stamp⟩

theorem finishStart_ok {seq₀ : U64} {d : Creation ι} (hs : Inv P s) (hseq : seq = BitVec.ofNat 64 (n + 1))
    (hnone : (s.writers i).currentState = none) (hf : Fenced P s i epoch n d) :
    wpm (ctx P i (.fence seq₀ epoch)) (finishStart P.table seq epoch) (Ends P i (.fence seq₀ epoch))
      (Throws P i (.fence seq₀ epoch)) s := by
  have hE : Escapes P i (Throws P i (.fence seq₀ epoch)) s :=
    fun x u hq _ => ⟨Idle.of_none (by rw [hq.writer]; exact hnone), trivial⟩
  have hlost : ∀ (t : World ι) (x : Writer), Inv P t →
      wpm (ctx P i (.fence seq₀ epoch)) (setSelf { x with currentState := none } >>= fun _ =>
        pure (startReply .contended 0)) (Ends P i (.fence seq₀ epoch)) (Throws P i (.fence seq₀ epoch)) t := by
    intro t x _
    refine wpm_setSelf (Held.of_none rfl) fun t' _ _ _ => start_gives_up (by decide) ?_
    rw [World.setWriter_writers]
  rw [finishStart]
  refine wpm_load hs (hE.faults _) ?_ ?_
  · intro s₁ _ hi₁ _
    exact wpm_self fun s₂ _ hi₂ => hlost s₂ _ hi₂
  · intro s₁ current hr₁ hi₁ hcur _
    refine wpm_self fun s₂ hr₂ hi₂ => ?_
    dsimp only
    split
    · exact hlost s₂ _ hi₂
    · rename_i hepoch
      have hheld : Held P s₂ i ⟨some current, seq + 1⟩ := by
        intro _ cs hcs
        cases hcs
        rw [not_not.mp hepoch]
        exact (hf.quiet hs hi₂ (hr₁.quiet.trans hr₂.quiet)).life.acquired
      refine wpm_setSelf hheld fun s₃ hr₃ hi₃ hi₃' => wpm_pure fun u hu hiu => ?_
      have hf₃ := hf.quiet hs hi₃ (hr₁.quiet.trans (hr₂.quiet.trans hr₃.quiet))
      refine ⟨Idle.quiet ?_ hi₃' hiu hu.quiet, ?_⟩
      · intro cs hcs
        rw [World.setWriter_writers] at hcs
        cases hcs
        refine ⟨(hcur.seen.grow (hr₂.quiet.grow.trans hr₃.quiet.grow)).grow grow_setWriter,
          epoch, n, d, hf₃.life.setWriter, ?_, ?_, fun _ => not_not.mp hepoch⟩
        · rw [World.setWriter_writers, hseq, ofNat_succ]
        · rw [hf.stamp, not_not.mp hepoch]
          exact BitVec.le_refl _
      · intro _
        refine ⟨n, d, hu.quiet.grow.slot hf₃.life.slot, hf.kind, hf.stamp, ?_⟩
        rw [hu.quiet.life]
        exact hf₃.life.author

omit [DecidableEq ι] in
theorem nextSlot_fence (hn : w.created.length = n) (hseq : seq = BitVec.ofNat 64 (n + 1))
    (hpath : sequentialWalKey P.table seq = .ok path)
    (hb : encodeSequentialWal P.hashes P.table.schema (fenceWal P.table seq epoch) = .ok bytes)
    (hacq : ((i, w.incarnation i), epoch) ∈ w.acquired)
    (hslots : ∀ d ∈ w.created, (walOf P d).writerEpoch ≤ epoch) {vs : VersionedSequentialState}
    (hseen : Seen P w vs) (he : vs.state.writerEpoch = epoch) :
    NextSlot P w ⟨path, bytes, (i, w.incarnation i)⟩ ∧
      (walOf P ⟨path, bytes, (i, w.incarnation i)⟩).kind = .fence ∧
      (walOf P ⟨path, bytes, (i, w.incarnation i)⟩).writerEpoch = epoch := by
  subst hn hseq
  obtain ⟨hslot, digest, hw⟩ := Slot.of_encode (i, w.incarnation i) hpath hb (fits_fence _ _) (.fence hb)
  have hkind : (walOf P ⟨path, bytes, (i, w.incarnation i)⟩).kind = .fence := by rw [hw]; rfl
  have hepoch : (walOf P ⟨path, bytes, (i, w.incarnation i)⟩).writerEpoch = epoch := by rw [hw]; rfl
  have hids : (walOf P ⟨path, bytes, (i, w.incarnation i)⟩).batchIds = [] := by rw [hw]; rfl
  refine ⟨⟨hslot, ?_, ?_, ?_, ?_, ?_, ?_⟩, hkind, hepoch⟩
  · intro d _ id hid
    rw [hids] at hid
    cases hid
  · rw [hepoch]
    exact hslots
  · intro happ
    rw [hkind] at happ
    cases happ
  · intro _
    rw [hepoch]
    exact hacq
  · intro _
    rw [hepoch]
    exact hacq
  · obtain ⟨v, st, hv, hd, hle, _⟩ := hseen.later
    refine ⟨v, st, hv, hd, ?_⟩
    rw [hepoch, ← he]
    exact hle.writerEpoch

theorem placeFence_ok {seq₀ : U64} {vs : VersionedSequentialState} (hs : Inv P s)
    (hseq : seq = BitVec.ofNat 64 (n + 1)) (hn : n + 1 < 2 ^ 64) (hlen : s.created.length = n)
    (hpre : Pre P i (.fence seq epoch) s) (hslots : ∀ d ∈ s.created, (walOf P d).writerEpoch ≤ epoch)
    (hseen : Seen P s vs) (he : vs.state.writerEpoch = epoch) :
    wpm (ctx P i (.fence seq₀ epoch)) (placeFence P.table P.hashes seq epoch) (Ends P i (.fence seq₀ epoch))
      (Throws P i (.fence seq₀ epoch)) s := by
  have hnat : seq.toNat = n + 1 := by rw [hseq, BitVec.toNat_ofNat, Nat.mod_eq_of_lt hn]
  have hnone := hpre.1
  have hE : Escapes P i (Throws P i (.fence seq₀ epoch)) s :=
    fun x u hq _ => ⟨Idle.of_none (by rw [hq.writer]; exact hnone), trivial⟩
  rw [placeFence]
  refine wpm_lift_bind hs ?_ (fun x _ u hu hiu => hE x u hu.quiet hiu)
  intro bytes hb
  refine wpm_lift_bind hs ?_ (fun x _ u hu hiu => hE x u hu.quiet hiu)
  intro path hpath
  obtain ⟨hz, rfl⟩ := sequentialWalKey_ok hpath
  have hempty : ∀ s', Rely P i s s' → Inv P s' → s'.files (walPath P.table seq) = none →
      s'.created = s.created ∧ NextSlot P s' ⟨walPath P.table seq, bytes, (i, s'.incarnation i)⟩ ∧
        (walOf P ⟨walPath P.table seq, bytes, (i, s'.incarnation i)⟩).kind = .fence ∧
        (walOf P ⟨walPath P.table seq, bytes, (i, s'.incarnation i)⟩).writerEpoch = epoch := by
    intro s' hr hi hf
    have hlt := hi.length_lt_of_none hz hf
    have hge := hr.quiet.grow.length
    have hsame : s'.created = s.created := (hr.quiet.grow.created.eq_of_length (by omega)).symm
    refine ⟨hsame, nextSlot_fence (by omega) hseq hpath hb (hpre.fence_quiet hr.quiet).2.1 ?_
      (hseen.grow hr.quiet.grow) he⟩
    rw [hsame]
    exact hslots
  refine wpm_createIfAbsent hE (fun s' hr hi hf => (hempty s' hr hi hf).2.1) ?_ ?_
  · intro s' r hr hi hf hi' hr' ha
    obtain ⟨hsame, hnext, hkind, hepoch⟩ := hempty s' hr hi hf
    have hnone' : (s'.writers i).currentState = none := by rw [hr.quiet.writer]; exact hnone
    have hfenced : Fenced P (s'.create i (walPath P.table seq) bytes) i epoch n
        ⟨walPath P.table seq, bytes, (i, s'.incarnation i)⟩ := by
      refine ⟨Life.create _ _ (hpre.fence_quiet hr.quiet).2.1 (by rw [hsame, hlen]) ?_ ?_, hkind, hepoch⟩
      · rw [hepoch]
        exact BitVec.le_refl _
      · intro hL
        by_contra hmax
        have hlast : seq = uint64Max := by
          refine BitVec.eq_of_toNat_eq ?_
          show seq.toNat = 2 ^ 64 - 1
          omega
        rw [hlast, hL.room] at ha
        cases ha
    rcases hr' with rfl | rfl
    · exact finishStart_ok hi' hseq hnone' hfenced
    · refine wpm_loadSlot hi' hseq hn (walReads_of_escapes fun x u hq _ =>
        ⟨Idle.of_none (by rw [hq.writer]; exact hnone'), trivial⟩) ?_ ?_
      · intro t ht _ _
        exact start_gives_up (by decide) (by rw [ht.quiet.writer]; exact hnone')
      · intro t d ht hit hd
        dsimp only
        have hnone_t : (t.writers i).currentState = none := by rw [ht.quiet.writer]; exact hnone'
        split
        · exact start_gives_up (by decide) hnone_t
        · exact finishStart_ok hit hseq hnone_t (hfenced.quiet hi' hit ht.quiet)
  · intro s' r hr hi hne hex
    have hpre' := hpre.fence_quiet hr.quiet
    cases r with
    | created => exact absurd rfl hne
    | alreadyExists =>
        refine wpm_pure fun u hu _ => Pre.fence_quiet ⟨hpre'.1, hpre'.2.1, hpre'.2.2.1, ?_⟩ hu.quiet
        obtain ⟨b, hb⟩ := Option.ne_none_iff_exists'.mp (hex rfl)
        have hle := (hi.onlySlots seq b hb).2
        rw [toNat_succ]
        omega
    | retryableConflict =>
        refine wpm_loadSlot hi hseq hn (walReads_of_escapes (hE.quiet hr.quiet)) ?_ ?_
        · intro t ht _ _
          exact start_gives_up (by decide) (by rw [ht.quiet.writer]; exact hpre'.1)
        · intro t d ht hit hd
          have hpre_t := hpre'.fence_quiet ht.quiet
          dsimp only
          split
          · exact start_gives_up (by decide) hpre_t.1
          · rename_i hsame
            -- a fence with our epoch would be ours, but we have written nothing
            simp only [not_or, not_not] at hsame
            have hmem := hit.fences d (List.mem_of_getElem? hd) hsame.1
            rw [hsame.2.1] at hmem
            exact absurd (author_unique hit hmem hpre_t.2.1) (hpre_t.2.2.1 d (List.mem_of_getElem? hd))

theorem fence_ok (hs : Inv P s) (hpre : Pre P i (.fence seq epoch) s) :
    wpm (ctx P i (.fence seq epoch)) (fence P.table P.hashes seq epoch) (Ends P i (.fence seq epoch))
      (Throws P i (.fence seq epoch)) s := by
  have hnone := hpre.1
  have hE : Escapes P i (Throws P i (.fence seq epoch)) s :=
    fun x u hq _ => ⟨Idle.of_none (by rw [hq.writer]; exact hnone), trivial⟩
  rw [fence]
  refine wpm_load hs (hE.faults _) ?_ ?_
  · intro s₁ hr₁ _ _
    exact start_gives_up (by decide) (by rw [hr₁.quiet.writer]; exact hnone)
  · intro s₁ latest hr₁ hi₁ hl _
    have hpre₁ := hpre.fence_quiet hr₁.quiet
    dsimp only
    split
    · exact start_gives_up (by decide) hpre₁.1
    · rename_i hepoch
      have hepoch := not_not.mp hepoch
      obtain ⟨v, hv, _, hc⟩ := hl.current
      have hnext : Pre P i (.fence (if seq ≤ latest.state.indexedSeq then latest.state.indexedSeq + 1 else seq)
          epoch) s₁ := by
        refine ⟨hpre₁.1, hpre₁.2.1, hpre₁.2.2.1, ?_⟩
        split
        · have hpub := hc.state.published
          have hidx : latest.state.indexedSeq.toNat ≤ latest.state.publishedSeq.toNat := hc.state.indexed
          rw [toNat_succ]
          omega
        · exact hpre₁.2.2.2
      generalize (if seq ≤ latest.state.indexedSeq then latest.state.indexedSeq + 1 else seq) = seq' at hnext ⊢
      by_cases hz : seq' = 0
      · rw [hz]
        exact wpm_loadZero hi₁ (hE.quiet hr₁.quiet)
      · have hpos : seq'.toNat ≠ 0 := fun h => hz (BitVec.eq_of_toNat_eq h)
        have hlt := seq'.isLt
        have hle := hnext.2.2.2
        have hseq : seq' = BitVec.ofNat 64 (seq'.toNat - 1 + 1) := by
          rw [Nat.sub_add_cancel (by omega)]
          exact eq_ofNat_toNat seq'
        refine wpm_loadSlot hi₁ hseq (by omega) (walReads_of_escapes (hE.quiet hr₁.quiet)) ?_ ?_
        · intro s₂ hr₂ hi₂ hlen
          have hge := hr₂.quiet.grow.length
          have hsame : s₂.created = s₁.created := (hr₂.quiet.grow.created.eq_of_length (by omega)).symm
          refine placeFence_ok hi₂ hseq (by omega) (by omega) (hnext.fence_quiet hr₂.quiet) ?_
            (hl.seen.grow hr₂.quiet.grow) hepoch
          rw [hsame, ← hepoch]
          exact hc.slots
        · intro s₂ d hr₂ hi₂ hd
          obtain ⟨hlt₂, _⟩ := List.getElem?_eq_some_iff.mp hd
          have hpre₂ := hnext.fence_quiet hr₂.quiet
          refine wpm_pure fun u hu _ => Pre.fence_quiet ⟨hpre₂.1, hpre₂.2.1, hpre₂.2.2.1, ?_⟩ hu.quiet
          rw [toNat_succ]
          omega

end Fence

end DBPlayground.StartSpec
