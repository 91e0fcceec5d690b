import DBPlayground.Cloud.AppendSpec

namespace DBPlayground.ImportSpec

open ByteReader Table Wire Records Keys WalCodec WalRoundTrip WalLimits Program RelyGuarantee Session Store
  StateStore TableWriter WalIndexer CloudSystem Log Invariant Rules ReadSpecs WriteSpecs Contract LogReads
  PublishSpec AppendSpec

section Known

variable {known : List SequentialBatchEntry} {operationId digest : Bytes} {ids : List Bytes}
  {already already' : Nat} {prior prior' : U64}

theorem countKnown_cases
    (h : countKnown known operationId digest ids already prior = some (already', prior')) :
    (already' = already ∧ prior' = prior ∧ ∀ id ∈ ids, ∀ e ∈ known, e.batchId ≠ id) ∨
      already < already' ∧ ∃ e ∈ known, e.seq = prior' ∧ e.payloadDigest = digest := by
  induction ids generalizing already prior with
  | nil =>
      cases h
      exact .inl ⟨rfl, rfl, fun _ hid => nomatch hid⟩
  | cons id ids ih =>
      rw [countKnown] at h
      split at h
      · rename_i hfind
        rcases ih h with ⟨rfl, rfl, hnone⟩ | hsome
        · refine .inl ⟨rfl, rfl, ?_⟩
          intro id' hid'
          rcases List.mem_cons.mp hid' with rfl | hid'
          · intro e he heq
            exact absurd (beq_iff_eq.mpr heq) (List.find?_eq_none.mp hfind e he)
          · exact hnone id' hid'
        · exact .inr hsome
      · rename_i e hfind
        split at h
        · cases h
        · rename_i hsame
          simp only [not_or, not_not] at hsame
          rcases ih h with ⟨rfl, rfl, _⟩ | ⟨hlt, hsome⟩
          · exact .inr ⟨Nat.lt_succ_self _, e, List.mem_of_find?_eq_some hfind, rfl, hsame.2.1⟩
          · exact .inr ⟨by omega, hsome⟩

end Known

variable {ι : Type} {P : Params ι} {i : ι} {s w u : World ι} {vs : VersionedSequentialState}
  {b : CloudImportBatch} {e : U64} {k : Nat} {d : Creation ι}

theorem batchIds_ne_nil (h : isValidBatch P.table b = true) : b.batchIds ≠ [] := by
  intro hnil
  rw [isValidBatch, hnil] at h
  simp at h

theorem fresh_of_request {bytes : Bytes} {requested : SequentialWal} (hsub : Submitted P b)
    (hvalid : isValidBatch P.table b = true)
    (he : encodeSequentialWal P.hashes P.table.schema (batchWal P.table b 1 1) = .ok bytes)
    (hd : decodeSequentialWal P.hashes P.table.schema bytes = .ok requested) :
    Fresh P b ∧ ∃ x, Digested P b x ∧ requested.payloadDigest = P.hashes.sha256 x := by
  obtain ⟨hf, ids, entries, hi, hc, hw⟩ := decoded_eq he hd
  have hx : Digested P b (logical 1 ids entries) := ⟨ids, entries, hi, hc, rfl⟩
  exact ⟨⟨hsub, hvalid, fun _ _ => ⟨hf.count, hf.payload⟩, _, hx⟩, _, hx, by rw [hw]; rfl⟩

theorem holds_of_known (hw : Inv P w) {n : Nat} {es : List SequentialBatchEntry} (hes : IndexOk P w n es)
    (hb : Fresh P b) {x : Bytes} (hx : Digested P b x) {entry : SequentialBatchEntry} (hmem : entry ∈ es)
    (hdigest : entry.payloadDigest = P.hashes.sha256 x) : Holds P w b entry.seq := by
  obtain ⟨j, c, hj, _, hseq, hid, _, hdig⟩ := hes.sound entry hmem
  obtain ⟨hlt, _⟩ := List.getElem?_eq_some_iff.mp hj
  have hroom := hw.room
  have hnat : entry.seq.toNat = j + 1 := by rw [hseq, BitVec.toNat_ofNat]; omega
  rcases (hw.slots j c hj).cases with hwal | ⟨b', hsub, _, he, _, ⟨y, hy, hsha⟩, _⟩
  · rw [hwal] at hid
    cases hid
  · refine ⟨j, c, b', hj, hnat, hsub, by rw [hseq]; exact he, hb.fits _ _, ?_⟩
    intro hC
    have hxy : x = y := hC b b' x y hb.submitted hsub hx hy (hdigest.symm.trans (hdig.trans hsha))
    exact ⟨x, hx, hxy ▸ hy⟩

variable [DecidableEq ι]

theorem answerKnown_ok {prior : U64} (hs : Inv P s) (hready : Ready P s i vs e k d) (hb : Holds P s b prior) :
    wpm (ctx P i (.importBatch b)) (answerKnown b vs.state prior) (Ends P i (.importBatch b))
      (Throws P i (.importBatch b)) s := by
  rw [answerKnown]
  split
  · rename_i hle
    exact answer_acked (.inl rfl) hs hready.current hready.startedOk hb fun _ => ⟨vs, hready.seen, hle⟩
  · cases b.visibility with
    | deferred => exact answer_acked (.inl rfl) hs hready.current hready.startedOk hb fun h => absurd rfl h
    | immediate =>
        refine wpm_pure fun u hu hiu => ?_
        have hready := hready.quiet hs hiu hu.quiet
        exact ⟨vs, hready.current, hready.startedOk, hb.grow hu.quiet.grow, fun _ => rfl⟩

theorem importKnown_ok (hs : Inv P s) (hready : Ready P s i vs e k d) (hsub : Submitted P b)
    (hvalid : isValidBatch P.table b = true) :
    wpm (ctx P i (.importBatch b)) (importKnown P.table P.hashes b vs.state (BitVec.ofNat 64 (k + 2)))
      (Ends P i (.importBatch b)) (Throws P i (.importBatch b)) s := by
  have hE : Escapes P i (Throws P i (.importBatch b)) s :=
    fun x u hq hiu => ⟨hready.idle.quiet hs hiu hq, trivial⟩
  rw [importKnown]
  refine wpm_lift_bind hs ?_ (fun x _ u hu hiu => hE x u hu.quiet hiu)
  intro bytes he
  refine wpm_lift_bind hs ?_ (fun x _ u hu hiu => hE x u hu.quiet hiu)
  intro requested hd
  obtain ⟨hb, x, hx, hdigest⟩ := fresh_of_request hsub hvalid he hd
  have hst := hready.seen.state
  refine wpm_loadManifest hs hst (hE.faults _) (fun _ => hE) ?_
  intro s₁ m hr₁ hi₁ hm
  obtain ⟨es, hfiles, hes⟩ := hm.index
  have hE₁ := hE.quiet hr₁.quiet
  refine wpm_loadBatchIndex hi₁ hfiles (fun key => hE₁.faults _) ?_
  intro s₂ hr₂ hi₂
  have hE₂ := hE₁.quiet hr₂.quiet
  have hidx : vs.state.indexedSeq.toNat ≤ vs.state.publishedSeq.toNat := hst.indexed
  have hlen₁ := (hr₁.quiet.grow.stateOk hst).published
  refine wpm_scanWals hi₂ ?_ vs.state.indexedSeq.isLt hE₂ ?_ ?_
  · rw [← ofNat_succ, ← eq_ofNat_toNat]
  · intro s₃ hr₃ hi₃
    exact answer_refused rfl hi₃ (hready.idle.quiet hs hi₃ (hr₁.quiet.trans (hr₂.quiet.trans hr₃.quiet)))
  · intro s₃ hr₃ hi₃ hin
    have hg₃ := hr₂.quiet.grow.trans hr₃.quiet.grow
    have hlen₃ := hg₃.length
    have hready₃ := hready.quiet hs hi₃ (hr₁.quiet.trans (hr₂.quiet.trans hr₃.quiet))
    have hknown := indexOk_append hi₃ (hg₃.indexOk (by omega) hes) (by
      rcases hin with h | h
      · exact h
      · rw [h]
        omega)
    dsimp only
    split
    · exact answer_refused rfl hi₃ hready₃.idle
    · rename_i already prior hcount
      rcases countKnown_cases hcount with ⟨rfl, _, hnone⟩ | ⟨hpos, entry, hentry, rfl, hdig⟩
      · have hlenpos := List.length_pos_of_ne_nil (batchIds_ne_nil hvalid)
        rw [if_neg (by omega), if_neg (by simp)]
        refine appendBatch_ok hi₃ hready₃ hb ?_
        intro hroom hlen c hc id hid hidc
        obtain ⟨j, hj⟩ := List.mem_iff_getElem?.mp hc
        obtain ⟨hlt, _⟩ := List.getElem?_eq_some_iff.mp hj
        obtain ⟨entry, hentry, heq⟩ := hknown.complete j c hj (by
          rw [toNat_succ, BitVec.toNat_ofNat]
          omega) id hidc
        exact hnone id hid entry hentry heq
      · have hholds := holds_of_known hi₃ hknown hb hx hentry (hdig.trans hdigest)
        split
        · exact answerKnown_ok hi₃ hready₃ hholds
        · rw [if_pos (by omega)]
          exact answer_refused rfl hi₃ hready₃.idle

theorem import_ok (hs : Inv P s) (hidle : Idle P i s) (hsub : Submitted P b) :
    wpm (ctx P i (.importBatch b)) (importBatch P.table P.hashes b) (Ends P i (.importBatch b))
      (Throws P i (.importBatch b)) s := by
  rw [importBatch]
  refine wpm_self fun s₁ hr₁ hi₁ => ?_
  have hidle₁ := hidle.quiet hs hi₁ hr₁.quiet
  cases hcur : (s.writers i).currentState with
  | none => exact answer_refused rfl hi₁ hidle₁
  | some current =>
      dsimp only
      split
      · exact answer_refused rfl hi₁ hidle₁
      · rename_i hvalid
        have hE : Escapes P i (Throws P i (.importBatch b)) s₁ :=
          fun x u hq hiu => ⟨hidle₁.quiet hi₁ hiu hq, trivial⟩
        refine wpm_load hi₁ (hE.faults _) ?_ ?_
        · exact fun s₂ hr₂ hi₂ _ => answer_refused rfl hi₂ (hidle₁.quiet hi₁ hi₂ hr₂.quiet)
        · intro s₂ latest hr₂ hi₂ hl _
          have hr := hr₁.trans hr₂
          dsimp only
          split
          · refine wpm_setSelf (Held.of_none rfl) fun s₃ hr₃ hi₃ hi₃' => answer_refused rfl hi₃' (Idle.of_none ?_)
            rw [World.setWriter_writers]
          · rename_i hepoch
            have hepoch := not_not.mp hepoch
            have hok₂ := (hidle current hcur).quiet hs hi₂ hr.quiet
            refine wpm_setSelf (hok₂.held rfl fun _ => hepoch) fun s₃ hr₃ hi₃ hi₃' => ?_
            have hr := hr.trans hr₃
            have hok := (hidle current hcur).quiet hs hi₃ hr.quiet
            obtain ⟨e, k, d, hlife, hnext, hstamp, ho⟩ := hok.life
            rw [hr.quiet.writer] at hnext
            rw [hnext] at hi₃' ⊢
            refine importKnown_ok hi₃' ⟨?_, ?_, (hl.seen.grow hr₃.quiet.grow).grow grow_setWriter,
              hlife.setWriter, by rw [hepoch]; exact hstamp, fun hO => hepoch.trans (ho hO)⟩ hsub
              (Bool.eq_true_of_not_eq_false hvalid)
            · rw [World.setWriter_writers]
            · rw [World.setWriter_writers]

end DBPlayground.ImportSpec
