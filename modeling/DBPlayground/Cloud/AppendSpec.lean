import DBPlayground.Cloud.PublishSpec

namespace DBPlayground.AppendSpec

open ByteReader Table Wire Records Keys WalCodec WalRoundTrip WalLimits Program RelyGuarantee Session Store
  StateStore TableWriter WalIndexer CloudSystem Log Invariant Rules ReadSpecs WriteSpecs Contract LogReads PublishSpec

variable {ι : Type} {P : Params ι} {i : ι} {s w u : World ι} {vs : VersionedSequentialState}
  {b : CloudImportBatch} {e : U64} {k : Nat} {d : Creation ι} {path bytes : Bytes}

structure Ready (P : Params ι) (w : World ι) (i : ι) (vs : VersionedSequentialState) (e : U64) (k : Nat)
    (d : Creation ι) : Prop where
  current : (w.writers i).currentState = some vs
  next : (w.writers i).nextSeq = BitVec.ofNat 64 (k + 2)
  seen : Seen P w vs
  life : Life P w i e k d
  stamp : (walOf P d).writerEpoch ≤ vs.state.writerEpoch
  owned : Owned P → vs.state.writerEpoch = e

theorem Ready.startedOk (h : Ready P w i vs e k d) : StartedOk P w i vs :=
  ⟨h.seen, e, k, d, h.life, h.next, h.stamp, h.owned⟩

theorem Ready.idle (h : Ready P w i vs e k d) : Idle P i w := h.startedOk.idle h.current

theorem Ready.quiet (h : Ready P w i vs e k d) (hw : Inv P w) (hu : Inv P u) (hq : Quiet P i w u) :
    Ready P u i vs e k d :=
  ⟨by rw [hq.writer]; exact h.current, by rw [hq.writer]; exact h.next, h.seen.grow hq.grow,
    h.life.quiet hw hu hq, h.stamp, h.owned⟩

/-- The batch that is going to be written, and the digest it will have. -/
structure Fresh (P : Params ι) (b : CloudImportBatch) : Prop where
  submitted : Submitted P b
  valid : isValidBatch P.table b = true
  fits : ∀ seq epoch, Fits P.table.schema (batchWal P.table b seq epoch)
  digested : ∃ x, Digested P b x

theorem nextSlot_batch (hw : Inv P w) (hready : Ready P w i vs e k d) (hlen : w.created.length = k + 1)
    (hb : Fresh P b) (hpath : sequentialWalKey P.table (BitVec.ofNat 64 (k + 2)) = .ok path)
    (he : encodeSequentialWal P.hashes P.table.schema
      (batchWal P.table b (BitVec.ofNat 64 (k + 2)) vs.state.writerEpoch) = .ok bytes)
    (hdisj : ∀ c ∈ w.created, ∀ id ∈ b.batchIds, id ∉ (walOf P c).batchIds) :
    NextSlot P w ⟨path, bytes, (i, w.incarnation i)⟩ := by
  rw [show k + 2 = w.created.length + 1 by omega] at hpath he
  obtain ⟨hslot, digest, hwal⟩ := Slot.of_encode (i, w.incarnation i) hpath he (hb.fits _ _)
    (.batch b hb.submitted hb.valid he)
  have hepoch : (walOf P ⟨path, bytes, (i, w.incarnation i)⟩).writerEpoch = vs.state.writerEpoch := by
    rw [hwal]; rfl
  refine ⟨hslot, ?_, ?_, ?_, ?_, ?_, ?_⟩
  · intro c hc id hid
    rw [hwal] at hid
    exact hdisj c hc id hid
  · intro c hc
    obtain ⟨j, hj⟩ := List.mem_iff_getElem?.mp hc
    obtain ⟨hlt, _⟩ := List.getElem?_eq_some_iff.mp hj
    rw [hepoch]
    exact BitVec.le_trans (hw.sorted j k c d (by omega) hj hready.life.slot) hready.stamp
  · intro _
    refine ⟨d, ?_, hready.life.author⟩
    rw [List.getLast?_eq_getElem?, hlen]
    exact hready.life.slot
  · intro hk
    rw [hwal] at hk
    cases hk
  · intro hO
    rw [hepoch, hready.owned hO]
    exact hready.life.acquired
  · obtain ⟨v, st, hv, hd, hle, _⟩ := hready.seen.later
    refine ⟨v, st, hv, hd, ?_⟩
    rw [hepoch]
    exact hle.writerEpoch

variable [DecidableEq ι]

theorem afterCreate_ok (hs : Inv P s) (hcur : (s.writers i).currentState = some vs)
    (hnext : (s.writers i).nextSeq = BitVec.ofNat 64 (k + 2)) (hseen : Seen P s vs)
    (hlife : Life P s i e (k + 1) d) (hstamp : (walOf P d).writerEpoch ≤ vs.state.writerEpoch)
    (ho : Owned P → vs.state.writerEpoch = e) (hb : Holds P s b (BitVec.ofNat 64 (k + 2))) :
    wpm (ctx P i (.importBatch b))
      (afterCreate b (batchWal P.table b (BitVec.ofNat 64 (k + 2)) vs.state.writerEpoch))
      (Ends P i (.importBatch b)) (Throws P i (.importBatch b)) s := by
  rw [afterCreate]
  refine wpm_self fun s₁ hr₁ hi₁ => wpm_setSelf ((hs.held i).quiet hr₁.quiet) fun s₂ hr₂ hi₂ hi₂' => ?_
  have hr := hr₁.trans hr₂
  have hready : Ready P (s₂.setWriter i { s.writers i with nextSeq := (s.writers i).nextSeq + 1 })
      i vs e (k + 1) d := by
    refine ⟨by rw [World.setWriter_writers]; exact hcur, ?_, (hseen.grow hr.quiet.grow).grow grow_setWriter,
      (hlife.quiet hs hi₂ hr.quiet).setWriter, hstamp, ho⟩
    rw [World.setWriter_writers, hnext, ofNat_succ]
  have hb₂ := (hb.grow hr.quiet.grow).grow (grow_setWriter (i := i)
    (x := { s.writers i with nextSeq := (s.writers i).nextSeq + 1 }))
  cases b.visibility with
  | deferred => exact answer_acked (.inl rfl) hi₂' hready.current hready.startedOk hb₂ (fun h => absurd rfl h)
  | immediate =>
      refine wpm_pure fun u hu hiu => ?_
      have hready := hready.quiet hi₂' hiu hu.quiet
      exact ⟨vs, hready.current, hready.startedOk, hb₂.grow hu.quiet.grow, fun _ => rfl⟩

/-- The read-back after a create that was not reported as successful, and what
`Import` does with it. -/
def afterConflict (t : TableDescriptor) (H : Hashes) (b : CloudImportBatch) (wal : SequentialWal)
    (bytes : Bytes) : Step := do
  match ← checkLanded t H wal bytes with
  | some code => answer code 0
  | none => afterCreate b wal

omit [DecidableEq ι] in
theorem Ready.stranded (hL : ¬ Landing P) (h : Ready P w i vs e k d) (hg : Grow P w u)
    (hw : u.writers i = w.writers i) (hl : u.incarnation i = w.incarnation i) : Ready P u i vs e k d := by
  refine ⟨by rw [hw]; exact h.current, by rw [hw]; exact h.next, h.seen.grow hg,
    ⟨?_, hg.slot h.life.slot, ?_, h.life.epoch, fun hL' => absurd hL' hL, fun hL' => absurd hL' hL⟩,
    h.stamp, h.owned⟩
  · rw [hl]
    exact hg.mem_acquired h.life.acquired
  · rw [hl]
    exact h.life.author

/-- The create took effect although it was not reported: the writer finds its
own WAL, if it finds out at all. -/
theorem afterConflict_applied {digest : Bytes} {new : Creation ι} (hready : Ready P w i vs e k d)
    (hg : Grow P w s) (hw : s.writers i = w.writers i) (hl : s.incarnation i = w.incarnation i) (hs : Inv P s)
    (hlife : Life P s i e (k + 1) new) (hroom : k + 2 < 2 ^ 64) (hbytes : new.bytes = bytes)
    (hwal : walOf P new = reread P.table.schema digest
      (batchWal P.table b (BitVec.ofNat 64 (k + 2)) vs.state.writerEpoch))
    (hb : Holds P s b (BitVec.ofNat 64 (k + 2))) :
    wpm (ctx P i (.importBatch b)) (afterConflict P.table P.hashes b
      (batchWal P.table b (BitVec.ofNat 64 (k + 2)) vs.state.writerEpoch) bytes)
      (Ends P i (.importBatch b)) (Throws P i (.importBatch b)) s := by
  have hnat : (BitVec.ofNat 64 (k + 2)).toNat = k + 2 := by rw [BitVec.toNat_ofNat, Nat.mod_eq_of_lt hroom]
  have hslot := hs.slots _ new hlife.slot
  have hstrand : ∀ {t}, ¬ Landing P → Quiet P i s t → Idle P i t := fun hL hq =>
    (hready.stranded hL (hg.trans hq.grow) (hq.writer.trans hw) (hq.life.trans hl)).idle
  have hnextSeq : ∀ {t}, Rely P i s t → (t.writers i).nextSeq = BitVec.ofNat 64 (k + 2) := by
    intro t hr
    rw [hr.quiet.writer, hw]
    exact hready.next
  have hfile : ∀ {t}, Rely P i s t → Inv P t → t.files (walPath P.table (BitVec.ofNat 64 (k + 2))) = some bytes := by
    intro t hr hi
    have hf := hi.files new (List.mem_of_getElem? (hr.quiet.grow.slot hlife.slot))
    rw [hslot.path, hbytes] at hf
    exact hf
  rw [afterConflict, checkLanded, bind_assoc]
  refine wpm_loadWal hs ?_ ?_ ?_ ?_ ?_
  · intro t x u hr hi ha hu hiu
    refine ⟨hstrand ?_ (hr.quiet.trans hu.quiet), trivial⟩
    intro hL
    have hnone := hL.answers i b t x (by rw [hnextSeq hr]; exact ha)
    rw [hnextSeq hr, hfile hr hi] at hnone
    cases hnone
  · intro x hx
    have hkey := hslot.key
    rw [show k + 1 + 1 = k + 2 from rfl] at hkey
    rw [show sequentialWalKey P.table (batchWal P.table b (BitVec.ofNat 64 (k + 2)) _).seq = _ from hkey] at hx
    cases hx
  · intro t bytes' hr hi hf ha hlarge x u hu hiu
    refine ⟨hstrand ?_ (hr.quiet.trans hu.quiet), trivial⟩
    intro hL
    have hle := hL.fits i b t bytes' (by rw [hnextSeq hr]; exact ha)
    omega
  · intro t hr hi _ hf
    exact absurd ((hfile hr hi).symm.trans hf) (by simp)
  · intro t j d' hr hi hd' hj _
    rw [show (batchWal P.table b (BitVec.ofNat 64 (k + 2)) vs.state.writerEpoch).seq = BitVec.ofNat 64 (k + 2)
      from rfl, hnat] at hj
    cases hj
    rw [hr.quiet.grow.slot hlife.slot] at hd'
    cases hd'
    have hkind : (walOf P new).kind = .append := by rw [hwal]; rfl
    have hencode := hslot.encode_walOf hkind
    have hepoch : (walOf P new).writerEpoch = vs.state.writerEpoch := by rw [hwal]; rfl
    have hop : (walOf P new).operationId = b.batchIds.headD [] := by rw [hwal]; rfl
    dsimp only
    split
    · rename_i hne
      exact absurd hepoch hne
    · split
      · rename_i hne
        exact absurd hne (not_or.mpr ⟨not_not.mpr hkind, not_not.mpr hop⟩)
      · rw [hencode, hbytes, bind_assoc]
        refine wpm_lift_bind hi ?_ (fun x hx => nomatch hx)
        intro again hagain
        cases hagain
        rw [if_neg (not_not.mpr rfl)]
        exact afterCreate_ok hi (by rw [hr.quiet.writer, hw]; exact hready.current) (hnextSeq hr)
          (hready.seen.grow (hg.trans hr.quiet.grow)) (hlife.quiet hs hi hr.quiet) (BitVec.le_of_eq hepoch)
          hready.owned (hb.grow hr.quiet.grow)

/-- The create did not take effect. A WAL with the very same bytes in the slot
is then an earlier one of the same writer. -/
theorem afterConflict_kept (hs : Inv P s) (hready : Ready P s i vs e k d) (hroom : k + 3 < 2 ^ 64)
    (hb : Fresh P b) (he : encodeSequentialWal P.hashes P.table.schema
      (batchWal P.table b (BitVec.ofNat 64 (k + 2)) vs.state.writerEpoch) = .ok bytes) :
    wpm (ctx P i (.importBatch b)) (afterConflict P.table P.hashes b
      (batchWal P.table b (BitVec.ofNat 64 (k + 2)) vs.state.writerEpoch) bytes)
      (Ends P i (.importBatch b)) (Throws P i (.importBatch b)) s := by
  have hE : Escapes P i (Throws P i (.importBatch b)) s :=
    fun x u hq hiu => ⟨hready.idle.quiet hs hiu hq, trivial⟩
  have hnat : (BitVec.ofNat 64 (k + 2)).toNat = k + 2 := by rw [BitVec.toNat_ofNat]; omega
  rw [afterConflict, checkLanded, bind_assoc]
  refine wpm_loadSlot hs rfl (by omega) (walReads_of_escapes hE) ?_ ?_
  · exact fun t hr hi _ => answer_refused rfl hi (hready.idle.quiet hs hi hr.quiet)
  · intro t d' hr hi hd'
    have hready' := hready.quiet hs hi hr.quiet
    dsimp only
    split
    · rw [bind_assoc]
      refine wpm_self fun t₁ hr₁ hi₁ => ?_
      rw [bind_assoc]
      refine wpm_setSelf (Held.of_none rfl) fun t₂ hr₂ hi₂ hi₂' => answer_refused rfl hi₂' (Idle.of_none ?_)
      rw [World.setWriter_writers]
    · rename_i hepoch
      have hepoch : (walOf P d').writerEpoch = vs.state.writerEpoch := not_not.mp hepoch
      split
      · exact answer_refused rfl hi hready'.idle
      · rename_i hkind
        simp only [not_or, not_not] at hkind
        rw [(hi.slots _ d' hd').encode_walOf hkind.1, bind_assoc]
        refine wpm_lift_bind hi ?_ (fun x hx => nomatch hx)
        intro again hagain
        cases hagain
        by_cases hsame : d'.bytes = bytes
        · obtain ⟨k', c, hk', hc, hauthor⟩ := hi.blocks _ d' hd' hkind.1
          cases hk'
          rw [hready'.life.slot] at hc
          cases hc
          have hge := hi.sorted _ _ d d' (Nat.le_succ k) hready'.life.slot hd'
          have hlife : Life P t i e (k + 1) d' := by
            refine ⟨hready'.life.acquired, hd', hauthor.symm.trans hready'.life.author,
              BitVec.le_trans hready'.life.epoch hge, ?_, fun _ => hroom⟩
            intro hL hcar
            have hlen := hready'.life.last hL hcar
            obtain ⟨hlt, _⟩ := List.getElem?_eq_some_iff.mp hd'
            omega
          obtain ⟨x, hx⟩ := hb.digested
          rw [if_neg (not_not.mpr hsame)]
          refine afterCreate_ok hi hready'.current hready'.next hready'.seen hlife (BitVec.le_of_eq hepoch)
            hready'.owned ⟨k + 1, d', b, hd', hnat, hb.submitted, ?_, hb.fits _ _, fun _ => ⟨x, hx, hx⟩⟩
          rw [hepoch, hsame]
          exact he
        · rw [if_pos hsame]
          exact answer_refused rfl hi hready'.idle

theorem appendBatch_ok (hs : Inv P s) (hready : Ready P s i vs e k d) (hb : Fresh P b)
    (hdisj : k + 2 < 2 ^ 64 → s.created.length = k + 1 → ∀ c ∈ s.created, ∀ id ∈ b.batchIds, id ∉ (walOf P c).batchIds) :
    wpm (ctx P i (.importBatch b)) (appendBatch P.table P.hashes b (BitVec.ofNat 64 (k + 2)) vs.state.writerEpoch)
      (Ends P i (.importBatch b)) (Throws P i (.importBatch b)) s := by
  have hE : Escapes P i (Throws P i (.importBatch b)) s :=
    fun x u hq hiu => ⟨hready.idle.quiet hs hiu hq, trivial⟩
  rw [appendBatch]
  split
  · exact answer_refused rfl hs hready.idle
  · rename_i hmax
    refine wpm_lift_bind hs ?_ (fun x _ u hu hiu => hE x u hu.quiet hiu)
    intro path hpath
    have hpath : sequentialWalKey P.table (BitVec.ofNat 64 (k + 2)) = .ok path := hpath
    obtain ⟨hz, rfl⟩ := sequentialWalKey_ok hpath
    have hroom : k + 3 < 2 ^ 64 := by
      obtain ⟨hlt, _⟩ := List.getElem?_eq_some_iff.mp hready.life.slot
      have hlen := hs.room
      have hne : k + 2 ≠ 2 ^ 64 := fun h => hz (by rw [h]; decide)
      have hne' : k + 2 ≠ 2 ^ 64 - 1 := fun h => hmax (by rw [h]; decide)
      omega
    have hnat : (BitVec.ofNat 64 (k + 2)).toNat = k + 2 := by rw [BitVec.toNat_ofNat]; omega
    split
    · exact answer_refused rfl hs hready.idle
    · exact wpm_throw fun u hu hiu => hE _ u hu.quiet hiu
    · rename_i bytes he
      have hempty : ∀ t, Rely P i s t → Inv P t → t.files (walPath P.table (BitVec.ofNat 64 (k + 2))) = none →
          t.created.length = k + 1 ∧
          NextSlot P t ⟨walPath P.table (BitVec.ofNat 64 (k + 2)), bytes, (i, t.incarnation i)⟩ := by
        intro t hr hi hf
        have hlt := hi.length_lt_of_none hz hf
        obtain ⟨hge, _⟩ := List.getElem?_eq_some_iff.mp hready.life.slot
        have hgrow := hr.quiet.grow.length
        have hsame : t.created = s.created := (hr.quiet.grow.created.eq_of_length (by omega)).symm
        refine ⟨by omega, nextSlot_batch hi (hready.quiet hs hi hr.quiet) (by omega) hb hpath he ?_⟩
        rw [hsame]
        exact hdisj (by omega) (by omega)
      refine wpm_createIfAbsent hE (fun t hr hi hf => (hempty t hr hi hf).2) ?_ ?_
      · intro t r hr hi hf hi' hr' _
        obtain ⟨hlen, hnext⟩ := hempty t hr hi hf
        have hready' := hready.quiet hs hi hr.quiet
        obtain ⟨x, hx⟩ := hb.digested
        obtain ⟨_, digest, hwal⟩ := Slot.of_encode (k := k + 1) (i, t.incarnation i) hpath he (hb.fits _ _)
          (.batch b hb.submitted hb.valid he)
        have hepoch : (walOf P ⟨walPath P.table (BitVec.ofNat 64 (k + 2)), bytes, (i, t.incarnation i)⟩).writerEpoch =
            vs.state.writerEpoch := by rw [hwal]; rfl
        have hlife := Life.create (walPath P.table (BitVec.ofNat 64 (k + 2))) bytes hready'.life.acquired hlen (by
            rw [hepoch]
            exact BitVec.le_trans hready'.life.epoch hready'.stamp) (fun _ => hroom)
        have hg : Grow P t (t.create i (walPath P.table (BitVec.ofNat 64 (k + 2))) bytes) := grow_create hf
        have hholds : Holds P (t.create i (walPath P.table (BitVec.ofNat 64 (k + 2))) bytes) b
            (BitVec.ofNat 64 (k + 2)) :=
          ⟨k + 1, _, b, hlife.slot, hnat, hb.submitted, by rw [hepoch]; exact he, hb.fits _ _, fun _ => ⟨x, hx, hx⟩⟩
        rcases hr' with rfl | rfl
        · exact afterCreate_ok hi' hready'.current hready'.next (hready'.seen.grow hg) hlife
            (BitVec.le_of_eq hepoch) hready'.owned hholds
        · exact afterConflict_applied hready' hg rfl rfl hi' hlife (by omega) rfl hwal hholds
      · intro t r hr hi hne _
        have hkept := afterConflict_kept hi (hready.quiet hs hi hr.quiet) hroom hb he
        cases r with
        | created => exact absurd rfl hne
        | alreadyExists | retryableConflict => exact hkept

end DBPlayground.AppendSpec
