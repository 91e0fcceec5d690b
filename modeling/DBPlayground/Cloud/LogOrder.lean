import DBPlayground.Cloud.TextTable

namespace DBPlayground.LogOrder

open ByteReader Table Wire Records Keys WalCodec Program RelyGuarantee Session Store StateStore TableWriter
  WalIndexer CloudSystem Log Invariant Rules Contract Correct Progress TextTable

variable {ι : Type} {P : Params ι} {w u : World ι}

def WalAt (P : Params ι) (w : World ι) (seq : U64) (wal : SequentialWal) : Prop :=
  ∃ b, w.files (walPath P.table seq) = some b ∧ decodeSequentialWal P.hashes P.table.schema b = .ok wal

def CurrentState (P : Params ι) (w : World ι) (st : SequentialState) : Prop :=
  ∃ v, w.entries (currentKey P.table) = some v ∧ decodeSequentialState v.value = .ok st

theorem CurrentState.unique {st st' : SequentialState} (h : CurrentState P w st) (h' : CurrentState P w st') :
    st = st' := by
  obtain ⟨v, hv, hd⟩ := h
  obtain ⟨v', hv', hd'⟩ := h'
  obtain rfl := Option.some.inj (hv.symm.trans hv')
  exact Except.ok.inj (hd.symm.trans hd')

theorem WalAt.slot (hw : Inv P w) {seq : U64} {wal : SequentialWal} (h : WalAt P w seq wal) :
    ∃ (k : Nat) (c : Creation ι), w.created[k]? = some c ∧ seq.toNat = k + 1 ∧ wal = walOf P c := by
  obtain ⟨b, hf, hd⟩ := h
  have hpos := (hw.onlySlots seq b hf).1
  obtain ⟨k, c, hc, _, hk, rfl⟩ := hw.slot_of_file (fun hz => by rw [hz] at hpos; exact absurd hpos (by decide)) hf
  exact ⟨k, c, hc, hk, (walOf_eq hd).symm⟩

theorem WalAt.of_slot (hw : Inv P w) {k : Nat} {c : Creation ι} (h : w.created[k]? = some c) :
    WalAt P w (BitVec.ofNat 64 (k + 1)) (walOf P c) := by
  have hslot := hw.slots k c h
  refine ⟨c.bytes, ?_, hslot.decoded⟩
  rw [← hslot.path]
  exact hw.files c (List.mem_of_getElem? h)

theorem slots_iff (hw : Inv P w) (seq : U64) :
    w.files (walPath P.table seq) ≠ none ↔ 0 < seq.toNat ∧ seq.toNat ≤ w.created.length := by
  constructor
  · intro h
    obtain ⟨b, hb⟩ := Option.ne_none_iff_exists'.mp h
    exact hw.onlySlots seq b hb
  · rintro ⟨hpos, hle⟩ hnone
    have hz : seq ≠ 0 := by
      rintro rfl
      exact absurd hpos (by decide)
    have hlt := hw.length_lt_of_none hz hnone
    omega

def Wrote (P : Params ι) (w : World ι) (a : Author ι) (seq : U64) (wal : SequentialWal) : Prop :=
  ∃ (k : Nat) (c : Creation ι), w.created[k]? = some c ∧ seq.toNat = k + 1 ∧ wal = walOf P c ∧ c.author = a

theorem fence_behind (hw : Inv P w) {g : Nat} {d : Creation ι} (hd : w.created[g]? = some d) :
    ∃ (k : Nat) (c : Creation ι), k ≤ g ∧ w.created[k]? = some c ∧ (walOf P c).kind = .fence ∧
      ∀ (j : Nat) (e : Creation ι), k ≤ j → j ≤ g → w.created[j]? = some e → e.author = d.author := by
  induction g generalizing d with
  | zero =>
      cases hkind : (walOf P d).kind with
      | append =>
          obtain ⟨k, _, hk, _⟩ := hw.blocks 0 d hd hkind
          exact absurd hk (Nat.succ_ne_zero k).symm
      | fence =>
          refine ⟨0, d, Nat.le_refl 0, hd, hkind, ?_⟩
          intro j e _ hj he
          rw [Nat.le_zero.mp hj, hd] at he
          cases he
          rfl
  | succ g ih =>
      cases hkind : (walOf P d).kind with
      | append =>
          obtain ⟨g', d', hg, hd', ha⟩ := hw.blocks _ d hd hkind
          cases hg
          obtain ⟨k, c, hk, hc, hfence, hall⟩ := ih hd'
          refine ⟨k, c, Nat.le_succ_of_le hk, hc, hfence, ?_⟩
          intro j e hkj hj he
          rcases Nat.lt_or_eq_of_le hj with hlt | rfl
          · exact (hall j e hkj (Nat.le_of_lt_succ hlt) he).trans ha
          · rw [hd] at he
            cases he
            rfl
      | fence =>
          refine ⟨g + 1, d, Nat.le_refl _, hd, hkind, ?_⟩
          intro j e hkj hj he
          rw [Nat.le_antisymm hj hkj, hd] at he
          cases he
          rfl

theorem author_behind (hw : Inv P w) {f g : Nat} {c d : Creation ι} (hc : w.created[f]? = some c)
    (hd : w.created[g]? = some d) (hlt : f < g) : d.author = c.author ∨
      ∃ (k : Nat) (e : Creation ι), f < k ∧ k ≤ g ∧ w.created[k]? = some e ∧ (walOf P e).kind = .fence ∧
        e.author = d.author := by
  obtain ⟨k, e, hk, he, hfence, hall⟩ := fence_behind hw hd
  by_cases hfk : f < k
  · exact .inr ⟨k, e, hfk, hk, he, hfence, hall k e (Nat.le_refl k) hk he⟩
  · exact .inl (hall f c (by omega) (by omega) hc).symm

variable [DecidableEq ι] {x y : Config ι Op Ans (World ι) Call Reply}

/-- Every batch id is in at most one slot of the log. -/
theorem batch_in_one_slot (hx : Reachable P x) {seq seq' : U64} {wal wal' : SequentialWal}
    (h : WalAt P x.store seq wal) (h' : WalAt P x.store seq' wal') (hk : wal.kind = .append)
    (hk' : wal'.kind = .append) {id : Bytes} (hid : id ∈ wal.batchIds) (hid' : id ∈ wal'.batchIds) :
    seq = seq' := by
  have hinv := inv_of_reachable hx
  obtain ⟨k, c, hc, hseq, rfl⟩ := h.slot hinv
  obtain ⟨l, d, hd, hseq', rfl⟩ := h'.slot hinv
  have hkl := hinv.disjoint k l c d hc hd id hid hid'
  exact BitVec.eq_of_toNat_eq (by omega)

theorem text_in_one_slot : ∃ x wal, Reachable (benignParams (ascii "x")) x ∧
    WalAt (benignParams (ascii "x")) x.store 2 wal ∧ wal.kind = .append ∧ ascii "b" ∈ wal.batchIds ∧
    ∀ seq wal', WalAt (benignParams (ascii "x")) x.store seq wal' → wal'.kind = .append →
      ascii "b" ∈ wal'.batchIds → 2 = seq := by
  obtain ⟨s, fence, d, hx, hc⟩ := exists_committed_text (ascii "x") (by decide) serves_benignParams
  obtain ⟨digest, hwal⟩ := hc.holds.decoded
  have hat := WalAt.of_slot (inv_of_reachable hx) (k := 1) (c := d) (by rw [hc.log]; rfl)
  have hk : (walOf (benignParams (ascii "x")) d).kind = .append := congrArg SequentialWal.kind hwal
  have hid : ascii "b" ∈ (walOf (benignParams (ascii "x")) d).batchIds := by
    rw [show (walOf (benignParams (ascii "x")) d).batchIds = _ from congrArg SequentialWal.batchIds hwal]
    exact List.mem_singleton.mpr rfl
  exact ⟨_, _, hx, hat, hk, hid, fun seq wal' h' hk' hid' => batch_in_one_slot hx hat h' hk hk' hid hid'⟩

/-- The slots of the log are `1` to `N` and keep their bytes, and CURRENT moves
forward one version at a time with its marks inside the log. -/
theorem log_and_watermarks (hx : Reachable P x) :
    (∃ N : Nat, (∀ seq : U64, x.store.files (walPath P.table seq) ≠ none ↔ 0 < seq.toNat ∧ seq.toNat ≤ N) ∧
      ∀ v, x.store.entries (currentKey P.table) = some v → ∃ st, decodeSequentialState v.value = .ok st ∧
        st.indexedSeq ≤ st.publishedSeq ∧ st.publishedSeq.toNat ≤ N) ∧
    (∀ y, Steps (service P) x y → ∀ seq b, x.store.files (walPath P.table seq) = some b →
      y.store.files (walPath P.table seq) = some b) ∧
    (∀ y, Step (service P) x y → Tick P x.store y.store) ∧
    (∀ y st st', Steps (service P) x y → CurrentState P x.store st → CurrentState P y.store st' → Le st st') := by
  have hinv := inv_of_reachable hx
  refine ⟨⟨x.store.created.length, slots_iff hinv, ?_⟩, ?_, ?_, ?_⟩
  · intro v hv
    obtain ⟨st, hc⟩ := hinv.current v hv
    exact ⟨st, hc.decoded, hc.state.indexed, hc.state.published⟩
  · exact fun y hy seq b hb => (grow_of_steps hx hy).files _ b hb
  · intro y hy
    rcases (good_of_reachable hx).step_guar hy with heq | ⟨i, hg⟩
    · exact .same (by rw [heq])
    · exact hg.tick
  · rintro y st st' hy ⟨v, hv, hd⟩ ⟨v', hv', hd'⟩
    obtain ⟨v'', hv'', hl⟩ := (grow_of_steps hx hy).current v hv
    obtain ⟨st'', hd'', hle⟩ := hl.state st hd
    rw [hv'] at hv''
    cases hv''
    rw [hd'] at hd''
    cases hd''
    exact hle

theorem text_log_and_watermarks : ∃ x, Reachable (benignParams (ascii "x")) x ∧
    x.store.files (walPath textTable 2) ≠ none ∧
    ∃ N : Nat, ∀ seq : U64, x.store.files (walPath textTable seq) ≠ none ↔ 0 < seq.toNat ∧ seq.toNat ≤ N := by
  obtain ⟨s, fence, d, hx, hc⟩ := exists_committed_text (ascii "x") (by decide) serves_benignParams
  obtain ⟨⟨N, hN, _⟩, _⟩ := log_and_watermarks hx
  refine ⟨_, hx, ?_, N, hN⟩
  refine (slots_iff (inv_of_reachable hx) 2).mpr ?_
  show 0 < 2 ∧ 2 ≤ s.created.length
  rw [hc.log]
  exact ⟨by decide, Nat.le_refl _⟩

/-- Once `Start` has returned with its fence in place, whatever comes behind
the fence is its own or lies behind a later fence of its author; and epochs do
not decrease along the log. -/
theorem fenced_off (hx : Reachable P x) :
    (∀ i seq epoch r, Replies x i (.fence seq epoch) (.started r) → r.code = .started →
      ∃ f wal, Wrote P x.store (i, x.store.incarnation i) f wal ∧ wal.kind = .fence ∧ wal.writerEpoch = epoch ∧
        ∀ y, Steps (service P) x y → ∀ g wal', WalAt P y.store g wal' → f < g →
          ∃ a, Wrote P y.store a g wal' ∧ (a = (i, x.store.incarnation i) ∨
            ∃ k fence, f < k ∧ k ≤ g ∧ Wrote P y.store a k fence ∧ fence.kind = .fence)) ∧
    (∀ seq seq' wal wal', WalAt P x.store seq wal → WalAt P x.store seq' wal' → seq ≤ seq' →
      wal.writerEpoch ≤ wal'.writerEpoch) := by
  refine ⟨?_, ?_⟩
  · intro i seq epoch r hr hcode
    obtain ⟨n, c, hc, hkind, hepoch, hauthor⟩ := ((good_of_reachable hx).replies hr).2 hcode
    have hroom := (inv_of_reachable hx).room
    obtain ⟨hlt, _⟩ := List.getElem?_eq_some_iff.mp hc
    have hf : (BitVec.ofNat 64 (n + 1)).toNat = n + 1 := by rw [BitVec.toNat_ofNat]; omega
    refine ⟨BitVec.ofNat 64 (n + 1), walOf P c, ⟨n, c, hc, hf, rfl, hauthor⟩, hkind, hepoch, ?_⟩
    intro y hy g wal' hwal hfg
    have hinv := inv_of_reachable (hx.trans hy)
    obtain ⟨m, d, hd, hg, rfl⟩ := hwal.slot hinv
    have hnm : n < m := by
      have h : (BitVec.ofNat 64 (n + 1)).toNat < g.toNat := hfg
      omega
    have hroom' := hinv.room
    refine ⟨d.author, ⟨m, d, hd, hg, rfl, rfl⟩, ?_⟩
    rcases author_behind hinv ((grow_of_steps hx hy).slot hc) hd hnm with ha | ⟨k, e, hnk, hkm, he, hfence, ha⟩
    · exact .inl (ha.trans hauthor)
    · obtain ⟨hlt', _⟩ := List.getElem?_eq_some_iff.mp he
      have hk : (BitVec.ofNat 64 (k + 1)).toNat = k + 1 := by rw [BitVec.toNat_ofNat]; omega
      refine .inr ⟨BitVec.ofNat 64 (k + 1), walOf P e, ?_, ?_, ⟨k, e, he, hk, rfl, ha⟩, hfence⟩
      · show (BitVec.ofNat 64 (n + 1)).toNat < (BitVec.ofNat 64 (k + 1)).toNat
        omega
      · show (BitVec.ofNat 64 (k + 1)).toNat ≤ g.toNat
        omega
  · intro seq seq' wal wal' h h' hle
    have hinv := inv_of_reachable hx
    obtain ⟨k, c, hc, hk, rfl⟩ := h.slot hinv
    obtain ⟨l, d, hd, hl, rfl⟩ := h'.slot hinv
    have hle : seq.toNat ≤ seq'.toNat := hle
    exact hinv.sorted k l c d (by omega) hc hd

theorem text_fenced_off : ∃ x f wal, Reachable (benignParams (ascii "x")) x ∧
    Replies x 0 (.fence 1 1) (.started ⟨.started, 1⟩) ∧
    Wrote (benignParams (ascii "x")) x.store (0, x.store.incarnation 0) f wal ∧ wal.kind = .fence ∧
    wal.writerEpoch = 1 := by
  obtain ⟨s, fence, hx, _⟩ := exists_started (P := benignParams (ascii "x")) (i := 0)
    (usable_textParams serves_benignParams) rfl (by decide)
  obtain ⟨f, wal, hwrote, hkind, hepoch, _⟩ := (fenced_off hx).1 0 1 1 _ Solo.replies_done rfl
  exact ⟨_, f, wal, hx, Solo.replies_done, hwrote, hkind, hepoch⟩

end DBPlayground.LogOrder
