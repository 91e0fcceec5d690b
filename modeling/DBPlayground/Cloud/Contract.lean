import DBPlayground.Cloud.Growth
import Mathlib.Data.List.Nodup

namespace DBPlayground.Contract

open ByteReader Table Wire Records Keys WalCodec Store StateStore TableWriter WalIndexer CloudSystem Log Invariant

variable {ι : Type} (P : Params ι)

/-- Every read-back that `Import` makes of a slot that exists returns, and no
fence is put into the last slot. -/
structure Landing : Prop where
  answers : ∀ i b (w : World ι) x,
    P.allow i (.importBatch b) (.openInput (walPath P.table (w.writers i).nextSeq)) w (.error x) = true →
      w.files (walPath P.table (w.writers i).nextSeq) = none
  fits : ∀ i b (w : World ι) bytes,
    P.allow i (.importBatch b) (.openInput (walPath P.table (w.writers i).nextSeq)) w (.ok (some bytes)) = true →
      bytes.length ≤ maxWalBytes
  room : ∀ i seq epoch bytes (w : World ι) r,
    P.allow i (.fence seq epoch) (.createIfAbsent (walPath P.table uint64Max) bytes) w r = false

def CollisionFree : Prop := ∀ b b' x y, Submitted P b → Submitted P b' → Digested P b x → Digested P b' y →
  P.hashes.sha256 x = P.hashes.sha256 y → x = y

/-- The stores answer every read of a snapshot loader, the schema is one that
a manifest can carry, and WALs have paths. -/
structure Readable : Prop where
  columns : P.table.schema.length ≤ 1024
  located : trimSlashes P.table.filePrefix ≠ []
  answers : ∀ i n o (w : World ι) x, P.allow i (.load n) o w (.error x) = false

def Carries (w : World ι) (e : U64) : Prop :=
  ∃ v st, w.entries (currentKey P.table) = some v ∧ decodeSequentialState v.value = .ok st ∧ st.writerEpoch = e

/-- The life of object `i` that acquired epoch `e` and whose last WAL is the
`k`-th creation `c`. Nothing follows that WAL while the epoch stands. -/
structure Life (w : World ι) (i : ι) (e : U64) (k : Nat) (c : Creation ι) : Prop where
  acquired : ((i, w.incarnation i), e) ∈ w.acquired
  slot : w.created[k]? = some c
  author : c.author = (i, w.incarnation i)
  epoch : e ≤ (walOf P c).writerEpoch
  last : Landing P → Carries P w e → w.created.length = k + 1
  room : Landing P → k + 2 < 2 ^ 64

structure StartedOk (w : World ι) (i : ι) (cs : VersionedSequentialState) : Prop where
  seen : Seen P w cs
  life : ∃ e k c, Life P w i e k c ∧ (w.writers i).nextSeq = BitVec.ofNat 64 (k + 2) ∧
    (walOf P c).writerEpoch ≤ cs.state.writerEpoch ∧ (Owned P → cs.state.writerEpoch = e)

def Idle (i : ι) (w : World ι) : Prop := ∀ cs, (w.writers i).currentState = some cs → StartedOk P w i cs

/-- Slot `seq` holds a WAL with the ids and rows of batch `b`, as far as the
digest tells. -/
def Holds (w : World ι) (b : CloudImportBatch) (seq : U64) : Prop :=
  ∃ k c b', w.created[k]? = some c ∧ seq.toNat = k + 1 ∧ Submitted P b' ∧
    encodeSequentialWal P.hashes P.table.schema (batchWal P.table b' seq (walOf P c).writerEpoch) = .ok c.bytes ∧
    WalRoundTrip.Fits P.table.schema (batchWal P.table b seq (walOf P c).writerEpoch) ∧
    (CollisionFree P → ∃ x, Digested P b x ∧ Digested P b' x)

structure Acked (w : World ι) (i : ι) (b : CloudImportBatch) (r : CloudImportResult) : Prop where
  started : (w.writers i).currentState ≠ none
  holds : Holds P w b r.walSeq
  published : r.code ≠ .durable → ∃ vs, Seen P w vs ∧ r.walSeq ≤ vs.state.publishedSeq

/-- A snapshot denotes the rows of the first `n` slots. -/
def Denotes (w : World ι) (snap : TableSnapshot) (n : Nat) : Prop :=
  ∃ rows, dataRows P w snap.dataFiles = some rows ∧
    rows ++ snap.walChunks.flatMap Chunk.rows = rowsOf P (w.created.take n)

structure SnapshotOk (w : World ι) (probeLimit : Nat) (snap : TableSnapshot) : Prop where
  current : ∃ vs, Seen P w vs ∧ vs.version = snap.currentMetadataVersion ∧
    vs.state.publishedSeq = snap.publishedSeq
  denotes : ReadsBack P.format → ∃ n, Denotes P w snap n ∧ n ≤ w.created.length ∧
    snap.publishedSeq.toNat ≤ n ∧ n ≤ snap.publishedSeq.toNat + probeLimit

def Pre (i : ι) : Call → World ι → Prop
  | .start, w => Idle P i w ∧
      ((w.writers i).currentState = none → ∀ a ∈ w.acquired, a.1 ≠ (i, w.incarnation i))
  | .fence seq epoch, w => (w.writers i).currentState = none ∧ ((i, w.incarnation i), epoch) ∈ w.acquired ∧
      (∀ c ∈ w.created, c.author ≠ (i, w.incarnation i)) ∧ seq.toNat ≤ w.created.length + 1
  | .importBatch b, w => Idle P i w ∧ Submitted P b
  | .publish b seq epoch, w => ∃ cs, (w.writers i).currentState = some cs ∧ StartedOk P w i cs ∧
      Holds P w b seq ∧ (Owned P → epoch = cs.state.writerEpoch)
  | .index, w | .load _, w => Idle P i w

def positive : CloudImportCode → Bool
  | .committed | .alreadyCommitted | .durable => true
  | _ => false

def Post (i : ι) : Call → Reply → World ι → Prop
  | .fence _ epoch, .started r, w => r.code = .started → ∃ (k : Nat) (c : Creation ι), w.created[k]? = some c ∧
      (walOf P c).kind = .fence ∧ (walOf P c).writerEpoch = epoch ∧ c.author = (i, w.incarnation i)
  | .importBatch b, .imported r, w | .publish b _ _, .imported r, w => positive r.code = true → Acked P w i b r
  | .load n, .loaded (some snap), w => SnapshotOk P w n snap
  | .load _, .threw _, w => Readable P → ∃ c ∈ w.created, maxWalBytes < c.bytes.length
  | _, _, _ => True

/-- How a call may end: with a reply, or in the state the call it goes on as
expects. -/
def Ends (i : ι) (c : Call) (o : Session.Outcome Call Reply) (w : World ι) : Prop :=
  match o with
  | .done r => Idle P i w ∧ Post P i c r w
  | .tail d => Pre P i d w

def Throws (i : ι) (c : Call) (x : Exn) (w : World ι) : Prop := Idle P i w ∧ Post P i c (.threw x) w

variable {P} {w u : World ι} {i : ι}

theorem Carries.of_acquired (h : Inv P w) {a : Author ι} {e : U64} (ha : (a, e) ∈ w.acquired) :
    ∃ v st, w.entries (currentKey P.table) = some v ∧ CurrentOk P w v st ∧ e ≤ st.writerEpoch := by
  cases hv : w.entries (currentKey P.table) with
  | none =>
      rw [(h.absent hv).2] at ha
      cases ha
  | some v =>
      obtain ⟨st, hc⟩ := h.current v hv
      exact ⟨v, st, rfl, hc, hc.acquired _ ha⟩

theorem Carries.back (hw : Inv P w) (hg : Grow P w u) {a : Author ι} {e : U64} (ha : (a, e) ∈ w.acquired)
    (h : Carries P u e) : Carries P w e := by
  obtain ⟨v, st, hv, hc, hle⟩ := Carries.of_acquired hw ha
  obtain ⟨v', hv', hl⟩ := hg.current v hv
  obtain ⟨st', hd', hle'⟩ := hl.state st hc.decoded
  obtain ⟨v'', st'', hv'', hd'', rfl⟩ := h
  rw [hv'] at hv''
  cases hv''
  rw [hd'] at hd''
  cases hd''
  exact ⟨v, st, hv, hc.decoded, BitVec.le_antisymm hle'.writerEpoch hle⟩

theorem Carries.slot_le (hw : Inv P w) {e : U64} (h : Carries P w e) {c : Creation ι} (hc : c ∈ w.created) :
    (walOf P c).writerEpoch ≤ e := by
  obtain ⟨v, st, hv, hd, rfl⟩ := h
  obtain ⟨st', hst⟩ := hw.current v hv
  rw [hst.decoded] at hd
  cases hd
  exact hst.slots c hc

theorem author_unique (h : Inv P w) {a b : Author ι} {e : U64} (ha : (a, e) ∈ w.acquired)
    (hb : (b, e) ∈ w.acquired) : a = b := by
  have hnd : (w.acquired.map Prod.snd).Nodup :=
    List.Pairwise.imp (fun {x y} hlt => by rintro rfl; exact absurd hlt (BitVec.lt_irrefl x)) h.epochs
  exact congrArg Prod.fst (List.inj_on_of_nodup_map hnd ha hb rfl)

theorem author_acquired (h : Inv P w) {k : Nat} {c : Creation ι} (hk : w.created[k]? = some c) :
    ∃ e, (c.author, e) ∈ w.acquired := by
  induction k generalizing c with
  | zero =>
      cases hkind : (walOf P c).kind with
      | fence => exact ⟨_, h.fences c (List.mem_of_getElem? hk) hkind⟩
      | append =>
          obtain ⟨k, _, hk', _⟩ := h.blocks 0 c hk hkind
          exact absurd hk' (Nat.succ_ne_zero k).symm
  | succ k ih =>
      cases hkind : (walOf P c).kind with
      | fence => exact ⟨_, h.fences c (List.mem_of_getElem? hk) hkind⟩
      | append =>
          obtain ⟨k', d, hk', hd, ha⟩ := h.blocks (k + 1) c hk hkind
          cases hk'
          rw [← ha]
          exact ih hd

theorem Life.quiet {e : U64} {k : Nat} {c : Creation ι} (h : Life P w i e k c) (hw : Inv P w) (hu : Inv P u)
    (hq : Quiet P i w u) : Life P u i e k c := by
  have hacq : ((i, u.incarnation i), e) ∈ u.acquired := by
    rw [hq.life]
    exact hq.grow.mem_acquired h.acquired
  have hslot := hq.grow.slot h.slot
  refine ⟨hacq, hslot, by rw [hq.life]; exact h.author, h.epoch, ?_, h.room⟩
  intro hL hcar
  have hlen := h.last hL (hcar.back hw hq.grow h.acquired)
  have hge := hq.grow.length
  by_contra hne
  -- the WAL behind our last one is neither ours nor a fence of ours
  obtain ⟨d, hd⟩ : ∃ d, u.created[k + 1]? = some d := ⟨_, List.getElem?_eq_getElem (by omega)⟩
  have hother := hq.created _ d hd (by omega)
  cases hkind : (walOf P d).kind with
  | append =>
      obtain ⟨k', c', hk', hc', ha⟩ := hu.blocks _ d hd hkind
      cases hk'
      rw [hslot] at hc'
      cases hc'
      rw [← ha, h.author] at hother
      exact hother rfl
  | fence =>
      have hmem := hu.fences d (List.mem_of_getElem? hd) hkind
      have hle := hcar.slot_le hu (List.mem_of_getElem? hd)
      have hge := BitVec.le_trans h.epoch (hu.sorted _ _ c d (Nat.le_succ k) hslot hd)
      rw [BitVec.le_antisymm hle hge] at hmem
      rw [author_unique hu hmem hacq] at hother
      exact hother rfl

theorem StartedOk.quiet {cs : VersionedSequentialState} (h : StartedOk P w i cs) (hw : Inv P w) (hu : Inv P u)
    (hq : Quiet P i w u) : StartedOk P u i cs := by
  obtain ⟨e, k, c, hlife, hnext, hle, ho⟩ := h.life
  exact ⟨h.seen.grow hq.grow, e, k, c, hlife.quiet hw hu hq, by rw [hq.writer]; exact hnext, hle, ho⟩

theorem StartedOk.idle {cs : VersionedSequentialState} (h : StartedOk P w i cs)
    (hcs : (w.writers i).currentState = some cs) : Idle P i w := by
  intro cs' hcs'
  rw [hcs] at hcs'
  cases hcs'
  exact h

theorem StartedOk.held {cs vs : VersionedSequentialState} {x : Writer} (h : StartedOk P w i cs)
    (hx : x.currentState = some vs) (ho : Owned P → vs.state.writerEpoch = cs.state.writerEpoch) :
    Held P w i x := by
  obtain ⟨e, k, c, hlife, _, _, howned⟩ := h.life
  intro hO cs' hcs
  rw [hx] at hcs
  cases hcs
  rw [ho hO, howned hO]
  exact hlife.acquired

theorem Idle.quiet (h : Idle P i w) (hw : Inv P w) (hu : Inv P u) (hq : Quiet P i w u) : Idle P i u := by
  intro cs hcs
  rw [hq.writer] at hcs
  exact (h cs hcs).quiet hw hu hq

theorem Idle.of_none (h : (w.writers i).currentState = none) : Idle P i w := by
  intro cs hcs
  rw [h] at hcs
  cases hcs

theorem Pre.fence_quiet {seq epoch : U64} (h : Pre P i (.fence seq epoch) w) (hq : Quiet P i w u) :
    Pre P i (.fence seq epoch) u := by
  obtain ⟨hnone, hacq, hnew, hle⟩ := h
  refine ⟨by rw [hq.writer]; exact hnone, ?_, ?_, Nat.le_trans hle (Nat.succ_le_succ hq.grow.length)⟩
  · rw [hq.life]
    exact hq.grow.mem_acquired hacq
  · intro c hc heq
    rw [hq.life] at heq
    obtain ⟨k, hk⟩ := List.mem_iff_getElem?.mp hc
    by_cases hlt : k < w.created.length
    · exact hnew c (List.mem_of_getElem? (getElem?_of_extension hq.grow.created hk hlt)) heq
    · exact hq.created k c hk (by omega) (by rw [heq])

theorem Holds.grow {b : CloudImportBatch} {seq : U64} (h : Holds P w b seq) (hg : Grow P w u) :
    Holds P u b seq := by
  obtain ⟨k, c, b', hk, hrest⟩ := h
  exact ⟨k, c, b', hg.slot hk, hrest⟩

theorem Life.create {e : U64} {k : Nat} (path bytes : Bytes) (hacq : ((i, w.incarnation i), e) ∈ w.acquired)
    (hlen : w.created.length = k) (he : e ≤ (walOf P ⟨path, bytes, (i, w.incarnation i)⟩).writerEpoch)
    (hroom : Landing P → k + 2 < 2 ^ 64) :
    Life P (w.create i path bytes) i e k ⟨path, bytes, (i, w.incarnation i)⟩ := by
  refine ⟨hacq, ?_, rfl, he, fun _ _ => ?_, hroom⟩
  · simp only [World.create, ← hlen, List.getElem?_append_right (Nat.le_refl _), Nat.sub_self]
    rfl
  · simp only [World.create, List.length_append, hlen, List.length_singleton]

theorem Life.setWriter [DecidableEq ι] {e : U64} {k : Nat} {c : Creation ι} {x : Writer} (h : Life P w i e k c) :
    Life P (w.setWriter i x) i e k c := ⟨h.acquired, h.slot, h.author, h.epoch, h.last, h.room⟩

end DBPlayground.Contract
