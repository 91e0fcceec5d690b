import DBPlayground.Cloud.Acks
import DBPlayground.Cloud.WalSize

namespace DBPlayground.Readback

open ByteReader Table Wire Records Keys WalCodec WalSize Program RelyGuarantee Session Store StateStore
  TableWriter WalIndexer CloudSystem Log Invariant Rules Contract Correct LogOrder Acks Progress TextTable

variable {ι : Type} {P : Params ι} {w : World ι} {b : CloudImportBatch}

/-- The stores' answers to the requests of a reader that nothing disturbs. -/
def reads (w : World ι) : (o : Op) → Ans o
  | .metaGet key => .ok (w.entries key)
  | .openInput path => .ok (w.files path)
  | _ => .error (.runtimeError "not a read")

def loaded (P : Params ι) (w : World ι) (seq : U64) : Except Exn (Option SequentialWal) :=
  evalMethod (reads w) (loadSequentialWal P.table P.hashes seq)

def batchSize (t : TableDescriptor) (b : CloudImportBatch) : Nat :=
  walSize t.schema t.tableId (b.batchIds.headD []) b.batchIds (b.chunks.map Chunk.rows)

theorem length_of_slot {c : Creation ι} {k : Nat} (h : Slot P c k) (hk : (walOf P c).kind = .append) :
    c.bytes.length = walSize P.table.schema P.table.tableId ((walOf P c).batchIds.headD []) (walOf P c).batchIds
      ((walOf P c).chunks.map Chunk.rows) := by
  have hop : (walOf P c).operationId = (walOf P c).batchIds.headD [] := by
    rcases h.cases with hw | ⟨b, _, _, _, _, _, hw⟩
    · rw [hw] at hk; cases hk
    · rw [hw]; rfl
  rw [← h.tableId, ← hop]
  exact length_encode (h.encode_walOf hk)

theorem loaded_iff (hw : Inv P w) {k : Nat} {c : Creation ι} {seq : U64} (hc : w.created[k]? = some c)
    (hseq : seq.toNat = k + 1) : (∃ wal, loaded P w seq = .ok (some wal)) ↔ c.bytes.length ≤ maxWalBytes := by
  have hslot := hw.slots k c hc
  have hofNat : BitVec.ofNat 64 (k + 1) = seq := by rw [← hseq, BitVec.ofNat_toNat, BitVec.setWidth_eq]
  have hkey := hslot.key
  have hid := hslot.seq
  rw [hofNat] at hkey hid
  have hfile := hw.files c (List.mem_of_getElem? hc)
  have hload : loaded P w seq = if c.bytes.length > maxWalBytes then
      .error (.runtimeError "sequential: WAL too large") else .ok (some (walOf P c)) := by
    rw [loaded, loadSequentialWal, hkey, evalMethod_bind]
    show evalMethod (reads w) (openInput c.path >>= _) = _
    rw [evalMethod_bind]
    show Except.bind (.ok (w.files c.path)) _ = _
    rw [hfile]
    show evalMethod (reads w) (throwIf _ _ >>= _) = _
    rw [throwIf, hslot.decoded]
    split
    · rfl
    · show evalMethod (reads w) (throwIf _ _ >>= _) = _
      rw [throwIf, if_neg]
      · rfl
      · rw [hid, hslot.tableId, hslot.schemaVersion]
        simp
  rw [hload]
  split
  · refine iff_of_false ?_ (by omega)
    rintro ⟨_, ⟨⟩⟩
  · exact iff_of_true ⟨_, rfl⟩ (by omega)

variable [DecidableEq ι] {x y : Config ι Op Ans (World ι) Call Reply} {i : ι} {r : CloudImportResult}

/-- An acknowledged slot can be loaded exactly when the WAL of the batch is
within the size that readers accept. -/
theorem readable_iff_batchSize (hC : CollisionFree P) (hx : Reachable P x) (hr : Returns x i b r)
    (hcode : r.code = .committed ∨ r.code = .durable) (hy : Steps (service P) x y) :
    (∃ wal, loaded P y.store r.walSeq = .ok (some wal)) ↔ batchSize P.table b ≤ maxWalBytes := by
  have hpos : positive r.code = true := by rcases hcode with h | h <;> rw [h] <;> rfl
  have hinv := inv_of_reachable (hx.trans hy)
  obtain ⟨_, hacked⟩ := hr.acked hx hpos
  obtain ⟨wal, hat, hkind, hids, hrows⟩ := contents_of_holds hinv hC (hacked.holds.grow (grow_of_steps hx hy))
  obtain ⟨k, c, hc, hseq, rfl⟩ := hat.slot hinv
  rw [loaded_iff hinv hc hseq, length_of_slot (hinv.slots k c hc) hkind, hids, hrows, batchSize]

theorem text_readable : ∃ x r, Reachable (benignParams (ascii "x")) x ∧ Returns x 0 (textBatch (ascii "x")) r ∧
    r.code = .committed ∧ ∃ wal, loaded (benignParams (ascii "x")) x.store r.walSeq = .ok (some wal) := by
  obtain ⟨s, fence, d, hx, _⟩ := exists_committed_text (ascii "x") (by decide) serves_benignParams
  exact ⟨_, _, hx, returns_publish, rfl,
    (readable_iff_batchSize collisionFree_textParams hx returns_publish (.inl rfl) .refl).mpr (by decide)⟩

/-- A text of 256 MiB is committed, and nobody can load its slot. -/
theorem text_unreadable : ∃ text x r, Reachable (benignParams text) x ∧ Returns x 0 (textBatch text) r ∧
    r.code = .committed ∧ ¬ ∃ wal, loaded (benignParams text) x.store r.walSeq = .ok (some wal) := by
  obtain ⟨text, hlen⟩ : ∃ text : Bytes, text.length = 268435456 := ⟨List.replicate _ 0, List.length_replicate⟩
  obtain ⟨s, fence, d, hx, hcom⟩ := exists_committed_text text (by omega) serves_benignParams
  have hc : s.created[1]? = some d := by rw [hcom.log]; rfl
  refine ⟨text, _, _, hx, returns_publish, rfl, fun h => ?_⟩
  have hle := (loaded_iff (inv_of_reachable hx) hc rfl).mp h
  exact absurd hle (Nat.not_le.mpr (oversize_textBatch hlen hcom.holds))

end DBPlayground.Readback
