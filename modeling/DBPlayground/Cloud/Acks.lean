import DBPlayground.Cloud.LogOrder

namespace DBPlayground.Acks

open ByteReader Table Wire Records Keys WalCodec WalRoundTrip WalDigest Program RelyGuarantee Session Store
  StateStore TableWriter WalIndexer CloudSystem Log Invariant Rules Contract Correct LogOrder Progress TextTable

variable {ι : Type} {P : Params ι} {w u : World ι} {b : CloudImportBatch} {seq : U64}

/-- The call `Import(b)` of object `i` is about to return `r`. -/
def Returns (x : Config ι Op Ans (World ι) Call Reply) (i : ι) (b : CloudImportBatch)
    (r : CloudImportResult) : Prop :=
  Replies x i (.importBatch b) (.imported r) ∨ ∃ seq epoch, Replies x i (.publish b seq epoch) (.imported r)

theorem rows_rebuilt {schema : Schema} {cs : List Chunk} {es : List Bytes}
    (hc : List.Forall₂ (fun c e => chunkEntry schema c = .ok e) cs es)
    (hs : ∀ c ∈ cs, ∀ p, payload schema c = .ok p → p.length < 2 ^ 32) :
    (cs.map (rebuild schema)).map Chunk.rows = cs.map Chunk.rows := by
  rw [List.map_map]
  refine List.map_congr_left ?_
  intro c hmem
  obtain ⟨e, _, he⟩ := exists_of_forall₂ hc hmem
  exact rows_of_rebuild he (hs c hmem)

theorem contents_of_holds (hw : Inv P w) (hC : CollisionFree P) (h : Holds P w b seq) :
    ∃ wal, WalAt P w seq wal ∧ wal.kind = .append ∧ wal.batchIds = b.batchIds ∧
      wal.chunks.map Chunk.rows = b.chunks.map Chunk.rows := by
  obtain ⟨k, c, b', hk, hseq, _, he, hfits, hdig⟩ := h
  have hslot := hw.slots k c hk
  obtain ⟨hfits', _, _, _, _, hwal⟩ := decoded_eq he hslot.decoded
  obtain ⟨x, ⟨ids, es, hi, hc, rfl⟩, ids', es', hi', hc', heq⟩ := hdig hC
  obtain ⟨hids, hchunks⟩ := logical_injective hi hi' hc hc' hfits.payload hfits'.payload heq
  have hat := WalAt.of_slot hw hk
  rw [← hseq, BitVec.ofNat_toNat, BitVec.setWidth_eq] at hat
  refine ⟨walOf P c, hat, by rw [hwal]; rfl, by rw [hwal]; exact hids.symm, ?_⟩
  rw [hwal]
  show (b'.chunks.map (rebuild P.table.schema)).map Chunk.rows = b.chunks.map Chunk.rows
  rw [← hchunks, rows_rebuilt hc hfits.payload]

variable [DecidableEq ι] {x y : Config ι Op Ans (World ι) Call Reply} {i : ι} {r : CloudImportResult}

theorem Returns.acked (hx : Reachable P x) (hr : Returns x i b r) (hcode : positive r.code = true) :
    Idle P i x.store ∧ Acked P x.store i b r := by
  rcases hr with hr | ⟨seq, epoch, hr⟩
  · obtain ⟨hidle, hpost⟩ := (good_of_reachable hx).replies hr
    exact ⟨hidle, hpost hcode⟩
  · obtain ⟨hidle, hpost⟩ := (good_of_reachable hx).replies hr
    exact ⟨hidle, hpost hcode⟩

/-- A positive reply to `Import` is and stays true. -/
theorem acknowledged (hC : CollisionFree P) (hx : Reachable P x) (hr : Returns x i b r)
    (hcode : positive r.code = true) (hy : Steps (service P) x y) :
    (∃ wal, WalAt P y.store r.walSeq wal ∧ wal.kind = .append ∧ wal.batchIds = b.batchIds ∧
      wal.chunks.map Chunk.rows = b.chunks.map Chunk.rows) ∧
    (r.code ≠ .durable → ∃ st, CurrentState P y.store st ∧ r.walSeq ≤ st.publishedSeq) := by
  obtain ⟨_, hacked⟩ := hr.acked hx hcode
  have hg := grow_of_steps hx hy
  refine ⟨contents_of_holds (inv_of_reachable (hx.trans hy)) hC (hacked.holds.grow hg), ?_⟩
  intro hne
  obtain ⟨vs, hseen, hle⟩ := hacked.published hne
  obtain ⟨v, st, hv, hd, hst, _⟩ := (hseen.grow hg).later
  exact ⟨st, ⟨v, hv, hd⟩, BitVec.le_trans hle hst.publishedSeq⟩

theorem returns_publish {s : World ι} {th : ι → Thread Op Ans Call Reply} {epoch : U64} :
    Returns ⟨s, Function.update th i (.busy (.publish b seq epoch) (.ret (.done (.imported r))))⟩ i b r :=
  .inr ⟨seq, epoch, Solo.replies_done⟩

theorem text_acknowledged : ∃ x r, Reachable (benignParams (ascii "x")) x ∧ Returns x 0 (textBatch (ascii "x")) r ∧
    r.code = .committed ∧ ∃ wal, WalAt (benignParams (ascii "x")) x.store r.walSeq wal ∧ wal.batchIds = [ascii "b"] := by
  obtain ⟨s, fence, d, hx, _⟩ := exists_committed_text (ascii "x") (by decide) serves_benignParams
  obtain ⟨⟨wal, hat, _, hids, _⟩, _⟩ := acknowledged collisionFree_textParams hx returns_publish rfl .refl
  exact ⟨_, _, hx, returns_publish, rfl, wal, hat, hids⟩

end DBPlayground.Acks
