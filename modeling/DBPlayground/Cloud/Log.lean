import DBPlayground.Cloud.System
import DBPlayground.Cloud.WalDigest

namespace DBPlayground.Log

open ByteReader Table Wire Records Keys WalCodec WalRoundTrip WalLimits Store TableWriter WalIndexer CloudSystem

variable {ι : Type} (P : Params ι)

def walOf (c : Creation ι) : SequentialWal :=
  match decodeSequentialWal P.hashes P.table.schema c.bytes with
  | .ok w => w
  | .error _ => fenceWal P.table 0 0

def Submitted (b : CloudImportBatch) : Prop := ∃ i, P.accepts i (.importBatch b) = true

inductive Origin (seq epoch : U64) (bytes : Bytes) : Prop
  | fence (h : encodeSequentialWal P.hashes P.table.schema (fenceWal P.table seq epoch) = .ok bytes)
  | batch (b : CloudImportBatch) (hb : Submitted P b) (hv : isValidBatch P.table b = true)
      (h : encodeSequentialWal P.hashes P.table.schema (batchWal P.table b seq epoch) = .ok bytes)

/-- The `k`-th creation is a WAL at slot `k + 1`. -/
structure Slot (c : Creation ι) (k : Nat) : Prop where
  key : sequentialWalKey P.table (BitVec.ofNat 64 (k + 1)) = .ok c.path
  decoded : decodeSequentialWal P.hashes P.table.schema c.bytes = .ok (walOf P c)
  origin : Origin P (BitVec.ofNat 64 (k + 1)) (walOf P c).writerEpoch c.bytes

/-- The bytes whose digest `EncodeSequentialWal` stores for a batch. -/
def Digested (b : CloudImportBatch) (bytes : Bytes) : Prop :=
  ∃ ids entries, putStrings b.batchIds = .ok ids ∧
    List.Forall₂ (fun c e => chunkEntry P.table.schema c = .ok e) b.chunks entries ∧
    bytes = logical 1 ids entries

variable {P} {c : Creation ι} {k : Nat}

theorem decoded_eq {src w : SequentialWal} {b : Bytes}
    (h : encodeSequentialWal P.hashes P.table.schema src = .ok b)
    (hd : decodeSequentialWal P.hashes P.table.schema b = .ok w) :
    Fits P.table.schema src ∧ ∃ ids entries, putStrings src.batchIds = .ok ids ∧
      List.Forall₂ (fun c e => chunkEntry P.table.schema c = .ok e) src.chunks entries ∧
      w = reread P.table.schema (P.hashes.sha256 (logical src.schemaVersion ids entries)) src := by
  have hf := fits_of_decode h hd
  obtain ⟨ids, entries, hi, he, hw⟩ := decode_encode_wal h hf
  rw [hd] at hw
  cases hw
  exact ⟨hf, ids, entries, hi, he, rfl⟩

theorem walOf_eq {w : SequentialWal} (h : decodeSequentialWal P.hashes P.table.schema c.bytes = .ok w) :
    walOf P c = w := by
  rw [walOf, h]

namespace Slot

theorem path (h : Slot P c k) : c.path = walPath P.table (BitVec.ofNat 64 (k + 1)) :=
  (sequentialWalKey_ok h.key).2

theorem seq_ne_zero (h : Slot P c k) : BitVec.ofNat 64 (k + 1) ≠ 0 := (sequentialWalKey_ok h.key).1

theorem cases (h : Slot P c k) :
    (walOf P c = reread P.table.schema (walOf P c).payloadDigest
        (fenceWal P.table (BitVec.ofNat 64 (k + 1)) (walOf P c).writerEpoch)) ∨
    ∃ b, Submitted P b ∧ isValidBatch P.table b = true ∧
      encodeSequentialWal P.hashes P.table.schema
        (batchWal P.table b (BitVec.ofNat 64 (k + 1)) (walOf P c).writerEpoch) = .ok c.bytes ∧
      Fits P.table.schema (batchWal P.table b (BitVec.ofNat 64 (k + 1)) (walOf P c).writerEpoch) ∧
      (∃ x, Digested P b x ∧ (walOf P c).payloadDigest = P.hashes.sha256 x) ∧
      walOf P c = reread P.table.schema (walOf P c).payloadDigest
        (batchWal P.table b (BitVec.ofNat 64 (k + 1)) (walOf P c).writerEpoch) := by
  rcases h.origin with he | ⟨b, hb, hv, he⟩
  · obtain ⟨_, ids, entries, _, _, hw⟩ := decoded_eq he h.decoded
    exact .inl (by rw [hw]; rfl)
  · obtain ⟨hf, ids, entries, hi, hc, hw⟩ := decoded_eq he h.decoded
    exact .inr ⟨b, hb, hv, he, hf, ⟨_, ⟨ids, entries, hi, hc, rfl⟩, by rw [hw]; rfl⟩, by rw [hw]; rfl⟩

theorem seq (h : Slot P c k) : (walOf P c).seq = BitVec.ofNat 64 (k + 1) := by
  rcases h.cases with hw | ⟨b, _, _, _, _, _, hw⟩
  · rw [hw]; rfl
  · rw [hw]; rfl

theorem tableId (h : Slot P c k) : (walOf P c).tableId = P.table.tableId := by
  rcases h.cases with hw | ⟨b, _, _, _, _, _, hw⟩
  · rw [hw]; rfl
  · rw [hw]; rfl

theorem schemaVersion (h : Slot P c k) : (walOf P c).schemaVersion = 1 := by
  rcases h.cases with hw | ⟨b, _, _, _, _, _, hw⟩
  · rw [hw]; rfl
  · rw [hw]; rfl

theorem fence_contents (h : Slot P c k) (hk : (walOf P c).kind = .fence) :
    (walOf P c).batchIds = [] ∧ (walOf P c).chunks = [] := by
  rcases h.cases with hw | ⟨b, _, _, _, _, _, hw⟩
  · rw [hw]; exact ⟨rfl, rfl⟩
  · rw [hw] at hk; cases hk

theorem digest_length (h : Slot P c k) : (walOf P c).payloadDigest.length = 32 := by
  rcases h.origin with he | ⟨b, hb, hv, he⟩
  · obtain ⟨_, ids, entries, _, _, hw⟩ := decoded_eq he h.decoded
    rw [hw]; exact P.hashes.sha256_length _
  · obtain ⟨_, ids, entries, _, _, hw⟩ := decoded_eq he h.decoded
    rw [hw]; exact P.hashes.sha256_length _

theorem encode_walOf (h : Slot P c k) (hk : (walOf P c).kind = .append) :
    encodeSequentialWal P.hashes P.table.schema (walOf P c) = .ok c.bytes := by
  rcases h.cases with hw | ⟨b, _, _, he, hf, _, hw⟩
  · rw [hw] at hk; cases hk
  · rw [hw]; exact encode_reread he hf

theorem of_encode {src : SequentialWal} {path bytes : Bytes} (a : Author ι)
    (hkey : sequentialWalKey P.table (BitVec.ofNat 64 (k + 1)) = .ok path)
    (h : encodeSequentialWal P.hashes P.table.schema src = .ok bytes) (hf : Fits P.table.schema src)
    (ho : Origin P (BitVec.ofNat 64 (k + 1)) src.writerEpoch bytes) :
    Slot P ⟨path, bytes, a⟩ k ∧ ∃ digest, walOf P ⟨path, bytes, a⟩ = reread P.table.schema digest src := by
  obtain ⟨ids, entries, _, _, hd⟩ := decode_encode_wal h hf
  have hw : walOf P ⟨path, bytes, a⟩ = _ := walOf_eq hd
  refine ⟨⟨hkey, by rw [hw]; exact hd, ?_⟩, _, hw⟩
  rw [hw]
  exact ho

end Slot

theorem fits_fence (seq epoch : U64) : Fits P.table.schema (fenceWal P.table seq epoch) :=
  ⟨Nat.zero_le _, fun _ hc => nomatch hc⟩

def rowsOf (P : Params ι) (cs : List (Creation ι)) : List (List (Option Value)) :=
  cs.flatMap fun c => (walOf P c).chunks.flatMap Chunk.rows

end DBPlayground.Log
