import DBPlayground.Cloud.WalRoundTrip

namespace DBPlayground.WalLimits

open ByteReader Table Wire Records WalCodec WalRoundTrip

variable {H : Hashes} {schema : Schema} {chunk : Chunk}

theorem extends_rows (n : Nat) (cols : List Column) : Extends (getRows schema n cols) := by
  induction n generalizing cols with
  | zero => exact Extends.pure cols
  | succ n ih =>
      refine Extends.bind ?_ fun encoded => (Extends.fromExcept _).bind fun cols' => ih cols'
      exact (Extends.le short 4).bind fun k => Extends.raw short k

theorem payload_prefix {p : Bytes} (hf : isFullSchemaChunk chunk schema = true)
    (hp : payload schema chunk = .ok p) {k : Nat} {cols : List Column}
    (h : parse (getRows schema chunk.rowCount (schema.map (Column.new ·.type))) (p.take k) = .ok cols) :
    p.length ≤ k := by
  have hext := extends_rows _ _ _ _ _ (p.drop k) (parse_ok.mp h)
  have hall := reads_payload hf hp []
  rw [List.take_append_drop] at hext
  rw [List.append_nil, hext] at hall
  simp only [List.nil_append, Except.ok.injEq, Prod.mk.injEq, List.drop_eq_nil_iff] at hall
  exact hall.2

theorem reads_u32_mod (n : Nat) : Reads getU32 (u32 n) (n % 2 ^ 32) := by
  have h := Reads.le short (leBytes 4 n)
  rwa [length_leBytes, leNat_leBytes] at h

theorem payload_of_getChunk {e rest t : Bytes} {a : Bytes × Chunk} (he : chunkEntry schema chunk = .ok e)
    (h : getChunk H schema (e ++ rest) = .ok (a, t)) {p : Bytes} (hp : payload schema chunk = .ok p) :
    p.length < 2 ^ 32 := by
  obtain ⟨hf, hn, q, hq, rfl⟩ := chunkEntry_ok he
  rw [hp] at hq
  cases hq
  simp only [entry, List.append_assoc] at h
  obtain ⟨rows, t₁, h₁, h⟩ := run_bind_ok.mp h
  rw [reads_u32 hn] at h₁
  cases h₁
  obtain ⟨_, t₂, h₂, h⟩ := run_bind_ok.mp h
  obtain ⟨_, rfl⟩ := throwIf_run_ok.mp h₂
  obtain ⟨size, t₃, h₃, h⟩ := run_bind_ok.mp h
  rw [reads_u32_mod] at h₃
  cases h₃
  obtain ⟨part, t₄, h₄, h⟩ := run_bind_ok.mp h
  have hk : p.length % 2 ^ 32 ≤ p.length := Nat.mod_le _ _
  rw [getRaw, raw, if_pos (by rw [List.length_append]; omega), List.take_append_of_le_length hk] at h₄
  cases h₄
  obtain ⟨_, t₅, _, h⟩ := run_bind_ok.mp h
  obtain ⟨_, t₆, _, h⟩ := run_bind_ok.mp h
  obtain ⟨cols, t₇, h₇, _⟩ := run_bind_ok.mp h
  have hle := payload_prefix hf hp (fromExcept_run_ok.mp h₇).1
  have hlt : p.length % 2 ^ 32 < 2 ^ 32 := Nat.mod_lt _ (by decide)
  omega

theorem payload_of_chunks {chunks : List Chunk} {entries : List Bytes} {rest t : Bytes}
    {parts : List (Bytes × Chunk)}
    (he : List.Forall₂ (fun c e => chunkEntry schema c = .ok e) chunks entries)
    (h : times chunks.length (getChunk H schema) ((entries.flatMap fun e => e ++ u32 (crc H e)) ++ rest) =
      .ok (parts, t)) :
    ∀ c ∈ chunks, ∀ p, payload schema c = .ok p → p.length < 2 ^ 32 := by
  induction he generalizing parts t with
  | nil => simp
  | @cons c e chunks entries hc _ ih =>
      obtain ⟨a, u, ha, h⟩ := run_bind_ok.mp h
      have hfirst : ∀ p, payload schema c = .ok p → p.length < 2 ^ 32 := by
        rw [List.flatMap_cons, List.append_assoc, List.append_assoc] at ha
        exact fun p hp => payload_of_getChunk hc ha hp
      rw [List.flatMap_cons, List.append_assoc, reads_chunk hc hfirst] at ha
      cases ha
      obtain ⟨as, v, has, _⟩ := run_bind_ok.mp h
      intro d hd
      rcases List.mem_cons.mp hd with rfl | hd
      · exact hfirst
      · exact ih has d hd

theorem fits_of_decode {wal w : SequentialWal} {b : Bytes} (h : encodeSequentialWal H schema wal = .ok b)
    (hd : decodeSequentialWal H schema b = .ok w) : Fits schema wal := by
  obtain ⟨hw, header, ids, entries, hh, hi, he, rfl⟩ := encode_ok.mp h
  obtain ⟨_, _, hd⟩ := Except.bind_ok.mp hd
  obtain ⟨w', hparse, _⟩ := Except.bind_ok.mp hd
  obtain ⟨w₁, t₁, hcontents, _⟩ := run_bind_ok.mp (parse_ok.mp hparse)
  simp only [walBody, List.append_assoc] at hcontents
  obtain ⟨w₂, t₂, h₂, hcontents⟩ := run_bind_ok.mp hcontents
  rw [reads_walHeader hh] at h₂
  cases h₂
  obtain ⟨count, t₃, h₃, hcontents⟩ := run_bind_ok.mp hcontents
  rw [reads_u32 hw.count] at h₃
  cases h₃
  obtain ⟨_, t₄, h₄, hcontents⟩ := run_bind_ok.mp hcontents
  obtain ⟨hcount, rfl⟩ := throwIf_run_ok.mp h₄
  obtain ⟨_, t₅, h₅, hcontents⟩ := run_bind_ok.mp hcontents
  obtain ⟨_, rfl⟩ := fromExcept_run_ok.mp h₅
  obtain ⟨parts, t₆, h₆, _⟩ := run_bind_ok.mp hcontents
  exact ⟨by omega, payload_of_chunks he h₆⟩

theorem encode_reread {wal : SequentialWal} {b digest : Bytes} (h : encodeSequentialWal H schema wal = .ok b)
    (hf : Fits schema wal) : encodeSequentialWal H schema (reread schema digest wal) = .ok b := by
  obtain ⟨hw, header, ids, entries, hh, hi, he, rfl⟩ := encode_ok.mp h
  refine encode_ok.mpr ⟨hw.reread digest, header, ids, entries, hh, hi, ?_, ?_⟩
  · have hall : ∀ {chunks : List Chunk} {entries : List Bytes},
        List.Forall₂ (fun c e => chunkEntry schema c = .ok e) chunks entries →
        (∀ c ∈ chunks, ∀ p, payload schema c = .ok p → p.length < 2 ^ 32) →
        List.Forall₂ (fun c e => chunkEntry schema c = .ok e) (chunks.map (rebuild schema)) entries := by
      intro chunks entries hc hs
      induction hc with
      | nil => exact .nil
      | @cons c e chunks entries hc _ ih =>
          exact .cons (chunkEntry_rebuild hc (hs c List.mem_cons_self))
            (ih fun d hd => hs d (List.mem_cons_of_mem c hd))
    exact hall he hf.payload
  · simp only [walBody, reread, List.length_map, totalRows_rebuild]

end DBPlayground.WalLimits
