import DBPlayground.Cloud.WalCodec

namespace DBPlayground.WalRoundTrip

open ByteReader Table Wire Records WalCodec

variable (H : Hashes) (schema : Schema)

def cells (col : Column) (n : Nat) : List Value := (List.range n).filterMap col.cell?

def rebuiltColumns (cols : List Column) (n : Nat) : List Column :=
  cols.map fun col => Column.ofValues col.type (cells col n)

def rebuild (chunk : Chunk) : Chunk :=
  ⟨columnIds schema, rebuiltColumns chunk.columns chunk.rowCount, chunk.rowCount⟩

variable {H schema} {chunk : Chunk}

theorem cell_ok {col : Column} {r : Nat} {v : Value} : cell col r = .ok v ↔ col.cell? r = some v := by
  unfold cell
  cases col.cell? r with
  | none => exact iff_of_false (fun h => nomatch h) (fun h => nomatch h)
  | some w => simp

theorem hasType_of_cell {col : Column} {r : Nat} {v : Value} (h : col.cell? r = some v) :
    v.hasType col.type = true := by
  unfold Column.cell? at h
  split at h <;> cases h <;> (rename_i ht; rw [ht]; rfl)

theorem cells_succ {col : Column} {r : Nat} {v : Value} (h : col.cell? r = some v) :
    cells col (r + 1) = cells col r ++ [v] := by
  simp [cells, List.range_succ, List.filterMap_append, h]

theorem typed_cells {schema : Schema} {cols : List Column} {r : Nat} {vs : List Value}
    (ht : cols.map (·.type) = schema.map (·.type))
    (h : List.Forall₂ (fun col v => cell col r = .ok v) cols vs) : RowCodec.Typed schema vs := by
  induction h generalizing schema with
  | nil =>
      rw [List.map_nil, eq_comm, List.map_eq_nil_iff] at ht
      subst ht
      exact .nil
  | @cons col v cols vs hv _ ih =>
      cases schema with
      | nil => cases ht
      | cons f fs =>
          simp only [List.map_cons, List.cons.injEq] at ht
          exact .cons (ht.1 ▸ hasType_of_cell (cell_ok.mp hv)) (ih ht.2)

theorem zipWith_appendValue {cols : List Column} {r : Nat} {vs : List Value}
    (h : List.Forall₂ (fun col v => cell col r = .ok v) cols vs) :
    List.zipWith Column.appendValue (rebuiltColumns cols r) vs = rebuiltColumns cols (r + 1) := by
  unfold rebuiltColumns
  induction h with
  | nil => rfl
  | cons hv _ ih =>
      simp only [List.map_cons, List.zipWith_cons_cons, ih, cells_succ (cell_ok.mp hv),
        Column.ofValues_append_singleton]

theorem putRow_ok {r : Nat} {b : Bytes} (h : putRow schema chunk r = .ok b) : ∃ vs e,
    List.Forall₂ (fun col v => cell col r = .ok v) chunk.columns vs ∧
      RowCodec.encode schema vs = .ok e ∧ e.length < 2 ^ 32 ∧ b = u32 e.length ++ e := by
  obtain ⟨vs, hv, h⟩ := Except.bind_ok.mp h
  obtain ⟨e, he, h⟩ := Except.bind_ok.mp h
  obtain ⟨hlen, rfl⟩ := putString_ok.mp h
  exact ⟨vs, e, mapM_ok.mp hv, he, hlen, rfl⟩

theorem reads_rows (ht : chunk.columns.map (·.type) = schema.map (·.type)) {n r : Nat} {b : Bytes}
    (h : putAll (putRow schema chunk) (List.range' r n) = .ok b) :
    Reads (getRows schema n (rebuiltColumns chunk.columns r)) b (rebuiltColumns chunk.columns (r + n)) := by
  induction n generalizing r b with
  | zero =>
      cases h
      exact Reads.pure _
  | succ n ih =>
      rw [List.range'_succ] at h
      obtain ⟨c, hc, h⟩ := Except.bind_ok.mp h
      obtain ⟨cs, hcs, h⟩ := Except.bind_ok.mp h
      cases h
      obtain ⟨vs, e, hv, he, hlen, rfl⟩ := putRow_ok hc
      have hl : (rebuiltColumns chunk.columns r).length = schema.length := by
        simpa [rebuiltColumns] using congrArg List.length ht
      have hrow := RowCodec.decodeInto_encode (typed_cells ht hv) he hlen hl
      rw [zipWith_appendValue hv] at hrow
      have hrest := ih hcs
      rw [Nat.add_assoc, Nat.add_comm 1 n] at hrest
      exact (reads_string hlen).bind ((Reads.fromExcept hrow).bind hrest)

theorem chunkEntry_ok {e : Bytes} (h : chunkEntry schema chunk = .ok e) :
    isFullSchemaChunk chunk schema = true ∧ chunk.rowCount < 2 ^ 32 ∧
      ∃ p, payload schema chunk = .ok p ∧ e = entry chunk.rowCount p.length p := by
  obtain ⟨_, hv, h⟩ := Except.bind_ok.mp h
  obtain ⟨p, hp, h⟩ := Except.bind_ok.mp h
  cases h
  have hv := throwIf_ok.mp hv
  unfold uint32Max at hv
  simp only [not_or, Bool.not_eq_false, Nat.not_lt] at hv
  exact ⟨hv.1, by omega, p, hp, rfl⟩

theorem rowCount_pos (h : isFullSchemaChunk chunk schema = true) : chunk.rowCount ≠ 0 := by
  simp only [isFullSchemaChunk, Bool.and_eq_true, bne_iff_ne] at h
  exact h.1.1.1

theorem reads_payload (hf : isFullSchemaChunk chunk schema = true) {p : Bytes}
    (hp : payload schema chunk = .ok p) :
    Reads (getRows schema chunk.rowCount (schema.map (Column.new ·.type))) p
      (rebuild schema chunk).columns := by
  have ht := isFullSchemaChunk_types hf
  have hstart : schema.map (Column.new ·.type) = rebuiltColumns chunk.columns 0 := by
    have h := congrArg (List.map Column.new) ht
    rw [List.map_map, List.map_map] at h
    exact h.symm
  rw [payload, List.range_eq_range'] at hp
  rw [hstart]
  simpa [rebuild] using reads_rows ht hp

theorem reads_entry_of_rows {n : Nat} {p : Bytes} {cols : List Column} (hn0 : n ≠ 0) (hn : n < 2 ^ 32)
    (hp : p.length < 2 ^ 32) (hrows : parse (getRows schema n (schema.map (Column.new ·.type))) p = .ok cols) :
    Reads (getChunk H schema) (entry n p.length p ++ u32 (crc H (entry n p.length p)))
      (entry n p.length p, ⟨columnIds schema, cols, n⟩) := by
  rw [entry, List.append_assoc, List.append_assoc]
  refine (reads_u32 hn).bind (Reads.unless hn0 ((reads_u32 hp).bind ((reads_raw rfl).bind ?_)))
  have hcrc : Reads getU32 (u32 (crc H (entry n p.length p))) (crc H (entry n p.length p)) :=
    reads_u32 (BitVec.isLt _)
  refine hcrc.finish (Reads.unless (fun hne => hne rfl) ?_)
  exact (Reads.fromExcept hrows).map fun cols => (entry n p.length p, (⟨columnIds schema, cols, n⟩ : Chunk))

theorem reads_chunk {e : Bytes} (h : chunkEntry schema chunk = .ok e)
    (hs : ∀ p, payload schema chunk = .ok p → p.length < 2 ^ 32) :
    Reads (getChunk H schema) (e ++ u32 (crc H e)) (e, rebuild schema chunk) := by
  obtain ⟨hf, hn, p, hp, rfl⟩ := chunkEntry_ok h
  exact reads_entry_of_rows (rowCount_pos hf) hn (hs p hp) (parse_of_reads (reads_payload hf hp))

theorem cell_of_row {r : Nat} {b : Bytes} (ht : chunk.columns.map (·.type) = schema.map (·.type))
    (h : putRow schema chunk r = .ok b) {col : Column} (hc : col ∈ chunk.columns) :
    ∃ v, col.cell? r = some v ∧ v.asString.length ≤ b.length := by
  obtain ⟨vs, e, hv, he, _, rfl⟩ := putRow_ok h
  obtain ⟨_, _, he⟩ := Except.bind_ok.mp he
  obtain ⟨v, hvs, hcell⟩ := exists_of_forall₂ hv hc
  have hle := RowCodec.length_asString_le_row (typed_cells ht hv) he hvs
  rw [List.length_append]
  exact ⟨v, cell_ok.mp hcell, Nat.le_add_left_of_le hle⟩

theorem cells_of_payload (ht : chunk.columns.map (·.type) = schema.map (·.type)) {n : Nat} {p : Bytes}
    (hp : putAll (putRow schema chunk) (List.range n) = .ok p) {col : Column} (hc : col ∈ chunk.columns) :
    (cells col n).map some = (List.range n).map col.cell? ∧
      ((cells col n).flatMap Value.asString).length ≤ p.length := by
  induction n generalizing p with
  | zero => exact ⟨rfl, Nat.zero_le _⟩
  | succ n ih =>
      rw [List.range_succ] at hp
      obtain ⟨b, d, hb, hd, rfl⟩ := putAll_append hp
      obtain ⟨e, he, hd⟩ := Except.bind_ok.mp hd
      cases hd
      obtain ⟨v, hv, hle⟩ := cell_of_row ht he hc
      obtain ⟨hmap, hlen⟩ := ih hb
      rw [cells_succ hv, List.range_succ, List.map_append, List.map_append, hmap]
      refine ⟨by rw [List.map_singleton, List.map_singleton, hv], ?_⟩
      rw [List.flatMap_append, List.flatMap_singleton, List.append_nil]
      simp only [List.length_append]
      omega

theorem length_cells {col : Column} {n : Nat} (h : (cells col n).map some = (List.range n).map col.cell?) :
    (cells col n).length = n := by
  simpa using congrArg List.length h

theorem cell_rebuilt {col : Column} {n r : Nat} (h : (cells col n).map some = (List.range n).map col.cell?)
    (hlen : ((cells col n).flatMap Value.asString).length < 2 ^ 32) (hr : r < n) :
    (Column.ofValues col.type (cells col n)).cell? r = col.cell? r := by
  have hl := length_cells h
  have htyped : ∀ v ∈ cells col n, v.hasType col.type = true := by
    intro v hv
    obtain ⟨i, _, hi⟩ := List.mem_filterMap.mp hv
    exact hasType_of_cell hi
  have hget : some (cells col n)[r] = col.cell? r := by
    have hget := congrArg (fun l => l[r]?) h
    simpa [hr, hl] using hget
  rw [Column.cell_ofValues htyped hlen (by omega), Column.viaDouble_of_cell hget.symm]
  exact hget

theorem row_rebuild (hf : isFullSchemaChunk chunk schema = true) {p : Bytes}
    (hp : payload schema chunk = .ok p) (hlen : p.length < 2 ^ 32) {r : Nat} (hr : r < chunk.rowCount) :
    (rebuild schema chunk).row r = chunk.row r := by
  simp only [Chunk.row, rebuild, rebuiltColumns, List.map_map]
  refine List.map_congr_left ?_
  intro col hc
  obtain ⟨hmap, hle⟩ := cells_of_payload (isFullSchemaChunk_types hf) hp hc
  exact cell_rebuilt hmap (by omega) hr

theorem rows_rebuild (hf : isFullSchemaChunk chunk schema = true) {p : Bytes}
    (hp : payload schema chunk = .ok p) (hlen : p.length < 2 ^ 32) :
    (rebuild schema chunk).rows = chunk.rows := by
  refine List.map_congr_left ?_
  intro r hr
  exact row_rebuild hf hp hlen (List.mem_range.mp hr)

theorem putRow_rebuild (hf : isFullSchemaChunk chunk schema = true) {p : Bytes}
    (hp : payload schema chunk = .ok p) (hlen : p.length < 2 ^ 32) {r : Nat} (hr : r < chunk.rowCount) :
    putRow schema (rebuild schema chunk) r = putRow schema chunk r := by
  have hcells : ∀ c : Chunk, c.columns.mapM (cell · r) = (c.row r).mapM
      (Option.elim · (.error (.invalidArgument "sequential: invalid cell type")) .ok) := by
    intro c
    rw [Chunk.row, List.mapM_map]
    rfl
  rw [putRow, putRow, hcells, hcells, row_rebuild hf hp hlen hr]

theorem isFullSchemaChunk_rebuild (hf : isFullSchemaChunk chunk schema = true) {p : Bytes}
    (hp : payload schema chunk = .ok p) : isFullSchemaChunk (rebuild schema chunk) schema = true := by
  have ht := isFullSchemaChunk_types hf
  have hl : chunk.columns.length = schema.length := by simpa using congrArg List.length ht
  have hn := rowCount_pos hf
  simp only [isFullSchemaChunk, rebuild, rebuiltColumns, columnIds, List.length_map, List.length_range, hl,
    Bool.and_eq_true, bne_iff_ne, beq_self_eq_true, List.all_eq_true, List.mem_range, beq_iff_eq]
  refine ⟨⟨⟨hn, trivial⟩, trivial⟩, ?_⟩
  intro i hi
  have hcol : i < chunk.columns.length := by omega
  have hsize := length_cells (cells_of_payload ht hp (List.getElem_mem hcol)).1
  have htype := congrArg (fun l => l[i]?) ht
  simp only [List.getElem?_map] at htype ⊢
  rw [← htype, List.getElem?_eq_getElem hcol, List.getElem?_range hi]
  simp [Column.type_ofValues, Column.size_ofValues, hsize]

theorem chunkEntry_rebuild {e : Bytes} (h : chunkEntry schema chunk = .ok e)
    (hs : ∀ p, payload schema chunk = .ok p → p.length < 2 ^ 32) :
    chunkEntry schema (rebuild schema chunk) = .ok e := by
  obtain ⟨hf, hn, p, hp, rfl⟩ := chunkEntry_ok h
  have hpay : payload schema (rebuild schema chunk) = .ok p := by
    rw [← hp]
    exact putAll_congr fun r hr => putRow_rebuild hf hp (hs p hp) (List.mem_range.mp hr)
  have hvalid : ¬ (isFullSchemaChunk (rebuild schema chunk) schema = false ∨
      (rebuild schema chunk).rowCount > uint32Max) := by
    rw [isFullSchemaChunk_rebuild hf hp]
    simp only [rebuild, uint32Max, Bool.true_eq_false, false_or]
    omega
  exact Except.bind_ok.mpr ⟨(), throwIf_ok.mpr hvalid, Except.bind_ok.mpr ⟨p, hpay, rfl⟩⟩

structure WellFormed (wal : SequentialWal) : Prop where
  header : ¬ (wal.tableId = [] ∨ wal.seq = 0 ∨ wal.writerEpoch = 0 ∨ wal.operationId = [])
  append : ¬ (wal.kind = .append ∧ (wal.batchIds = [] ∨ wal.chunks = []))
  fence : ¬ (wal.kind = .fence ∧ (wal.batchIds ≠ [] ∨ wal.chunks ≠ []))
  version : wal.schemaVersion = 1
  count : wal.chunks.length < 2 ^ 32

theorem encode_ok {wal : SequentialWal} {b : Bytes} : encodeSequentialWal H schema wal = .ok b ↔
    WellFormed wal ∧ ∃ header ids entries, putWalHeader wal = .ok header ∧
      putStrings wal.batchIds = .ok ids ∧ List.Forall₂ (fun c e => chunkEntry schema c = .ok e) wal.chunks entries ∧
      b = walBody H header ids wal entries ++ (u32 (crc H (walBody H header ids wal entries)) ++ ascii "DBW2") := by
  rw [encodeSequentialWal, Except.bind_ok]
  simp only [Except.bind_ok, throwIf_ok, mapM_ok]
  constructor
  · rintro ⟨_, h₁, _, h₂, _, h₃, _, h₄, header, hh, ids, hi, entries, he, hb⟩
    cases hb
    simp only [uint32Max, not_or, not_not, Nat.not_lt] at h₄
    exact ⟨⟨h₁, h₂, h₃, h₄.1, by omega⟩, header, ids, entries, hh, hi, he, rfl⟩
  · rintro ⟨hw, header, ids, entries, hh, hi, he, rfl⟩
    have hc := hw.count
    refine ⟨(), hw.header, (), hw.append, (), hw.fence, (), ?_, header, hh, ids, hi, entries, he, rfl⟩
    simp only [uint32Max, not_or, not_not, Nat.not_lt]
    exact ⟨hw.version, by omega⟩

/-- The limits of the reader that the writer does not check. -/
structure Fits (schema : Schema) (wal : SequentialWal) : Prop where
  count : wal.chunks.length ≤ 1000000
  payload : ∀ c ∈ wal.chunks, ∀ p, payload schema c = .ok p → p.length < 2 ^ 32

def reread (schema : Schema) (digest : Bytes) (wal : SequentialWal) : SequentialWal :=
  { wal with chunks := wal.chunks.map (rebuild schema), payloadDigest := digest }

theorem reads_walHeader {wal : SequentialWal} {b : Bytes} (h : putWalHeader wal = .ok b) :
    Reads getWalHeader b { wal with chunks := [], payloadDigest := [] } := by
  obtain ⟨tableId, ht, h⟩ := Except.bind_ok.mp h
  obtain ⟨operationId, ho, h⟩ := Except.bind_ok.mp h
  obtain ⟨ids, hi, h⟩ := Except.bind_ok.mp h
  cases h
  have hkind : Reads getKind [wal.kind.code] wal.kind := by
    intro rest
    cases wal.kind <;> rfl
  refine (reads_header (by decide)).bind (hkind.bind ((reads_putString ht).bind ?_))
  refine (reads_u64 _).bind ((reads_u64 _).bind ((reads_u64 _).bind ?_))
  exact (reads_putString ho).bind ((reads_putStrings hi).map _)

theorem reads_chunks {chunks : List Chunk} {entries : List Bytes}
    (h : List.Forall₂ (fun c e => chunkEntry schema c = .ok e) chunks entries)
    (hs : ∀ c ∈ chunks, ∀ p, payload schema c = .ok p → p.length < 2 ^ 32) :
    Reads (times chunks.length (getChunk H schema)) (entries.flatMap fun e => e ++ u32 (crc H e))
      (entries.zip (chunks.map (rebuild schema))) := by
  induction h with
  | nil => exact Reads.pure []
  | @cons c e chunks entries hc _ ih =>
      have hrest := ih (fun d hd => hs d (List.mem_cons_of_mem c hd))
      exact (reads_chunk hc (hs c List.mem_cons_self)).bind (hrest.map fun ps => (e, rebuild schema c) :: ps)

theorem totalRows_rebuild (chunks : List Chunk) :
    totalRows (chunks.map (rebuild schema)) = totalRows chunks := by
  rw [totalRows, totalRows, List.map_map]
  rfl

theorem reads_parts {wal : SequentialWal} {header ids : Bytes} {parts : List (Bytes × Chunk)}
    (hh : putWalHeader wal = .ok header) (hi : putStrings wal.batchIds = .ok ids)
    (hparts : Reads (times parts.length (getChunk H schema))
      ((parts.map (·.1)).flatMap fun e => e ++ u32 (crc H e)) parts)
    (hcount : parts.length ≤ 1000000) (hlen : wal.chunks.length = parts.length)
    (htotal : totalRows wal.chunks = totalRows (parts.map (·.2))) :
    Reads (getWalContents H schema) (walBody H header ids wal (parts.map (·.1)))
      { wal with
        chunks := parts.map (·.2)
        payloadDigest := H.sha256 (logical wal.schemaVersion ids (parts.map (·.1))) } := by
  rw [walBody, hlen]
  refine (reads_walHeader hh).bind ((reads_u32 (by omega)).bind (Reads.unless (by omega) ?_))
  refine (Reads.fromExcept hi).bind (hparts.bind ?_)
  refine (reads_u64 _).bind (Reads.unless (fun h => h htotal) ?_)
  exact (reads_raw (H.sha256_length _)).finish (Reads.unless (fun h => h rfl) (Reads.pure _))

theorem reads_contents {wal : SequentialWal} {header ids : Bytes} {entries : List Bytes}
    (hh : putWalHeader wal = .ok header) (hi : putStrings wal.batchIds = .ok ids)
    (he : List.Forall₂ (fun c e => chunkEntry schema c = .ok e) wal.chunks entries) (hf : Fits schema wal) :
    Reads (getWalContents H schema) (walBody H header ids wal entries)
      (reread schema (H.sha256 (logical wal.schemaVersion ids entries)) wal) := by
  have hlen : entries.length = (wal.chunks.map (rebuild schema)).length := by
    rw [List.length_map, he.length_eq]
  have hfst := List.map_fst_zip (Nat.le_of_eq hlen)
  have hsnd := List.map_snd_zip (Nat.le_of_eq hlen.symm)
  have hzip : (entries.zip (wal.chunks.map (rebuild schema))).length = wal.chunks.length := by
    rw [List.length_zip, hlen, List.length_map, Nat.min_self]
  have hchunks : Reads (times (entries.zip (wal.chunks.map (rebuild schema))).length (getChunk H schema))
      (((entries.zip (wal.chunks.map (rebuild schema))).map (·.1)).flatMap fun e => e ++ u32 (crc H e))
      (entries.zip (wal.chunks.map (rebuild schema))) := by
    rw [hzip, hfst]
    exact reads_chunks he hf.payload
  have hread := reads_parts hh hi hchunks (by rw [hzip]; exact hf.count) hzip.symm
    (by rw [hsnd, totalRows_rebuild])
  rwa [hfst, hsnd] at hread

theorem footer_run (body : Bytes) :
    getFooter H (body ++ (u32 (crc H body) ++ ascii "DBW2")) (u32 (crc H body) ++ ascii "DBW2") =
      .ok ((), []) := by
  have hlen : (u32 (crc H body) ++ ascii "DBW2").length = 8 := by
    rw [List.length_append, u32, length_leBytes]
    rfl
  have htake : (body ++ (u32 (crc H body) ++ ascii "DBW2")).take
      ((body ++ (u32 (crc H body) ++ ascii "DBW2")).length - 8) = body := by
    rw [List.length_append, hlen, Nat.add_sub_cancel, List.take_left' rfl]
  refine run_bind_ok.mpr ⟨8, _, by rw [remaining, hlen], ?_⟩
  refine run_bind_ok.mpr ⟨(), _, throwIf_run_ok.mpr ⟨fun h => h rfl, rfl⟩, ?_⟩
  have hcrc : Reads getU32 (u32 (crc H body)) (crc H body) := reads_u32 (BitVec.isLt _)
  refine run_bind_ok.mpr ⟨crc H body, ascii "DBW2", hcrc _, ?_⟩
  refine run_bind_ok.mpr ⟨(), _, throwIf_run_ok.mpr ⟨by rw [htake]; exact fun h => h rfl, rfl⟩, ?_⟩
  exact reads_magic (by decide) []

theorem decode_of_contents {body : Bytes} {wal : SequentialWal} (h : Reads (getWalContents H schema) body wal)
    (hw : WellFormed wal) :
    decodeSequentialWal H schema (body ++ (u32 (crc H body) ++ ascii "DBW2")) = .ok wal := by
  have hlen : (u32 (crc H body) ++ ascii "DBW2").length = 8 := by
    rw [List.length_append, u32, length_leBytes]
    rfl
  refine Except.bind_ok.mpr ⟨(), throwIf_ok.mpr (by rw [List.length_append, hlen]; omega), ?_⟩
  refine Except.bind_ok.mpr ⟨wal, parse_ok.mpr ?_, ?_⟩
  · exact run_bind_ok.mpr ⟨_, _, h _, run_bind_ok.mpr ⟨(), [], footer_run _, rfl⟩⟩
  · refine Except.bind_ok.mpr ⟨(), throwIf_ok.mpr ?_, rfl⟩
    have h₁ := hw.header
    have h₂ := hw.append
    have h₃ := hw.fence
    tauto

theorem WellFormed.reread {wal : SequentialWal} (hw : WellFormed wal) (digest : Bytes) :
    WellFormed (reread schema digest wal) := by
  refine ⟨hw.header, ?_, ?_, hw.version, ?_⟩
  · simpa only [WalRoundTrip.reread, List.map_eq_nil_iff] using hw.append
  · simpa only [WalRoundTrip.reread, ne_eq, List.map_eq_nil_iff] using hw.fence
  · simpa only [WalRoundTrip.reread, List.length_map] using hw.count

/-- Whatever the writer accepts within the reader's limits reads back with the
same header, and with chunks that show the same cells. -/
theorem decode_encode_wal {wal : SequentialWal} {b : Bytes} (h : encodeSequentialWal H schema wal = .ok b)
    (hf : Fits schema wal) : ∃ ids entries, putStrings wal.batchIds = .ok ids ∧
      List.Forall₂ (fun c e => chunkEntry schema c = .ok e) wal.chunks entries ∧
      decodeSequentialWal H schema b =
        .ok (reread schema (H.sha256 (logical wal.schemaVersion ids entries)) wal) := by
  obtain ⟨hw, header, ids, entries, hh, hi, he, rfl⟩ := encode_ok.mp h
  exact ⟨ids, entries, hi, he, decode_of_contents (reads_contents hh hi he hf) (hw.reread _)⟩

/-- Two chunks that no reader of rows, column ids and types can tell apart. -/
structure SameContents (c d : Chunk) : Prop where
  rowCount : d.rowCount = c.rowCount
  columnIds : d.columnIds = c.columnIds
  types : d.columns.map (·.type) = c.columns.map (·.type)
  cells : ∀ r < c.rowCount, d.row r = c.row r

theorem sameContents_rebuild {e : Bytes} (h : chunkEntry schema chunk = .ok e)
    (hs : ∀ p, payload schema chunk = .ok p → p.length < 2 ^ 32) : SameContents chunk (rebuild schema chunk) := by
  obtain ⟨hf, _, p, hp, _⟩ := chunkEntry_ok h
  refine ⟨rfl, (isFullSchemaChunk_ids hf).symm, ?_, fun r hr => row_rebuild hf hp (hs p hp) hr⟩
  simp only [rebuild, rebuiltColumns, List.map_map]
  exact List.map_congr_left fun col _ => Column.type_ofValues

theorem sameContents_chunks {chunks : List Chunk} {entries : List Bytes}
    (h : List.Forall₂ (fun c e => chunkEntry schema c = .ok e) chunks entries)
    (hs : ∀ c ∈ chunks, ∀ p, payload schema c = .ok p → p.length < 2 ^ 32) :
    List.Forall₂ SameContents chunks (chunks.map (rebuild schema)) := by
  induction h with
  | nil => exact .nil
  | @cons c e chunks entries hc _ ih =>
      exact .cons (sameContents_rebuild hc (hs c List.mem_cons_self))
        (ih fun d hd => hs d (List.mem_cons_of_mem c hd))

/-- The round trip of a WAL, field by field. -/
theorem decode_encode_fields {wal : SequentialWal} {b : Bytes} (h : encodeSequentialWal H schema wal = .ok b)
    (hcount : wal.chunks.length ≤ 1000000)
    (hpayload : ∀ c ∈ wal.chunks, ∀ p, payload schema c = .ok p → p.length < 2 ^ 32) :
    ∃ wal', decodeSequentialWal H schema b = .ok wal' ∧
      wal'.kind = wal.kind ∧ wal'.tableId = wal.tableId ∧ wal'.seq = wal.seq ∧ wal'.writerEpoch = wal.writerEpoch ∧
      wal'.schemaVersion = wal.schemaVersion ∧ wal'.operationId = wal.operationId ∧ wal'.batchIds = wal.batchIds ∧
      List.Forall₂ SameContents wal.chunks wal'.chunks ∧
      ∃ ids entries, putStrings wal.batchIds = .ok ids ∧
        List.Forall₂ (fun c e => chunkEntry schema c = .ok e) wal.chunks entries ∧
        wal'.payloadDigest = H.sha256 (logical wal.schemaVersion ids entries) := by
  obtain ⟨ids, entries, hi, he, hd⟩ := decode_encode_wal h ⟨hcount, hpayload⟩
  exact ⟨_, hd, rfl, rfl, rfl, rfl, rfl, rfl, rfl, sameContents_chunks he hpayload, ids, entries, hi, he, rfl⟩

def constantHashes : Hashes := ⟨fun _ => 7, fun _ => List.replicate 32 5, fun _ => rfl⟩

def numberWal : SequentialWal where
  tableId := ascii "t"
  seq := 3
  writerEpoch := 2
  operationId := ascii "b"
  batchIds := [ascii "b"]
  chunks := [⟨[0], [Column.ofValues .int32 [.int32 41]], 1⟩]

theorem decode_encode_number :
    ∃ b wal', encodeSequentialWal constantHashes [⟨ascii "n", .int32⟩] numberWal = .ok b ∧
      decodeSequentialWal constantHashes [⟨ascii "n", .int32⟩] b = .ok wal' ∧ wal'.seq = 3 ∧
      wal'.batchIds = [ascii "b"] ∧ wal'.payloadDigest = List.replicate 32 5 := by
  have hpayload : ∀ c ∈ numberWal.chunks, ∀ p, payload [⟨ascii "n", .int32⟩] c = .ok p → p.length < 2 ^ 32 := by
    intro c hc p hp
    obtain rfl := List.mem_singleton.mp hc
    cases hp
    decide
  obtain ⟨wal', hd, _, _, hseq, _, _, _, hids, _, ids, es, _, _, hdigest⟩ :=
    decode_encode_fields (show encodeSequentialWal constantHashes _ numberWal = .ok _ from rfl) (by decide) hpayload
  exact ⟨_, wal', rfl, hd, hseq, hids, hdigest⟩

end DBPlayground.WalRoundTrip
