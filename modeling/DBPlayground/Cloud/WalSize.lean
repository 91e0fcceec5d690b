import DBPlayground.Cloud.WalRoundTrip

namespace DBPlayground.WalSize

open ByteReader Table Wire WalCodec WalRoundTrip RowCodec

def cellSize (type : FieldType) (v : Option Value) : Nat :=
  match type with
  | .int32 | .float => 4
  | .int64 | .double => 8
  | .bool => 1
  | .string | .blob => 4 + (v.elim [] Value.asString).length
  | .invalid | .unknown _ => 0

def rowSize (schema : Schema) (row : List (Option Value)) : Nat :=
  (List.zipWith (fun f v => cellSize f.type v) schema row).sum

def chunkSize (schema : Schema) (rows : List (List (Option Value))) : Nat :=
  12 + (rows.map fun row => 4 + rowSize schema row).sum

/-- The bytes of a WAL object: header with table id, numbers and operation id,
batch ids, the rows of each chunk, and the footer with row count, digest,
checksum and magic. -/
def walSize (schema : Schema) (tableId operationId : Bytes) (ids : List Bytes)
    (chunks : List (List (List (Option Value)))) : Nat :=
  9 + (4 + tableId.length) + 24 + (4 + operationId.length) + (4 + (ids.map fun id => 4 + id.length).sum) +
    4 + (chunks.map (chunkSize schema)).sum + 48

variable {H : Hashes} {schema : Schema} {chunk : Chunk} {b : Bytes}

theorem length_encodeField {type : FieldType} {v : Value} (h : encodeField type v = .ok b) :
    b.length = cellSize type (some v) := by
  cases type <;> cases h <;> simp [cellSize]

theorem length_encodeFields {vs : List Value} (h : encodeFields schema vs = .ok b) :
    b.length = rowSize schema (vs.map some) := by
  induction schema generalizing vs b with
  | nil =>
      cases h
      rfl
  | cons f fs ih =>
      cases vs with
      | nil =>
          cases h
          rfl
      | cons v vs =>
          obtain ⟨c, hc, h⟩ := Except.bind_ok.mp h
          obtain ⟨cs, hcs, h⟩ := Except.bind_ok.mp h
          cases h
          rw [List.length_append, length_encodeField hc, ih hcs]
          rfl

theorem map_cells {cols : List Column} {vs : List Value} {r : Nat}
    (h : List.Forall₂ (fun col v => cell col r = .ok v) cols vs) : cols.map (·.cell? r) = vs.map some := by
  induction h with
  | nil => rfl
  | cons hc _ ih => rw [List.map_cons, List.map_cons, ih, cell_ok.mp hc]

theorem length_putRow {r : Nat} (h : putRow schema chunk r = .ok b) :
    b.length = 4 + rowSize schema (chunk.row r) := by
  obtain ⟨vs, e, hv, he, _, rfl⟩ := putRow_ok h
  obtain ⟨_, _, he⟩ := Except.bind_ok.mp he
  rw [List.length_append, length_encodeFields he, Chunk.row, map_cells hv, u32, length_leBytes]

theorem length_flatten_putAll {α : Type} {put : α → Except Exn Bytes} {size : α → Nat} {xs : List α}
    (hp : ∀ x c, put x = .ok c → c.length = size x) (h : putAll put xs = .ok b) :
    b.length = (xs.map size).sum := by
  induction xs generalizing b with
  | nil =>
      cases h
      rfl
  | cons x xs ih =>
      obtain ⟨c, hc, h⟩ := Except.bind_ok.mp h
      obtain ⟨d, hd, h⟩ := Except.bind_ok.mp h
      cases h
      rw [List.length_append, hp x c hc, ih hd, List.map_cons, List.sum_cons]

theorem length_chunkEntry {e : Bytes} (h : chunkEntry schema chunk = .ok e) :
    e.length + 4 = chunkSize schema chunk.rows := by
  obtain ⟨_, _, p, hp, rfl⟩ := chunkEntry_ok h
  have hlen := length_flatten_putAll (fun r c => length_putRow (r := r) (b := c)) hp
  rw [entry, List.length_append, List.length_append, hlen, u32, u32, length_leBytes, length_leBytes, chunkSize,
    Chunk.rows, List.map_map]
  simp only [Function.comp_def]
  omega

theorem length_putString {s : Bytes} (h : putString s = .ok b) : b.length = 4 + s.length := by
  obtain ⟨_, rfl⟩ := putString_ok.mp h
  rw [List.length_append, u32, length_leBytes]

theorem length_putStrings {xs : List Bytes} (h : putStrings xs = .ok b) :
    b.length = 4 + (xs.map fun id => 4 + id.length).sum := by
  obtain ⟨_, c, hc, rfl⟩ := putStrings_ok.mp h
  rw [List.length_append, u32, length_leBytes, length_flatten_putAll (fun _ _ => length_putString) hc]

theorem length_entries {chunks : List Chunk} {es : List Bytes}
    (h : List.Forall₂ (fun c e => chunkEntry schema c = .ok e) chunks es) :
    (es.flatMap fun e => e ++ u32 (crc H e)).length = ((chunks.map Chunk.rows).map (chunkSize schema)).sum := by
  induction h with
  | nil => rfl
  | cons hc _ ih =>
      rw [List.flatMap_cons, List.length_append, ih, List.length_append, u32, length_leBytes, length_chunkEntry hc]
      rfl

theorem length_encode {wal : SequentialWal} (h : encodeSequentialWal H schema wal = .ok b) :
    b.length = walSize schema wal.tableId wal.operationId wal.batchIds (wal.chunks.map Chunk.rows) := by
  obtain ⟨_, header, ids, entries, hh, _, he, rfl⟩ := encode_ok.mp h
  obtain ⟨tableId, ht, hh⟩ := Except.bind_ok.mp hh
  obtain ⟨operationId, ho, hh⟩ := Except.bind_ok.mp hh
  obtain ⟨ids', hi', hh⟩ := Except.bind_ok.mp hh
  cases hh
  simp only [walBody, List.length_append, length_putString ht, length_putString ho, length_putStrings hi',
    length_entries he]
  simp only [u32, u64, length_leBytes, putHeader, List.length_append, H.sha256_length, List.length_singleton,
    walSize, show (ascii "DBW2").length = 4 from rfl]
  omega

end DBPlayground.WalSize
