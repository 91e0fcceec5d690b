import DBPlayground.Lib.Cursor
import DBPlayground.Table.CheckedColumn
import DBPlayground.Table.RowCodec

namespace DBPlayground.RowTableSource

open ByteReader Table Cursor

/-- What an engine holds, in the order in which its cursor goes through it. -/
structure Engine where
  entries : List (Bytes × Bytes)
  ascending : entries.Pairwise fun a b => a.1 < b.1

structure Source where
  schema : Schema
  projection : List Int
  batchRows : BitVec 64

/-- `schema[field].type`, without a check of the index. -/
def fieldType (schema : Schema) (field : Int) : Except Failure FieldType :=
  if field < 0 then .error .outOfBounds
  else
    match schema[field.toNat]? with
    | some f => .ok f.type
    | none => .error .outOfBounds

def newColumns (src : Source) : Except Failure (List Column) :=
  src.projection.mapM fun field => do
    let type ← fieldType src.schema field
    pure (Column.new type)

/-- The inner loop of `Next`: decode rows until the batch is full or the
engine's cursor is at its end. -/
def fillBatch (src : Source) :
    List (Bytes × Bytes) → Nat → List Column → Except Failure (List Column × Nat) × List (Bytes × Bytes)
  | [], n, cols => (.ok (cols, n), [])
  | kv :: rest, n, cols =>
    if n < src.batchRows.toNat then
      match RowCodec.decodeInto src.schema kv.2 src.projection cols with
      | .error e => (.error (.threw e), kv :: rest)
      | .ok cols' => fillBatch src rest (n + 1) cols'
    else (.ok (cols, n), kv :: rest)

def next (src : Source) : Next (List (Bytes × Bytes)) Failure Chunk
  | [] => (.ok none, [])
  | kv :: rest =>
    match newColumns src with
    | .error e => (.error e, kv :: rest)
    | .ok cols =>
      match fillBatch src (kv :: rest) 0 cols with
      | (.error e, rest') => (.error e, rest')
      | (.ok (cols', n), rest') => (.ok (some ⟨src.projection, cols', n⟩), rest')

end DBPlayground.RowTableSource
