import DBPlayground.Format.ScanFiles
import DBPlayground.Format.RoundTrip

namespace DBPlayground.Format

open ByteReader Table Cursor

/-- A DBC1 file of the schema: pages and footer are in their places, and the
variable-length bytes of a column stay within the 32-bit offsets of `Column`. -/
def WellFormed (Z : Zlib) (schema : Schema) (file : Bytes) : Prop :=
  ∃ (ds : List ColumnData) (rows : Nat), Layout Z ds rows file ∧ ds.map (·.type) = schema.map (·.type) ∧
    ∀ d ∈ ds, (Column.strings d.vals).length < 2 ^ 32

theorem wellFormed_close {Z : Zlib} (hZ : Z.Inverts) {schema : Schema} (hschema : schema ≠ [])
    (hvalid : ∀ f ∈ schema, f.type.isValid = true) {chunks : List Chunk}
    (hfull : ∀ chunk ∈ chunks, FullSchema schema chunk) (hvar : ∀ k, (chunks.map (varBytesAt k)).sum < 2 ^ 32)
    {compression : CompressionId} {cols : List Column} {file : Bytes}
    (hwrite : Writer.writeAll (Writer.new schema) chunks = .ok cols)
    (hclose : Writer.close Z compression cols = .ok file) : WellFormed Z schema file := by
  obtain ⟨css, hcs⟩ := exists_forall₂ hfull
  obtain ⟨fs, hlayout, hft, hfv⟩ := layout_written hZ hschema hvalid hcs hwrite hclose
  exact ⟨fs, _, hlayout, hft, strings_written hcs hvar hft hfv⟩

theorem nameFile_wellFormed : WellFormed storedZlib nameSchema nameFile := by
  refine wellFormed_close storedZlib_inverts (by decide) (by decide) ?_ ?_ nameFile_written.1 nameFile_written.2
  · intro chunk hchunk
    obtain rfl := List.mem_singleton.mp hchunk
    exact ⟨nameColumns [7, 8] [ascii "ann", []], rfl, rfl, by decide⟩
  · intro k
    match k with
    | 0 => decide
    | 1 => decide
    | k + 2 => exact Nat.two_pow_pos 32

def readWhole (Z : Zlib) (schema : Schema) (projection : List Int) (file : Bytes) :
    Except Failure (List (List Value)) := do
  let r ← openReader schema file projection
  match ← (readRange Z r 0 r.rowCount).1 with
  | none => .ok []
  | some out => out.readRows

theorem readWhole_layout {Z : Zlib} (hZ : Z.Inverts) {schema : Schema} {file : Bytes} {ds : List ColumnData}
    {rows : Nat} (h : Layout Z ds rows file) (htypes : ds.map (·.type) = schema.map (·.type))
    (hsmall : ∀ d ∈ ds, (Column.strings d.vals).length < 2 ^ 32) {projection : List Int}
    (hproj : InRange schema projection) :
    readWhole Z schema projection file = .ok (rowsOf ((project projection ds).map (·.vals)) rows) := by
  obtain ⟨r, hopen, hpr, rfl, hreading⟩ := openReader_layout hZ h htypes hproj
  refine Except.bind_ok.mpr ⟨r, hopen, ?_⟩
  by_cases hzero : r.rowCount = 0
  · rw [readRange_empty (.inr hzero), hzero]
    rfl
  · have hpos : (0 : BitVec 64).toNat < r.rowCount.toNat :=
      Nat.pos_of_ne_zero fun h0 => hzero (BitVec.eq_of_toNat_eq h0)
    obtain ⟨r', hread, _⟩ := readRange_rows hreading hpos hzero rfl
    have hn : min r.rowCount.toNat (r.rowCount.toNat - (0 : BitVec 64).toNat) = r.rowCount.toNat := Nat.min_self _
    rw [hread, hn]
    refine (readRows_window r.projection (fun d hd => hsmall d (mem_of_mem_project hd)) hreading.lengths
      (Nat.le_of_eq (Nat.zero_add _))).trans ?_
    refine congrArg Except.ok (List.take_of_length_le ?_)
    exact Nat.le_of_eq (length_rowsOf _ _)

namespace ScanSource

variable {src : ScanSource} {ds : List ColumnData}

theorem toNat_window (src : ScanSource) : src.window.toNat = max src.batchRows.toNat 1 := by
  rw [window]
  split
  · rename_i h
    rw [h]
    rfl
  · rename_i h
    have : src.batchRows.toNat ≠ 0 := fun h0 => h (BitVec.eq_of_toNat_eq h0)
    omega

theorem rowsFrom_small (src : ScanSource) (hsmall : ∀ d ∈ ds, (Column.strings d.vals).length < 2 ^ 32) (rows : Nat) :
    src.rowsFrom ds 0 rows = rowsOf (ds.map (·.vals)) rows := by
  rw [rowsFrom]
  refine congrArg (rowsOf · rows) (List.map_congr_left ?_)
  intro d hd
  rw [List.drop_zero, wrapped_small (hsmall d hd), wrapped_small (hsmall d hd),
    inBatches_small src.window_pos (hsmall d hd)]

def ScannedAs (src : ScanSource) (file : Bytes) (chunks : List Chunk) : Prop :=
  ∃ bytes rows, src.store file = some bytes ∧ chunks.mapM Chunk.readRows = .ok rows ∧
    readWhole src.zlib src.schema src.projection bytes = .ok rows.flatten ∧
    ∀ chunk ∈ chunks, chunk.columnIds = src.projection ∧ 1 ≤ chunk.rowCount ∧
      chunk.rowCount ≤ max src.batchRows.toNat 1

theorem drains_wellFormed (hZ : src.zlib.Inverts) (hproj : InRange src.schema src.projection) {file bytes : Bytes}
    (hstore : src.store file = some bytes) (hfile : WellFormed src.zlib src.schema bytes) (files : List Bytes) :
    ∃ chunks, src.ScannedAs file chunks ∧
      ∀ rest, Drains src.next (src.start files) rest → Drains src.next (src.start (file :: files)) (chunks ++ rest) := by
  obtain ⟨ds, n, hlayout, htypes, hsmall⟩ := hfile
  obtain ⟨r, hopen, hpr, hcount, hreading⟩ := openReader_layout hZ hlayout htypes hproj
  obtain ⟨chunks, rows, hdrain, hread, hflat, _, hall⟩ :=
    drains_reader hreading files (show (0 : BitVec 64).toNat ≤ r.rowCount.toNat from Nat.zero_le _)
  refine ⟨chunks, ⟨bytes, rows, hstore, hread, ?_, ?_⟩, ?_⟩
  · rw [readWhole_layout hZ hlayout htypes hsmall hproj, hflat]
    refine congrArg Except.ok ?_
    show _ = src.rowsFrom _ 0 (r.rowCount.toNat - 0)
    rw [Nat.sub_zero, hcount, rowsFrom_small src fun d hd => hsmall d (mem_of_mem_project hd)]
  · intro chunk hchunk
    rw [← hpr, ← toNat_window]
    exact hall chunk hchunk
  · intro rest hrest
    exact (hdrain rest hrest).congr (next_opened hstore hopen files)

/-- A scan of several files ends. Its chunks are those of the first file, then
those of the second, and so on; the chunks of a file hold the rows of its full
`ReadRange`, each between one and a window of them. -/
theorem scan_windows (hZ : src.zlib.Inverts) {files : List Bytes}
    (hfiles : ∀ file ∈ files, ∃ bytes, src.store file = some bytes ∧ WellFormed src.zlib src.schema bytes)
    (hproj : InRange src.schema src.projection) :
    ∃ chunks, Drains src.next (src.start files) chunks.flatten ∧ List.Forall₂ src.ScannedAs files chunks := by
  induction files with
  | nil => exact ⟨[], .done rfl, .nil⟩
  | cons file files ih =>
      obtain ⟨chunks, hdrain, hall⟩ := ih fun f hf => hfiles f (List.mem_cons_of_mem file hf)
      obtain ⟨bytes, hstore, hfile⟩ := hfiles file List.mem_cons_self
      obtain ⟨own, hown, hnext⟩ := drains_wellFormed hZ hproj hstore hfile files
      exact ⟨own :: chunks, hnext _ hdrain, .cons hown hall⟩

theorem scan_windows_names :
    ∃ chunks, Drains (next ⟨storedZlib, nameSchema, nameStore, [1, 0], 0⟩)
        (start ⟨storedZlib, nameSchema, nameStore, [1, 0], 0⟩ [ascii "a", ascii "b"]) chunks.flatten ∧
      List.Forall₂ (ScannedAs ⟨storedZlib, nameSchema, nameStore, [1, 0], 0⟩) [ascii "a", ascii "b"] chunks := by
  refine scan_windows storedZlib_inverts ?_ (by unfold InRange; decide)
  intro file _
  exact ⟨nameFile, rfl, nameFile_wellFormed⟩

end ScanSource

end DBPlayground.Format
