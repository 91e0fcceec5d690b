import DBPlayground.Format.ReadBack

namespace DBPlayground.Format

open ByteReader Table

variable {Z : Zlib} {schema : Schema} {chunks : List Chunk} {projection : List Int}

theorem varBytes_column (d : ColumnData) : d.column.varBytes = Column.strings d.vals := by
  rw [ColumnData.column]
  induction d.vals using List.reverseRecOn with
  | nil => rfl
  | append_singleton vals v ih =>
      rw [Column.ofValues_append_singleton, Column.strings_append, ← ih]
      cases v <;> simp [Column.appendValue, Column.append, Column.appendBytes, Column.strings, Value.asString]

theorem wrapped_small {d : ColumnData} (h : (Column.strings d.vals).length < 2 ^ 32) : d.wrapped = d :=
  ColumnData.ext rfl (Column.wrapped_eq_self h)

theorem length_strings_slice (vals : List Value) (first count : Nat) :
    (Column.strings ((vals.drop first).take count)).length ≤ (Column.strings vals).length := by
  have hsplit : vals = vals.take first ++ ((vals.drop first).take count ++ (vals.drop first).drop count) := by
    rw [List.take_append_drop, List.take_append_drop]
  have hlen := congrArg (fun l => (Column.strings l).length) hsplit
  simp only [Column.strings_append, List.length_append] at hlen
  omega

theorem slice_wrapped_small {d : ColumnData} (h : (Column.strings d.vals).length < 2 ^ 32) (first count : Nat) :
    (d.slice first count).wrapped = d.slice first count :=
  wrapped_small (Nat.lt_of_le_of_lt (length_strings_slice d.vals first count) h)

def varBytesAt (k : Nat) (chunk : Chunk) : Nat := (chunk.columns[k]?.map (·.varBytes.length)).getD 0

theorem strings_joinAll {types : List FieldType} {css : List (List ColumnData)}
    (hcs : List.Forall₂ (Writer.Holds types) chunks css) {cols : List (List Value)}
    (hlen : cols.length = types.length) {k : Nat} {us vals : List Value} (hk : cols[k]? = some us)
    (hsmall : (chunks.map (varBytesAt k)).sum < 2 ^ 32) (hvals : (Writer.joinAll cols css)[k]? = some vals) :
    (Column.strings vals).length = (Column.strings us).length + (chunks.map (varBytesAt k)).sum := by
  induction hcs generalizing cols us with
  | nil =>
      obtain rfl : us = vals := Option.some.inj (hk.symm.trans hvals)
      rfl
  | @cons chunk es chunks css hchunk _ ih =>
      obtain ⟨hcols, htypes, _⟩ := hchunk
      have hes : es.length = types.length := by rw [← htypes, List.length_map]
      have hke : k < es.length := by
        have := (List.getElem?_eq_some_iff.mp hk).1
        omega
      rw [List.map_cons, List.sum_cons] at hsmall ⊢
      have hvar : varBytesAt k chunk = (Column.strings es[k].vals).length := by
        rw [varBytesAt, hcols, List.getElem?_map, List.getElem?_eq_getElem hke, ← varBytes_column]
        rfl
      have hw : es[k].wrapped.vals = es[k].vals := by rw [wrapped_small (by omega)]
      have hk' : (List.zipWith (· ++ ·) cols (es.map (·.wrapped.vals)))[k]? = some (us ++ es[k].vals) := by
        rw [List.getElem?_zipWith, hk, List.getElem?_map, List.getElem?_eq_getElem hke]
        exact congrArg some (congrArg (us ++ ·) hw)
      have hlen' : (List.zipWith (· ++ ·) cols (es.map (·.wrapped.vals))).length = types.length := by
        rw [List.length_zipWith, List.length_map]
        omega
      rw [ih hlen' hk' (by omega) hvals, Column.strings_append, List.length_append, hvar]
      omega

theorem exists_forall₂ {α β : Type} {R : α → β → Prop} {xs : List α} (h : ∀ x ∈ xs, ∃ y, R x y) :
    ∃ ys, List.Forall₂ R xs ys := by
  induction xs with
  | nil => exact ⟨[], .nil⟩
  | cons x xs ih =>
      obtain ⟨ys, hys⟩ := ih fun y hy => h y (List.mem_cons_of_mem x hy)
      obtain ⟨y, hy⟩ := h x List.mem_cons_self
      exact ⟨y :: ys, .cons hy hys⟩

theorem Writer.new_columns (hvalid : ∀ f ∈ schema, f.type.isValid = true) :
    ∃ ds : List ColumnData, Writer.new schema = ds.map ColumnData.column ∧
      ds.map (·.type) = schema.map (·.type) ∧ ds.map (·.vals) = schema.map fun _ => [] := by
  induction schema with
  | nil => exact ⟨[], rfl, rfl, rfl⟩
  | cons f schema ih =>
      obtain ⟨ds, hnew, htypes, hvals⟩ := ih fun g hg => hvalid g (List.mem_cons_of_mem f hg)
      refine ⟨⟨f.type, [], hvalid f List.mem_cons_self, by simp⟩ :: ds, ?_, ?_, ?_⟩
      · exact congrArg (Column.new f.type :: ·) hnew
      · exact congrArg (f.type :: ·) htypes
      · exact congrArg ([] :: ·) hvals

/-- A chunk with one column for each field of the schema, in its order, all
of the chunk's length. -/
def FullSchema (schema : Schema) (chunk : Chunk) : Prop :=
  ∃ es, Writer.Holds (schema.map (·.type)) chunk es

theorem writeAll_full (hvalid : ∀ f ∈ schema, f.type.isValid = true) {css : List (List ColumnData)}
    (hcs : List.Forall₂ (Writer.Holds (schema.map (·.type))) chunks css) :
    ∃ fs : List ColumnData, Writer.writeAll (Writer.new schema) chunks = .ok (fs.map ColumnData.column) ∧
      fs.map (·.type) = schema.map (·.type) ∧
      fs.map (·.vals) = Writer.joinAll (schema.map fun _ => []) css ∧
      ∀ f ∈ fs, f.vals.length = (chunks.map (·.rowCount)).sum := by
  obtain ⟨ds, hnew, hds, hvals⟩ := Writer.new_columns hvalid
  obtain ⟨fs, hwrite, hft, hfv⟩ := Writer.writeAll_columns hcs hds
  have hlen : (ds.map (·.vals)).length = (schema.map (·.type)).length := by
    rw [hvals, List.length_map, List.length_map]
  obtain ⟨_, _, _, hlens⟩ := Writer.rowsOf_joinAll hcs hlen (n := 0) (by rw [hvals]; simp)
  rw [← hfv, Nat.zero_add] at hlens
  rw [← hnew] at hwrite
  rw [hvals] at hfv
  exact ⟨fs, hwrite, hft, hfv, fun f hf => hlens f.vals (List.mem_map_of_mem hf)⟩

theorem layout_written (hZ : Z.Inverts) (hschema : schema ≠ []) (hvalid : ∀ f ∈ schema, f.type.isValid = true)
    {css : List (List ColumnData)} (hcs : List.Forall₂ (Writer.Holds (schema.map (·.type))) chunks css)
    {compression : CompressionId} {cols : List Column} {file : Bytes}
    (hwrite : Writer.writeAll (Writer.new schema) chunks = .ok cols)
    (hclose : Writer.close Z compression cols = .ok file) :
    ∃ fs : List ColumnData, Layout Z fs (chunks.map (·.rowCount)).sum file ∧
      fs.map (·.type) = schema.map (·.type) ∧ fs.map (·.vals) = Writer.joinAll (schema.map fun _ => []) css := by
  obtain ⟨fs, hfs, hft, hfv, hlens⟩ := writeAll_full hvalid hcs
  obtain rfl := Except.ok.inj (hwrite.symm.trans hfs)
  have hne : fs ≠ [] := by
    rintro rfl
    exact hschema (List.map_eq_nil_iff.mp hft.symm)
  obtain ⟨c, hc⟩ : ∃ c, CodecRegistry.getCompression compression.code = .ok c := by
    refine exists_compression ?_
    rintro rfl
    cases hclose
  rcases close_columns hZ hc hne hlens with ⟨herr, _⟩ | ⟨file', hfile', hlayout⟩
  · cases herr.symm.trans hclose
  · obtain rfl := Except.ok.inj (hfile'.symm.trans hclose)
    exact ⟨fs, hlayout, hft, hfv⟩

def Written (Z : Zlib) (schema : Schema) (rows : Nat) (file : Bytes) : Prop :=
  ∃ chunks cols compression, (∀ chunk ∈ chunks, FullSchema schema chunk) ∧
    Writer.writeAll (Writer.new schema) chunks = .ok cols ∧ Writer.close Z compression cols = .ok file ∧
    (chunks.map (·.rowCount)).sum = rows

theorem Written.layout (hZ : Z.Inverts) (hschema : schema ≠ []) (hvalid : ∀ f ∈ schema, f.type.isValid = true)
    {rows : Nat} {file : Bytes} (h : Written Z schema rows file) :
    ∃ fs : List ColumnData, Layout Z fs rows file ∧ fs.map (·.type) = schema.map (·.type) := by
  obtain ⟨chunks, cols, compression, hfull, hwrite, hclose, rfl⟩ := h
  obtain ⟨css, hcs⟩ := exists_forall₂ hfull
  obtain ⟨fs, hlayout, hft, _⟩ := layout_written hZ hschema hvalid hcs hwrite hclose
  exact ⟨fs, hlayout, hft⟩

def readRanges (Z : Zlib) : FileReader → List (BitVec 64 × BitVec 64) → List (Except Failure (Option Chunk))
  | _, [] => []
  | r, call :: calls => (readRange Z r call.1 call.2).1 :: readRanges Z (readRange Z r call.1 call.2).2 calls

def Answers (projection : List Int) (rows : List (List Value)) (call : BitVec 64 × BitVec 64)
    (result : Except Failure (Option Chunk)) : Prop :=
  if rows.length ≤ call.1.toNat ∨ call.2 = 0 then result = .ok none
  else ∃ out, result = .ok (some out) ∧ out.columnIds = projection ∧
    out.rowCount = min call.2.toNat (rows.length - call.1.toNat) ∧
    out.readRows = .ok (((rows.drop call.1.toNat).take call.2.toNat).map (projectRow projection))

/-- The encodings, the pages and the footer exceed what strings can hold. -/
def Oversized (Z : Zlib) (compression : CompressionId) (cols : List Column) : Prop :=
  ∃ (ds : List ColumnData) (c : Compression), cols = ds.map ColumnData.column ∧
    CodecRegistry.getCompression compression.code = .ok c ∧ maxSize < (ds.map (footprint Z c)).sum + 40 * ds.length + 32

theorem vals_project (projection : List Int) (ds : List ColumnData) :
    (project projection ds).map (·.vals) = projection.filterMap fun field => (ds.map (·.vals))[field.toNat]? := by
  rw [project, List.map_filterMap]
  refine List.filterMap_congr ?_
  intro field _
  rw [List.getElem?_map]

theorem rowsOf_project {ds : List ColumnData} {rows : Nat} (hlens : ∀ d ∈ ds, d.vals.length = rows) :
    rowsOf ((project projection ds).map (·.vals)) rows =
      (rowsOf (ds.map (·.vals)) rows).map (projectRow projection) := by
  rw [rowsOf, rowsOf, List.map_map, vals_project]
  refine List.map_congr_left ?_
  intro r hr
  refine rowAt_project ?_ projection
  intro vals hv
  obtain ⟨d, hd, rfl⟩ := List.mem_map.mp hv
  rw [hlens d hd]
  exact List.mem_range.mp hr

theorem mem_of_mem_project {ds : List ColumnData} {d : ColumnData} (h : d ∈ project projection ds) : d ∈ ds := by
  obtain ⟨field, _, hfield⟩ := List.mem_filterMap.mp h
  exact List.mem_of_getElem? hfield

theorem readRows_window (ids : List Int) {ds : List ColumnData} {rows first count : Nat}
    (hsmall : ∀ d ∈ ds, (Column.strings d.vals).length < 2 ^ 32) (hlens : ∀ d ∈ ds, d.vals.length = rows)
    (hle : first + count ≤ rows) :
    (Chunk.mk ids (ds.map fun d => (d.window first count).column) count).readRows =
      .ok (((rowsOf (ds.map (·.vals)) rows).drop first).take count) := by
  have hwindow : ∀ d ∈ ds, d.window first count = d.slice first count := by
    intro d hd
    rw [ColumnData.window, wrapped_small (hsmall d hd), wrapped_small (hsmall d hd)]
  have hcols : (ds.map fun d => (d.window first count).column) =
      (ds.map fun d => d.slice first count).map ColumnData.column := by
    rw [List.map_map]
    refine List.map_congr_left ?_
    intro d hd
    rw [hwindow d hd, Function.comp_apply]
  have hvals : (ds.map fun d => d.slice first count).map (·.wrapped.vals) =
      (ds.map (·.vals)).map fun vals => (vals.drop first).take count := by
    rw [List.map_map, List.map_map]
    refine List.map_congr_left ?_
    intro d hd
    rw [Function.comp_apply, Function.comp_apply, slice_wrapped_small (hsmall d hd)]
    rfl
  rw [hcols, readRows_columns, hvals, rowsOf_slice _ hle]
  intro d hd
  obtain ⟨e, he, rfl⟩ := List.mem_map.mp hd
  refine ColumnData.length_slice ?_
  rwa [hlens e he]

theorem readRanges_answers {ds : List ColumnData} {r : FileReader} {rows : Nat}
    (hsmall : ∀ d ∈ ds, (Column.strings d.vals).length < 2 ^ 32) (hlens : ∀ d ∈ ds, d.vals.length = rows)
    (h : Reading Z (project r.projection ds) r) (hr : r.rowCount.toNat = rows)
    (calls : List (BitVec 64 × BitVec 64)) :
    List.Forall₂ (Answers r.projection (rowsOf (ds.map (·.vals)) rows)) calls (readRanges Z r calls) := by
  induction calls generalizing r with
  | nil => exact .nil
  | cons call calls ih =>
      by_cases hempty : rows ≤ call.1.toNat ∨ call.2 = 0
      · have hnone : readRange Z r call.1 call.2 = (.ok none, r) := readRange_empty (by rwa [hr])
        refine .cons ?_ ?_
        · rw [Answers, length_rowsOf, if_pos hempty, hnone]
        · rw [hnone]
          exact ih h hr
      · obtain ⟨hfirst, hnum⟩ := not_or.mp hempty
        have hlt : call.1.toNat < r.rowCount.toNat := by omega
        obtain ⟨r', hread, hr', hproj, hcount⟩ := readRange_rows h hlt hnum rfl
        refine .cons ?_ ?_
        · rw [Answers, length_rowsOf, if_neg hempty, hread, hr]
          refine ⟨_, rfl, rfl, rfl, ?_⟩
          rw [readRows_window r.projection (fun d hd => hsmall d (mem_of_mem_project hd))
            (fun d hd => hlens d (mem_of_mem_project hd)) (by omega), rowsOf_project hlens, ← List.map_drop,
            ← List.map_take]
          refine congrArg (fun l => Except.ok (List.map (projectRow r.projection) l)) ?_
          rw [List.take_eq_take_iff, List.length_drop, length_rowsOf]
          omega
        · rw [hread, ← hproj]
          exact ih (by rwa [hproj]) (by rw [hcount, hr])

theorem strings_written {css : List (List ColumnData)}
    (hcs : List.Forall₂ (Writer.Holds (schema.map (·.type))) chunks css)
    (hvar : ∀ k, (chunks.map (varBytesAt k)).sum < 2 ^ 32) {fs : List ColumnData}
    (hft : fs.map (·.type) = schema.map (·.type))
    (hfv : fs.map (·.vals) = Writer.joinAll (schema.map fun _ => []) css) :
    ∀ f ∈ fs, (Column.strings f.vals).length < 2 ^ 32 := by
  have hlen : (schema.map fun _ => ([] : List Value)).length = (schema.map (·.type)).length := by
    rw [List.length_map, List.length_map]
  intro f hf
  obtain ⟨k, hk, rfl⟩ := List.getElem_of_mem hf
  have hkf : (Writer.joinAll (schema.map fun _ => []) css)[k]? = some fs[k].vals := by
    rw [← hfv, List.getElem?_map, List.getElem?_eq_getElem hk]
    rfl
  have hks : k < schema.length := by
    have h := congrArg List.length hft
    rw [List.length_map, List.length_map] at h
    omega
  have hk0 : (schema.map fun _ => ([] : List Value))[k]? = some [] := by
    rw [List.getElem?_map, List.getElem?_eq_getElem hks]
    rfl
  have hsum : (Column.strings fs[k].vals).length = 0 + _ := strings_joinAll hcs hlen hk0 (hvar k) hkf
  rw [hsum, Nat.zero_add]
  exact hvar k

/-- A DBC1 file gives back the rows written to it: `row_count` counts them,
and every `ReadRange` of any sequence of calls on one reader returns exactly
its range of them, projected. -/
theorem write_read_range (hZ : Z.Inverts) (hschema : schema ≠ []) (hvalid : ∀ f ∈ schema, f.type.isValid = true)
    (hfull : ∀ chunk ∈ chunks, FullSchema schema chunk)
    (hvar : ∀ k, (chunks.map (varBytesAt k)).sum < 2 ^ 32) {compression : CompressionId}
    (hcomp : compression ≠ .invalid) (hproj : InRange schema projection) :
    ∃ rows cols, chunks.mapM Chunk.readRows = .ok rows ∧
      Writer.writeAll (Writer.new schema) chunks = .ok cols ∧
      (Writer.close Z compression cols = .error (.threw .lengthError) ∧ Oversized Z compression cols ∨
        ∃ file r, Writer.close Z compression cols = .ok file ∧ openReader schema file projection = .ok r ∧
          r.rowCount.toNat = rows.flatten.length ∧ rows.flatten.length = (chunks.map (·.rowCount)).sum ∧
          ∀ calls, List.Forall₂ (Answers projection rows.flatten) calls (readRanges Z r calls)) := by
  obtain ⟨css, hcs⟩ := exists_forall₂ hfull
  obtain ⟨fs, hwrite, hft, hfv, hflens⟩ := writeAll_full hvalid hcs
  have hlen : (schema.map fun _ => ([] : List Value)).length = (schema.map (·.type)).length := by
    rw [List.length_map, List.length_map]
  obtain ⟨rows, hrows, hjoin, _⟩ := Writer.rowsOf_joinAll hcs hlen (n := 0) (by simp)
  rw [← hfv, Nat.zero_add] at hjoin
  have hflat : rows.flatten = rowsOf (fs.map (·.vals)) (chunks.map (·.rowCount)).sum := hjoin.symm
  have hsmall := strings_written hcs hvar hft hfv
  obtain ⟨c, hc⟩ := exists_compression hcomp
  have hne : fs ≠ [] := by
    rintro rfl
    exact hschema (List.map_eq_nil_iff.mp hft.symm)
  refine ⟨rows, fs.map ColumnData.column, hrows, hwrite, ?_⟩
  rcases close_columns hZ hc hne hflens with ⟨herr, hbig⟩ | ⟨file, hclose, hlayout⟩
  · exact .inl ⟨herr, fs, c, rfl, hc, hbig⟩
  · obtain ⟨r, hopen, hpr, hcount, hreading⟩ := openReader_layout hZ hlayout hft hproj
    refine .inr ⟨file, r, hclose, hopen, ?_, ?_, ?_⟩
    · rw [hcount, hflat, length_rowsOf]
    · rw [hflat, length_rowsOf]
    · intro calls
      rw [hflat, ← hpr]
      exact readRanges_answers hsmall hflens (by rwa [hpr]) hcount calls

def storedZlib : Zlib := ⟨some, fun t _ => some t⟩

theorem storedZlib_inverts : storedZlib.Inverts := fun s => ⟨s, rfl, rfl⟩

def nameSchema : Schema := [⟨ascii "id", .int32⟩, ⟨ascii "name", .string⟩]

def nameColumns (ids : List (BitVec 32)) (names : List Bytes) : List ColumnData :=
  [⟨.int32, ids.map .int32, rfl, by simp [Value.hasType]⟩, ⟨.string, names.map .string, rfl, by simp [Value.hasType]⟩]

def nameChunk (ids : List (BitVec 32)) (names : List Bytes) : Chunk :=
  ⟨[0, 1], (nameColumns ids names).map ColumnData.column, ids.length⟩

def nameBuffers : List Column :=
  [Column.ofValues .int32 [.int32 7, .int32 8], Column.ofValues .string [.string (ascii "ann"), .string []]]

def nameFile : Bytes :=
  ascii "DBC1" ++ [7, 0, 0, 0, 8, 0, 0, 0] ++ ([3, 0, 0, 0] ++ ascii "ann" ++ [0, 0, 0, 0]) ++
    Writer.footerBytes 2 [⟨1, 1, 4, 8, 8, 2⟩, ⟨1, 1, 12, 11, 11, 2⟩] ++ putU64 84 ++ ascii "DBC1"

def nameStore (_ : Bytes) : Option Bytes := some nameFile

set_option maxRecDepth 4000 in
theorem nameFile_written :
    Writer.writeAll (Writer.new nameSchema) [nameChunk [7, 8] [ascii "ann", []]] = .ok nameBuffers ∧
    Writer.close storedZlib .none nameBuffers = .ok nameFile := ⟨rfl, rfl⟩

theorem write_read_range_names :
    ∃ rows cols, [nameChunk [7, 8] [ascii "ann", []], nameChunk [9] [ascii "bo"]].mapM Chunk.readRows = .ok rows ∧
      Writer.writeAll (Writer.new nameSchema)
        [nameChunk [7, 8] [ascii "ann", []], nameChunk [9] [ascii "bo"]] = .ok cols ∧
      (Writer.close storedZlib .none cols = .error (.threw .lengthError) ∧ Oversized storedZlib .none cols ∨
        ∃ file r, Writer.close storedZlib .none cols = .ok file ∧ openReader nameSchema file [1, 0, 1] = .ok r ∧
          r.rowCount.toNat = rows.flatten.length ∧ rows.flatten.length =
            ([nameChunk [7, 8] [ascii "ann", []], nameChunk [9] [ascii "bo"]].map (·.rowCount)).sum ∧
          ∀ calls, List.Forall₂ (Answers [1, 0, 1] rows.flatten) calls (readRanges storedZlib r calls)) := by
  refine write_read_range storedZlib_inverts (by decide) (by decide) ?_ ?_ (by decide) (by unfold InRange; decide)
  · intro chunk hchunk
    rcases List.mem_pair.mp hchunk with rfl | rfl
    · exact ⟨nameColumns [7, 8] [ascii "ann", []], rfl, rfl, by decide⟩
    · exact ⟨nameColumns [9] [ascii "bo"], rfl, rfl, by decide⟩
  · intro k
    match k with
    | 0 => decide
    | 1 => decide
    | k + 2 => exact Nat.two_pow_pos 32

end DBPlayground.Format
