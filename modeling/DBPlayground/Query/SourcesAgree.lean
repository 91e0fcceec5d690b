import DBPlayground.Format.RoundTrip
import DBPlayground.Format.ScanFiles
import DBPlayground.Query.ScanExecutor
import DBPlayground.Storage.Config
import DBPlayground.Table.RowScan
import Mathlib.Data.List.Nodup

namespace DBPlayground.Query

open ByteReader Table Cursor Format
open RowCodec (Typed)
open RowTableSource (columnOf Encodes)

section Columns

variable {schema : Schema} {rows : List (List Value)}

theorem map_eq_map_of_forall₂ {α β γ : Type} {f : α → γ} {g : β → γ} {xs : List α} {ys : List β}
    (h : List.Forall₂ (fun x y => f x = g y) xs ys) : xs.map f = ys.map g := by
  induction h with
  | nil => rfl
  | cons hxy _ ih => rw [List.map_cons, List.map_cons, hxy, ih]

theorem columnOf_eq_map (htyped : ∀ row ∈ rows, Typed schema row) {k : Nat} (hk : k < schema.length) :
    columnOf rows k = rows.map (·.getD k (.bool false)) := by
  rw [columnOf, ← List.filterMap_eq_map]
  refine List.filterMap_congr ?_
  intro row hrow
  have hkr : k < row.length := by rwa [← (htyped row hrow).length_eq]
  rw [Function.comp_apply, List.getD_eq_getElem?_getD, List.getElem?_eq_getElem hkr]
  rfl

theorem length_columnOf (htyped : ∀ row ∈ rows, Typed schema row) {k : Nat} (hk : k < schema.length) :
    (columnOf rows k).length = rows.length := by
  rw [columnOf_eq_map htyped hk, List.length_map]

theorem columnOf_take (htyped : ∀ row ∈ rows, Typed schema row) {k : Nat} (hk : k < schema.length) (n : Nat) :
    columnOf (rows.take n) k = (columnOf rows k).take n := by
  rw [columnOf_eq_map htyped hk, columnOf_eq_map (fun row hrow => htyped row (List.mem_of_mem_take hrow)) hk,
    List.map_take]

theorem columnOf_drop (htyped : ∀ row ∈ rows, Typed schema row) {k : Nat} (hk : k < schema.length) (n : Nat) :
    columnOf (rows.drop n) k = (columnOf rows k).drop n := by
  rw [columnOf_eq_map htyped hk, columnOf_eq_map (fun row hrow => htyped row (List.mem_of_mem_drop hrow)) hk,
    List.map_drop]

theorem exists_columnData (hvalid : ∀ f ∈ schema, f.type.isValid = true)
    (htyped : ∀ row ∈ rows, Typed schema row) {k : Nat} (hk : k < schema.length) :
    ∃ e : ColumnData, e.type = schema[k].type ∧ e.vals = columnOf rows k := by
  refine ⟨⟨schema[k].type, columnOf rows k, hvalid _ (List.getElem_mem hk), ?_⟩, rfl, rfl⟩
  intro v hv
  obtain ⟨row, hrow, hcell⟩ := List.mem_filterMap.mp hv
  obtain ⟨hkr, rfl⟩ := List.getElem?_eq_some_iff.mp hcell
  exact (List.forall₂_iff_get.mp (htyped row hrow)).2 k hk hkr

def typeAt (schema : Schema) (field : Int) : FieldType := (schema[field.toNat]?.map (·.type)).getD .invalid

theorem exists_projected (hvalid : ∀ f ∈ schema, f.type.isValid = true)
    (htyped : ∀ row ∈ rows, Typed schema row) {projection : List Int} (hproj : InRange schema projection) :
    ∃ es : List ColumnData, List.Forall₂ (fun field e => typeAt schema field = e.type ∧
      columnOf rows field.toNat = e.vals) projection es := by
  refine exists_forall₂ ?_
  intro field hfield
  have hk := (hproj field hfield).2
  obtain ⟨e, ht, hv⟩ := exists_columnData hvalid htyped hk
  exact ⟨e, by rw [typeAt, List.getElem?_eq_getElem hk, ht]; rfl, hv.symm⟩

def chunkOf (schema : Schema) (rows : List (List Value)) : Chunk :=
  ⟨(List.range schema.length).map Int.ofNat,
    schema.zipIdx.map fun p => Column.ofValues p.1.type (columnOf rows p.2), rows.length⟩

theorem holds_chunkOf (hvalid : ∀ f ∈ schema, f.type.isValid = true) (htyped : ∀ row ∈ rows, Typed schema row) :
    ∃ es, Writer.Holds (schema.map (·.type)) (chunkOf schema rows) es ∧
      es.map (·.vals) = (List.range schema.length).map (columnOf rows) := by
  obtain ⟨es, hes⟩ : ∃ es : List ColumnData, List.Forall₂ (fun (p : Field × Nat) e =>
      p.1.type = e.type ∧ columnOf rows p.2 = e.vals ∧ e.vals.length = rows.length) schema.zipIdx es := by
    refine exists_forall₂ ?_
    rintro ⟨f, k⟩ hp
    obtain ⟨hk, hf⟩ := List.mem_zipIdx' hp
    obtain ⟨e, ht, hv⟩ := exists_columnData hvalid htyped hk
    exact ⟨e, (congrArg Table.Field.type hf).trans ht.symm, hv.symm, by rw [hv, length_columnOf htyped hk]⟩
  have htypes : schema.zipIdx.map (·.1.type) = es.map (·.type) := map_eq_map_of_forall₂ (hes.imp fun _ _ h => h.1)
  have hvals : schema.zipIdx.map (columnOf rows ·.2) = es.map (·.vals) :=
    map_eq_map_of_forall₂ (hes.imp fun _ _ h => h.2.1)
  refine ⟨es, ⟨?_, ?_, ?_⟩, ?_⟩
  · refine map_eq_map_of_forall₂ (hes.imp ?_)
    rintro p e ⟨ht, hv, _⟩
    rw [ColumnData.column, ht, hv]
  · rw [← htypes]
    have h := congrArg (List.map (·.type)) (List.zipIdx_map_fst 0 schema)
    rwa [List.map_map] at h
  · intro e he
    obtain ⟨k, hk, rfl⟩ := List.getElem_of_mem he
    exact ((List.forall₂_iff_get.mp hes).2 k (by rwa [hes.length_eq]) hk).2.2
  · rw [← hvals]
    have h := congrArg (List.map (columnOf rows)) (List.zipIdx_map_snd 0 schema)
    rwa [List.map_map, ← List.range_eq_range'] at h

end Columns

section RowSide

variable {src : RowTableSource.Source} {entries : List (Bytes × Bytes)} {rows : List (List Value)}

theorem newColumns_ok (hproj : InRange src.schema src.projection) :
    RowTableSource.newColumns src = .ok (src.projection.map fun field => Column.new (typeAt src.schema field)) := by
  refine mapM_of_forall ?_
  intro field hfield
  obtain ⟨h0, hk⟩ := hproj field hfield
  rw [RowTableSource.fieldType, if_neg (by omega), typeAt, List.getElem?_eq_getElem hk]
  rfl

theorem typed_of_encodes (h : Encodes src.schema entries rows) : ∀ row ∈ rows, Typed src.schema row := by
  intro row hrow
  induction h with
  | nil => cases hrow
  | cons hkv _ ih =>
      rcases List.mem_cons.mp hrow with rfl | hrow
      · exact hkv.1
      · exact ih hrow

theorem next_batch (hproj : InRange src.schema src.projection) (h : Encodes src.schema entries rows)
    (hne : rows ≠ []) :
    ∃ cols, RowTableSource.next src entries = (.ok (some ⟨src.projection, cols,
        (rows.take src.batchRows.toNat).length⟩), entries.drop src.batchRows.toNat) ∧
      ∀ k : Nat, cols[k]? = src.projection[k]?.map fun field => Column.ofValues (typeAt src.schema field)
        ((rows.take src.batchRows.toNat).flatMap (RowTableSource.picked (RowCodec.outPos src.projection) k 0)) := by
  obtain ⟨cols, hfill, hcols⟩ := RowTableSource.fillBatch_encodes h 0
    (src.projection.map fun field => Column.new (typeAt src.schema field))
  rw [Nat.sub_zero, Nat.zero_add] at hfill
  refine ⟨cols, ?_, ?_⟩
  · cases h with
    | nil => exact absurd rfl hne
    | cons _ _ => simp only [RowTableSource.next, newColumns_ok hproj, hfill]
  · intro k
    rw [hcols k, Nat.sub_zero, List.getElem?_map, Option.map_map]
    rfl

theorem outPos_of_nodup {projection : List Int} (hnd : projection.Nodup) {k m : Nat}
    (hk : projection[k]? = some (m : Int)) : RowCodec.outPos projection m = some k := by
  refine RowTableSource.outPos_eq_some_iff.mpr ⟨hk, ?_⟩
  intro j hj hjm
  have hlt := (List.getElem?_eq_some_iff.mp hjm).1
  exact List.nodup_iff_getElem?_ne_getElem?.mp hnd k j hj hlt (hk.trans hjm.symm)

theorem next_batch_nodup (hvalid : ∀ f ∈ src.schema, f.type.isValid = true)
    (hproj : InRange src.schema src.projection) (hnd : src.projection.Nodup)
    (h : Encodes src.schema entries rows) (hne : rows ≠ []) :
    ∃ es : List ColumnData, RowTableSource.next src entries = (.ok (some ⟨src.projection, es.map ColumnData.column,
        (rows.take src.batchRows.toNat).length⟩), entries.drop src.batchRows.toNat) ∧
      es.map (·.vals) = src.projection.map fun field => columnOf (rows.take src.batchRows.toNat) field.toNat := by
  have htyped : ∀ row ∈ rows.take src.batchRows.toNat, Typed src.schema row :=
    fun row hrow => typed_of_encodes h row (List.mem_of_mem_take hrow)
  obtain ⟨cols, hnext, hcols⟩ := next_batch hproj h hne
  obtain ⟨es, hes⟩ := exists_projected hvalid htyped hproj
  have hvals : (src.projection.map fun field => columnOf (rows.take src.batchRows.toNat) field.toNat) =
      es.map (·.vals) := map_eq_map_of_forall₂ (hes.imp fun _ _ h => h.2)
  refine ⟨es, ?_, hvals.symm⟩
  suffices hcols' : cols = es.map ColumnData.column by rw [hnext, hcols']
  refine List.ext_getElem? ?_
  intro k
  rw [hcols k, List.getElem?_map]
  by_cases hk : k < src.projection.length
  · have hke : k < es.length := by rwa [← hes.length_eq]
    obtain ⟨ht, hv⟩ := (List.forall₂_iff_get.mp hes).2 k hk hke
    rw [List.getElem?_eq_getElem hk, List.getElem?_eq_getElem hke, Option.map_some, Option.map_some]
    refine congrArg some ?_
    obtain ⟨m, hm⟩ : ∃ m : Nat, src.projection[k] = (m : Int) :=
      ⟨_, (Int.toNat_of_nonneg (hproj _ (List.getElem_mem hk)).1).symm⟩
    have hlast := outPos_of_nodup hnd (by rw [List.getElem?_eq_getElem hk, hm])
    have hpick : (rows.take src.batchRows.toNat).flatMap
        (RowTableSource.picked (RowCodec.outPos src.projection) k 0) =
        columnOf (rows.take src.batchRows.toNat) m := by
      rw [columnOf, List.filterMap_eq_flatMap_toList]
      refine List.flatMap_congr ?_
      intro row _
      exact RowTableSource.picked_last hlast row
    have hcell : Column.ofValues (typeAt src.schema src.projection[k]) (columnOf _ src.projection[k].toNat) =
        es[k].column := congrArg₂ Column.ofValues ht hv
    rw [hpick, ← hcell, hm]
    rfl
  · rw [List.getElem?_eq_none (by omega), List.getElem?_eq_none (by rw [← hes.length_eq]; omega)]
    rfl

def rowSourceRows (src : RowTableSource.Source) (rows : List (List Value)) : List (List Value) :=
  rowsOf (src.projection.map fun field => inBatches src.batchRows.toNat (columnOf rows field.toNat)) rows.length

theorem rowSourceRows_step (hproj : InRange src.schema src.projection) (hb : src.batchRows.toNat ≠ 0)
    (htyped : ∀ row ∈ rows, Typed src.schema row) (hne : rows ≠ []) :
    rowSourceRows src rows = rowsOf (src.projection.map fun field =>
        Column.wrapped (columnOf (rows.take src.batchRows.toNat) field.toNat))
          (rows.take src.batchRows.toNat).length ++ rowSourceRows src (rows.drop src.batchRows.toNat) := by
  have hcols : (src.projection.map fun field => inBatches src.batchRows.toNat (columnOf rows field.toNat)) =
      List.zipWith (· ++ ·)
        (src.projection.map fun field => Column.wrapped (columnOf (rows.take src.batchRows.toNat) field.toNat))
        (src.projection.map fun field =>
          inBatches src.batchRows.toNat (columnOf (rows.drop src.batchRows.toNat) field.toNat)) := by
    rw [List.zipWith_map, List.zipWith_self]
    refine List.map_congr_left ?_
    intro field hfield
    have hk := (hproj field hfield).2
    have hcol : columnOf rows field.toNat ≠ [] := by
      rw [← List.length_pos_iff, length_columnOf htyped hk]
      exact List.length_pos_iff.mpr hne
    rw [inBatches_step hb hcol, columnOf_take htyped hk, columnOf_drop htyped hk]
  have hlen : rows.length = (rows.take src.batchRows.toNat).length + (rows.drop src.batchRows.toNat).length := by
    rw [← List.length_append, List.take_append_drop]
  rw [rowSourceRows, hcols, hlen, rowsOf_zipWith_append]
  · rfl
  · rw [List.length_map, List.length_map]
  · intro vals hv
    obtain ⟨field, hfield, rfl⟩ := List.mem_map.mp hv
    rw [Column.length_wrapped]
    exact length_columnOf (fun row hrow => htyped row (List.mem_of_mem_take hrow)) (hproj field hfield).2

theorem drains_rows (hvalid : ∀ f ∈ src.schema, f.type.isValid = true)
    (hproj : InRange src.schema src.projection) (hnd : src.projection.Nodup) (hb : src.batchRows.toNat ≠ 0)
    (h : Encodes src.schema entries rows) :
    ∃ chunks rowss, Drains (RowTableSource.next src) entries chunks ∧ chunks.mapM Chunk.readRows = .ok rowss ∧
      rowss.flatten = rowSourceRows src rows ∧
        ∀ c ∈ chunks, 0 < c.rowCount ∧ c.rowCount ≤ src.batchRows.toNat := by
  induction hn : rows.length using Nat.strongRecOn generalizing rows entries with
  | ind n ih =>
      have htyped := typed_of_encodes h
      by_cases hne : rows = []
      · subst hne
        obtain rfl := List.forall₂_nil_right_iff.mp h
        exact ⟨[], [], .done rfl, rfl, rfl, nofun⟩
      · obtain ⟨es, hnext, hvals⟩ := next_batch_nodup hvalid hproj hnd h hne
        have hpos := List.length_pos_iff.mpr hne
        obtain ⟨chunks, rowss, hdrain, hread, hflat, hcount⟩ := ih (rows.drop src.batchRows.toNat).length
          (by rw [List.length_drop]; omega) (List.forall₂_drop _ h) rfl
        have hlens : ∀ e ∈ es, e.vals.length = (rows.take src.batchRows.toNat).length := by
          intro e he
          have hmem : e.vals ∈ es.map (·.vals) := List.mem_map_of_mem he
          rw [hvals] at hmem
          obtain ⟨field, hfield, hcol⟩ := List.mem_map.mp hmem
          rw [← hcol]
          exact length_columnOf (fun row hrow => htyped row (List.mem_of_mem_take hrow)) (hproj field hfield).2
        have hwrapped : es.map (·.wrapped.vals) = src.projection.map fun field =>
            Column.wrapped (columnOf (rows.take src.batchRows.toNat) field.toNat) := by
          have h := congrArg (List.map Column.wrapped) hvals
          rwa [List.map_map, List.map_map] at h
        refine ⟨_ :: chunks, rowsOf (es.map (·.wrapped.vals)) (rows.take src.batchRows.toNat).length :: rowss,
          .item hnext hdrain, ?_, ?_, ?_⟩
        · rw [List.mapM_cons, readRows_columns src.projection hlens, hread]
          rfl
        · rw [List.flatten_cons, hflat, hwrapped, ← rowSourceRows_step hproj hb htyped hne]
        · intro c hc
          rcases List.mem_cons.mp hc with rfl | hc
          · dsimp only
            rw [List.length_take]
            omega
          · exact hcount c hc

theorem readCell_new (type : FieldType) (v : Value) : (Column.new type).readCell 0 ≠ .ok v := by
  cases type <;> exact nofun

/-- With a field named twice the earlier of its columns stays empty, and the
first row is read past its end. -/
theorem collects_repeated (hproj : InRange src.schema src.projection) (hrep : ¬ src.projection.Nodup)
    (hb : src.batchRows.toNat ≠ 0) (h : Encodes src.schema entries rows) (hne : rows ≠ []) :
    ∃ e, Collects (RowTableSource.next src) entries (.error e) := by
  obtain ⟨cols, hnext, hcols⟩ := next_batch hproj h hne
  have hpos := List.length_pos_iff.mpr hne
  obtain ⟨k, j, hkj, hj, hsame⟩ : ∃ k j : Nat, k < j ∧ j < src.projection.length ∧
      src.projection[k]? = src.projection[j]? := by
    by_contra hall
    refine hrep (List.nodup_iff_getElem?_ne_getElem?.mpr ?_)
    intro k j hkj hj hsame
    exact hall ⟨k, j, hkj, hj, hsame⟩
  obtain ⟨m, hm⟩ : ∃ m : Nat, src.projection[k]? = some (m : Int) := by
    have hk : k < src.projection.length := by omega
    refine ⟨src.projection[k].toNat, ?_⟩
    rw [List.getElem?_eq_getElem hk, Int.toNat_of_nonneg (hproj _ (List.getElem_mem hk)).1]
  have hhidden : RowCodec.outPos src.projection m ≠ some k := by
    intro hlast
    exact (RowTableSource.outPos_eq_some_iff.mp hlast).2 j hkj (hsame.symm.trans hm)
  have hempty : cols[k]? = some (Column.new (typeAt src.schema m)) := by
    rw [hcols k, hm, List.flatMap_eq_nil_iff.mpr fun row _ => RowTableSource.picked_hidden hm hhidden row]
    rfl
  rcases hread : (Chunk.mk src.projection cols (rows.take src.batchRows.toNat).length).readRows with e | out
  · refine ⟨e, 1, ?_⟩
    simp only [collectProjected, hnext, hread]
  · exfalso
    have hlen : 0 < (rows.take src.batchRows.toNat).length := by
      rw [List.length_take]
      omega
    obtain ⟨row, _, hrow⟩ := exists_of_forall₂ (mapM_ok.mp hread) (List.mem_range.mpr hlen)
    obtain ⟨v, _, hv⟩ := exists_of_forall₂ (mapM_ok.mp hrow) (List.mem_of_getElem? hempty)
    exact readCell_new _ v hv

end RowSide

section ColumnarSide

variable {schema : Schema} {groups : List (List (List Value))}

/-- The values in column `k` of a writer after one chunk for each group. -/
def writtenColumn (groups : List (List (List Value))) (k : Nat) : List Value :=
  groups.flatMap fun rows => Column.wrapped (columnOf rows k)

theorem joinAll_groups {m : Nat} {css : List (List ColumnData)} (F : Nat → List Value)
    (h : List.Forall₂ (fun rows es => es.map (·.vals) = (List.range m).map (columnOf rows)) groups css) :
    Writer.joinAll ((List.range m).map F) css = (List.range m).map fun k => F k ++ writtenColumn groups k := by
  induction h generalizing F with
  | nil =>
      refine List.map_congr_left ?_
      intro k _
      exact (List.append_nil _).symm
  | @cons rows es groups css hes _ ih =>
      have hwrapped : es.map (·.wrapped.vals) = (List.range m).map fun k => Column.wrapped (columnOf rows k) := by
        have h := congrArg (List.map Column.wrapped) hes
        rwa [List.map_map, List.map_map] at h
      have hstep : List.zipWith (· ++ ·) ((List.range m).map F) (es.map (·.wrapped.vals)) =
          (List.range m).map fun k => F k ++ Column.wrapped (columnOf rows k) := by
        rw [hwrapped, List.zipWith_map, List.zipWith_self]
      rw [Writer.joinAll, List.foldl_cons, hstep]
      refine (ih _).trans (List.map_congr_left ?_)
      intro k _
      rw [List.append_assoc]
      rfl

theorem layout_groups {Z : Zlib} (hZ : Z.Inverts) (hschema : schema ≠ [])
    (hvalid : ∀ f ∈ schema, f.type.isValid = true) (htyped : ∀ rows ∈ groups, ∀ row ∈ rows, Typed schema row)
    {compression : CompressionId} {cols : List Column} {file : Bytes}
    (hwrite : Writer.writeAll (Writer.new schema) (groups.map (chunkOf schema)) = .ok cols)
    (hclose : Writer.close Z compression cols = .ok file) :
    ∃ fs : List ColumnData, Layout Z fs groups.flatten.length file ∧ fs.map (·.type) = schema.map (·.type) ∧
      fs.map (·.vals) = (List.range schema.length).map (writtenColumn groups) := by
  obtain ⟨css, hcss⟩ : ∃ css, List.Forall₂ (fun rows es =>
      Writer.Holds (schema.map (·.type)) (chunkOf schema rows) es ∧
        es.map (·.vals) = (List.range schema.length).map (columnOf rows)) groups css :=
    exists_forall₂ fun rows hrows => holds_chunkOf hvalid (htyped rows hrows)
  have hholds : List.Forall₂ (Writer.Holds (schema.map (·.type))) (groups.map (chunkOf schema)) css :=
    List.forall₂_map_left_iff.mpr (hcss.imp fun _ _ h => h.1)
  have hcount : ((groups.map (chunkOf schema)).map (·.rowCount)).sum = groups.flatten.length := by
    rw [List.map_map, List.length_flatten]
    rfl
  obtain ⟨fs, hlayout, hft, hfv⟩ := layout_written hZ hschema hvalid hholds hwrite hclose
  rw [hcount] at hlayout
  refine ⟨fs, hlayout, hft, ?_⟩
  have hzero : (schema.map fun _ => ([] : List Value)) = (List.range schema.length).map fun _ => [] := by
    rw [List.map_const', List.map_const', List.length_range]
  rw [hfv, hzero, joinAll_groups _ (hcss.imp fun _ _ h => h.2)]
  refine List.map_congr_left ?_
  intro k _
  exact List.nil_append _

def fileRows (src : ScanSource) (groups : List (List (List Value))) : List (List Value) :=
  rowsOf (src.projection.map fun field => inBatches src.window.toNat
    (Column.wrapped (Column.wrapped (writtenColumn groups field.toNat)))) groups.flatten.length

theorem collects_file {src : ScanSource} (hZ : src.zlib.Inverts) (hschema : src.schema ≠ [])
    (hvalid : ∀ f ∈ src.schema, f.type.isValid = true)
    (htyped : ∀ rows ∈ groups, ∀ row ∈ rows, Typed src.schema row) (hproj : InRange src.schema src.projection)
    {compression : CompressionId} {cols : List Column} {name file : Bytes}
    (hwrite : Writer.writeAll (Writer.new src.schema) (groups.map (chunkOf src.schema)) = .ok cols)
    (hclose : Writer.close src.zlib compression cols = .ok file) (hstore : src.store name = some file) :
    Collects src.next (src.start [name]) (.ok (fileRows src groups)) := by
  obtain ⟨fs, hlayout, hft, hfv⟩ := layout_groups hZ hschema hvalid htyped hwrite hclose
  obtain ⟨r, hopen, _, hcount, hreading⟩ := openReader_layout hZ hlayout hft hproj
  obtain ⟨chunks, rowss, hdrain, hread, hflat, _, _⟩ :=
    ScanSource.drains_reader hreading [] (show (0 : BitVec 64).toNat ≤ r.rowCount.toNat from Nat.zero_le _)
  have hall : Drains src.next (src.start [name]) chunks := by
    have h := hdrain [] (.done rfl)
    rw [List.append_nil] at h
    exact h.congr (ScanSource.next_opened hstore hopen [])
  have hcols : ((project src.projection fs).map fun d => inBatches src.window.toNat (d.wrapped.wrapped.vals.drop 0)) =
      src.projection.map fun field => inBatches src.window.toNat
        (Column.wrapped (Column.wrapped (writtenColumn groups field.toNat))) := by
    have hproject : (project src.projection fs).map (·.vals) =
        src.projection.map fun field => writtenColumn groups field.toNat := by
      rw [vals_project, hfv]
      refine Eq.trans (List.filterMap_congr ?_) (congrFun List.filterMap_eq_map src.projection)
      intro field hfield
      rw [List.getElem?_map, List.getElem?_range (hproj field hfield).2]
      rfl
    have h := congrArg (List.map fun vals => inBatches src.window.toNat (Column.wrapped (Column.wrapped vals))) hproject
    rwa [List.map_map, List.map_map] at h
  have hrows : rowss.flatten = fileRows src groups := by
    rw [hflat, ScanSource.rowsFrom, fileRows, ← hcols, hcount]
    rfl
  rw [← hrows]
  exact collects_of_drains hall hread

end ColumnarSide

section Agreement

variable {schema : Schema} {groups : List (List (List Value))} {projection : List Int}

theorem columnOf_flatten (groups : List (List (List Value))) (k : Nat) :
    columnOf groups.flatten k = groups.flatMap (columnOf · k) := by
  rw [columnOf, List.filterMap_flatten]
  rfl

theorem writtenColumn_early {k : Nat} (h : Column.Early (columnOf groups.flatten k)) :
    writtenColumn groups k = columnOf groups.flatten k := by
  rw [columnOf_flatten] at h ⊢
  refine List.flatMap_congr ?_
  intro rows hrows
  obtain ⟨before, after, rfl⟩ := List.append_of_mem hrows
  rw [List.flatMap_append, List.flatMap_cons, ← List.append_assoc] at h
  exact Column.wrapped_of_early h.middle

theorem rowSourceRows_eq_fileRows {Z : Zlib} {store : Bytes → Option Bytes} {rowBatch fileBatch : BitVec 64}
    (hrow : rowBatch ≠ 0) (hearly : ∀ field ∈ projection, Column.Early (columnOf groups.flatten field.toNat)) :
    rowSourceRows ⟨schema, projection, rowBatch⟩ groups.flatten =
      fileRows ⟨Z, schema, store, projection, fileBatch⟩ groups := by
  refine congrArg (rowsOf · groups.flatten.length) (List.map_congr_left ?_)
  intro field hfield
  have h := hearly field hfield
  rw [writtenColumn_early h, Column.wrapped_of_early h, Column.wrapped_of_early h,
    inBatches_early (ScanSource.window_pos _) (earlyIn_of_early h)]
  exact inBatches_early (fun h0 => hrow (BitVec.eq_of_toNat_eq h0)) (earlyIn_of_early h)

/-- While the bytes of the projected fields start below `2 ^ 32`, the row source and
the columnar source collect the same rows exactly when no field is projected twice
or there is no row. -/
theorem sources_agree_iff {Z : Zlib} (hZ : Z.Inverts) (hschema : schema ≠ [])
    (hvalid : ∀ f ∈ schema, f.type.isValid = true) (htyped : ∀ row ∈ groups.flatten, Typed schema row)
    (engine : RowTableSource.Engine)
    (hengine : List.Forall₂ (fun kv row => RowCodec.encode schema row = .ok kv.2 ∧
      kv.2.length ≤ Storage.maxValueSize) engine.entries groups.flatten)
    (hproj : InRange schema projection) {rowBatch fileBatch : BitVec 64} (hrow : rowBatch ≠ 0)
    {compression : CompressionId} {cols : List Column} {name file : Bytes} {store : Bytes → Option Bytes}
    (hwrite : Writer.writeAll (Writer.new schema) (groups.map (chunkOf schema)) = .ok cols)
    (hclose : Writer.close Z compression cols = .ok file) (hstore : store name = some file)
    (hearly : ∀ field ∈ projection, Column.Early (columnOf groups.flatten field.toNat)) :
    (∃ out, Collects (RowTableSource.next ⟨schema, projection, rowBatch⟩) engine.entries (.ok out) ∧
        Collects (ScanSource.next ⟨Z, schema, store, projection, fileBatch⟩) ⟨[name], none, 0⟩ (.ok out)) ↔
      projection.Nodup ∨ groups.flatten = [] := by
  have hb : rowBatch.toNat ≠ 0 := fun h0 => hrow (BitVec.eq_of_toNat_eq h0)
  have hencodes : Encodes schema engine.entries groups.flatten := by
    refine List.forall₂_iff_get.mpr ⟨hengine.length_eq, ?_⟩
    intro k hk hk'
    obtain ⟨he, hlen⟩ := (List.forall₂_iff_get.mp hengine).2 k hk hk'
    exact ⟨htyped _ (List.get_mem _ _), he, Nat.lt_of_le_of_lt hlen (by decide)⟩
  have hgroups : ∀ rows ∈ groups, ∀ row ∈ rows, Typed schema row :=
    fun rows hrows row hr => htyped row (List.mem_flatten.mpr ⟨rows, hrows, hr⟩)
  have hcolumnar : Collects (ScanSource.next ⟨Z, schema, store, projection, fileBatch⟩) ⟨[name], none, 0⟩
      (.ok (rowSourceRows ⟨schema, projection, rowBatch⟩ groups.flatten)) := by
    rw [rowSourceRows_eq_fileRows hrow hearly]
    exact collects_file hZ hschema hvalid hgroups hproj hwrite hclose hstore
  constructor
  · rintro ⟨out, hout, _⟩
    by_contra hbad
    obtain ⟨hrep, hne⟩ := not_or.mp hbad
    obtain ⟨e, he⟩ : ∃ e, Collects (RowTableSource.next ⟨schema, projection, rowBatch⟩) engine.entries (.error e) :=
      collects_repeated hproj hrep hb hencodes hne
    cases he.unique hout
  · rintro (hnd | hnil)
    · obtain ⟨chunks, rowss, hdrain, hread, hflat, _⟩ : ∃ chunks rowss,
          Drains (RowTableSource.next ⟨schema, projection, rowBatch⟩) engine.entries chunks ∧ _ :=
        drains_rows hvalid hproj hnd hb hencodes
      refine ⟨_, ?_, hcolumnar⟩
      rw [← hflat]
      exact collects_of_drains hdrain hread
    · refine ⟨_, ?_, hcolumnar⟩
      rw [hnil] at hencodes ⊢
      rw [List.forall₂_nil_right_iff.mp hencodes]
      exact ⟨1, rfl⟩

def nameRows : List (List Value) := [[.int32 7, .string (ascii "ann")], [.int32 8, .string []]]

def nameKey (n : Byte) : Bytes := [0, 0, 0, 0, 0, 0, 0, n]

def nameEngine : RowTableSource.Engine where
  entries := [(nameKey 1, [7, 0, 0, 0, 3, 0, 0, 0, 97, 110, 110]), (nameKey 2, [8, 0, 0, 0, 0, 0, 0, 0])]
  ascending := by decide

theorem sources_agree_names :
    ∃ out, Collects (RowTableSource.next ⟨nameSchema, [1, 0], 1⟩) nameEngine.entries (.ok out) ∧
      Collects (ScanSource.next ⟨storedZlib, nameSchema, nameStore, [1, 0], 5⟩) ⟨[[]], none, 0⟩
        (.ok out) := by
  have htyped : ∀ row ∈ ([nameRows] : List (List (List Value))).flatten, Typed nameSchema row := by
    intro row hrow
    rcases List.mem_pair.mp hrow with rfl | rfl
    · exact .cons rfl (.cons rfl .nil)
    · exact .cons rfl (.cons rfl .nil)
  have hproj : InRange nameSchema [1, 0] := by
    unfold InRange
    decide
  refine (sources_agree_iff storedZlib_inverts (by decide) (by decide) htyped nameEngine
    (.cons ⟨rfl, by decide⟩ (.cons ⟨rfl, by decide⟩ .nil)) hproj (show (1 : BitVec 64) ≠ 0 by decide)
    (show Writer.writeAll _ ([nameRows].map (chunkOf nameSchema)) = _ from nameFile_written.1)
    nameFile_written.2 (show nameStore [] = some nameFile from rfl) ?_).mpr (.inl (by decide))
  intro field hfield
  refine Column.early_of_small ?_
  rcases List.mem_pair.mp hfield with rfl | rfl <;> decide

set_option maxRecDepth 8000 in
/-- A projection that names the first field twice: the row source reads a
column that was never filled, the columnar source returns the field twice. -/
theorem repeated_field_disagrees :
    Collects (RowTableSource.next ⟨nameSchema, [0, 0], 1⟩) nameEngine.entries (.error .outOfBounds) ∧
      Collects (ScanSource.next ⟨storedZlib, nameSchema, nameStore, [0, 0], 1⟩) ⟨[[]], none, 0⟩
        (.ok [[.int32 7, .int32 7], [.int32 8, .int32 8]]) := ⟨⟨1, rfl⟩, ⟨3, rfl⟩⟩

end Agreement

end DBPlayground.Query
