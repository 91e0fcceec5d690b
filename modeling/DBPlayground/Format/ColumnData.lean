import DBPlayground.Format.Columnar
import Mathlib.Data.List.Zip

namespace DBPlayground.Format

open ByteReader Table

@[ext] structure ColumnData where
  type : FieldType
  vals : List Value
  valid : type.isValid = true
  typed : ∀ v ∈ vals, v.hasType type = true

namespace ColumnData

def column (d : ColumnData) : Column := Column.ofValues d.type d.vals

def wrapped (d : ColumnData) : ColumnData :=
  ⟨d.type, Column.wrapped d.vals, d.valid, Column.hasType_wrapped d.typed⟩

def slice (d : ColumnData) (first count : Nat) : ColumnData :=
  ⟨d.type, (d.vals.drop first).take count, d.valid,
    fun v hv => d.typed v (List.mem_of_mem_drop (List.mem_of_mem_take hv))⟩

@[simp] theorem type_column (d : ColumnData) : d.column.type = d.type := Column.type_ofValues

@[simp] theorem size_column (d : ColumnData) : d.column.size = d.vals.length := Column.size_ofValues

@[simp] theorem length_wrapped (d : ColumnData) : d.wrapped.vals.length = d.vals.length := Column.length_wrapped _

theorem vals_slice (d : ColumnData) (first count : Nat) :
    (d.slice first count).vals = (d.vals.drop first).take count := rfl

theorem length_slice {d : ColumnData} {first count : Nat} (h : first + count ≤ d.vals.length) :
    (d.slice first count).vals.length = count := by
  rw [slice, List.length_take, List.length_drop]
  omega

theorem readRangeAs_column (d : ColumnData) (e : Exn) {first count : Nat} (h : first + count ≤ d.vals.length) :
    d.column.readRangeAs e d.type first count = .ok (d.wrapped.slice first count).vals :=
  Column.readRangeAs_ofValues d.valid d.typed h

theorem appendRange_column {d e : ColumnData} (ht : d.type = e.type) {first count : Nat}
    (h : first + count ≤ e.vals.length) :
    appendRange d.column e.column first count =
      .ok (Column.ofValues d.type (d.vals ++ (e.wrapped.slice first count).vals)) := by
  rw [appendRange, type_column, ht, readRangeAs_column e _ h, ← ht]
  exact congrArg Except.ok (Column.appendAll_ofValues d.type d.vals _)

theorem exists_append {d e : ColumnData} (ht : d.type = e.type) :
    ∃ f : ColumnData, f.type = d.type ∧ f.vals = d.vals ++ e.vals := by
  refine ⟨⟨d.type, d.vals ++ e.vals, d.valid, ?_⟩, rfl, rfl⟩
  intro v hv
  rcases List.mem_append.mp hv with hv | hv
  · exact d.typed v hv
  · rw [ht]
    exact e.typed v hv

theorem readCell_column (d : ColumnData) {r : Nat} (hr : r < d.wrapped.vals.length) :
    d.column.readCell r = .ok d.wrapped.vals[r] := by
  rw [Column.readCell, type_column]
  exact Column.readAs_ofValues d.typed (by rwa [length_wrapped] at hr) hr

end ColumnData

def rowAt (cols : List (List Value)) (r : Nat) : List Value := cols.filterMap (·[r]?)

def rowsOf (cols : List (List Value)) (count : Nat) : List (List Value) := (List.range count).map (rowAt cols)

def projectRow (projection : List Int) (row : List Value) : List Value :=
  projection.filterMap fun field => row[field.toNat]?

@[simp] theorem length_rowsOf (cols : List (List Value)) (count : Nat) : (rowsOf cols count).length = count := by
  rw [rowsOf, List.length_map, List.length_range]

theorem rowAt_cons {vals : List Value} {cols : List (List Value)} {r : Nat} (hr : r < vals.length) :
    rowAt (vals :: cols) r = vals[r] :: rowAt cols r := by
  rw [rowAt, List.filterMap_cons, List.getElem?_eq_getElem hr]
  rfl

theorem getElem?_rowAt {cols : List (List Value)} {r : Nat} (h : ∀ vals ∈ cols, r < vals.length) (k : Nat) :
    (rowAt cols r)[k]? = cols[k]?.bind (·[r]?) := by
  induction cols generalizing k with
  | nil => rfl
  | cons vals cols ih =>
      have hr := h vals List.mem_cons_self
      rw [rowAt_cons hr]
      cases k with
      | zero =>
          rw [List.getElem?_cons_zero, List.getElem?_cons_zero, Option.bind_some, List.getElem?_eq_getElem hr]
      | succ k =>
          rw [List.getElem?_cons_succ, List.getElem?_cons_succ,
            ih (fun vals hv => h vals (List.mem_cons_of_mem _ hv))]

theorem rowAt_project {cols : List (List Value)} {r : Nat} (h : ∀ vals ∈ cols, r < vals.length)
    (projection : List Int) :
    rowAt (projection.filterMap fun field => cols[field.toNat]?) r = projectRow projection (rowAt cols r) := by
  rw [rowAt, List.filterMap_filterMap]
  refine List.filterMap_congr ?_
  intro field _
  rw [getElem?_rowAt h]

theorem rowAt_zipWith_append_left {cols more : List (List Value)} {n r : Nat} (hlen : cols.length = more.length)
    (hc : ∀ vals ∈ cols, vals.length = n) (hr : r < n) :
    rowAt (List.zipWith (· ++ ·) cols more) r = rowAt cols r := by
  induction cols generalizing more with
  | nil => rfl
  | cons vals cols ih =>
      cases more with
      | nil => cases hlen
      | cons ws more =>
          have hv : vals.length = n := hc vals List.mem_cons_self
          rw [List.zipWith_cons_cons, rowAt_cons (by rw [List.length_append]; omega), rowAt_cons (by omega),
            List.getElem_append_left (by omega), ih (Nat.succ.inj hlen)
            (fun vals h => hc vals (List.mem_cons_of_mem _ h))]

theorem rowAt_zipWith_append_right {cols more : List (List Value)} {n : Nat} (hlen : cols.length = more.length)
    (hc : ∀ vals ∈ cols, vals.length = n) (r : Nat) :
    rowAt (List.zipWith (· ++ ·) cols more) (n + r) = rowAt more r := by
  induction cols generalizing more with
  | nil =>
      cases more with
      | nil => rfl
      | cons ws more => cases hlen
  | cons vals cols ih =>
      cases more with
      | nil => cases hlen
      | cons ws more =>
          have hv : vals.length = n := hc vals List.mem_cons_self
          have hget : (vals ++ ws)[n + r]? = ws[r]? := by
            rw [List.getElem?_append_right (by omega), hv, Nat.add_sub_cancel_left]
          have htail := ih (Nat.succ.inj hlen) (fun vals h => hc vals (List.mem_cons_of_mem _ h))
          simp only [rowAt, List.zipWith_cons_cons, List.filterMap_cons, hget] at htail ⊢
          rw [htail]

theorem rowsOf_zipWith_append {cols more : List (List Value)} {n m : Nat} (hlen : cols.length = more.length)
    (hc : ∀ vals ∈ cols, vals.length = n) :
    rowsOf (List.zipWith (· ++ ·) cols more) (n + m) = rowsOf cols n ++ rowsOf more m := by
  rw [rowsOf, List.range_add, List.map_append, List.map_map]
  congr 1
  · refine List.map_congr_left ?_
    intro r hr
    exact rowAt_zipWith_append_left hlen hc (List.mem_range.mp hr)
  · refine List.map_congr_left ?_
    intro r _
    exact rowAt_zipWith_append_right hlen hc r

theorem rowsOf_slice (cols : List (List Value)) {first count n : Nat} (h : first + count ≤ n) :
    rowsOf (cols.map fun vals => (vals.drop first).take count) count = ((rowsOf cols n).drop first).take count := by
  refine List.ext_getElem ?_ ?_
  · rw [length_rowsOf, List.length_take, List.length_drop, length_rowsOf]
    omega
  · intro r hr _
    have hr' : r < count := by rwa [length_rowsOf] at hr
    rw [List.getElem_take, List.getElem_drop]
    simp only [rowsOf, List.getElem_map, List.getElem_range, rowAt, List.filterMap_map]
    refine List.filterMap_congr ?_
    intro vals _
    rw [Function.comp_apply, List.getElem?_take_of_lt hr', List.getElem?_drop]

theorem readRows_columns (ids : List Int) {ds : List ColumnData} {n : Nat} (hn : ∀ d ∈ ds, d.vals.length = n) :
    (Chunk.mk ids (ds.map ColumnData.column) n).readRows = .ok (rowsOf (ds.map (·.wrapped.vals)) n) := by
  refine mapM_of_forall ?_
  intro r hr
  have hr' : r < n := List.mem_range.mp hr
  refine mapM_ok.mpr ?_
  show List.Forall₂ _ (ds.map ColumnData.column) _
  clear hr
  induction ds with
  | nil => exact .nil
  | cons d ds ih =>
      have hd : r < d.wrapped.vals.length := by
        rw [ColumnData.length_wrapped, hn d List.mem_cons_self]
        exact hr'
      rw [List.map_cons, List.map_cons, rowAt_cons hd]
      exact .cons (d.readCell_column hd) (ih fun e he => hn e (List.mem_cons_of_mem d he))

namespace Writer

theorem appendColumns_columns {ds es : List ColumnData} (ht : es.map (·.type) = ds.map (·.type)) :
    ∃ fs : List ColumnData, appendColumns (ds.map ColumnData.column) (es.map ColumnData.column) =
        .ok (fs.map ColumnData.column) ∧ fs.map (·.type) = ds.map (·.type) ∧
      fs.map (·.vals) = List.zipWith (· ++ ·) (ds.map (·.vals)) (es.map (·.wrapped.vals)) := by
  induction ds generalizing es with
  | nil =>
      cases es with
      | nil => exact ⟨[], rfl, rfl, rfl⟩
      | cons e es => cases ht
  | cons d ds ih =>
      cases es with
      | nil => cases ht
      | cons e es =>
          obtain ⟨hde, hts⟩ := List.cons.inj ht
          obtain ⟨fs, hfs, htypes, hvals⟩ := ih hts
          obtain ⟨f, hft, hfv⟩ : ∃ f : ColumnData, f.type = d.type ∧ f.vals = d.vals ++ e.wrapped.vals :=
            ColumnData.exists_append hde.symm
          have hwhole : (e.wrapped.slice 0 e.column.size).vals = e.wrapped.vals := by
            rw [ColumnData.vals_slice, List.drop_zero, ColumnData.size_column, ← ColumnData.length_wrapped,
              List.take_length]
          have hhead : appendRange d.column e.column 0 e.column.size = .ok f.column := by
            rw [ColumnData.appendRange_column hde.symm (by rw [ColumnData.size_column, Nat.zero_add]), hwhole,
              ColumnData.column, hft, hfv]
          refine ⟨f :: fs, ?_, ?_, ?_⟩
          · rw [List.map_cons, List.map_cons, appendColumns, hhead, hfs]
            rfl
          · rw [List.map_cons, List.map_cons, hft, htypes]
          · rw [List.map_cons, List.map_cons, List.map_cons, List.zipWith_cons_cons, hvals, hfv]

def Holds (types : List FieldType) (chunk : Chunk) (es : List ColumnData) : Prop :=
  chunk.columns = es.map ColumnData.column ∧ es.map (·.type) = types ∧ ∀ e ∈ es, e.vals.length = chunk.rowCount

def joinAll (cols : List (List Value)) (css : List (List ColumnData)) : List (List Value) :=
  css.foldl (fun cols es => List.zipWith (· ++ ·) cols (es.map (·.wrapped.vals))) cols

theorem writeAll_columns {types : List FieldType} {chunks : List Chunk} {css : List (List ColumnData)}
    (hcs : List.Forall₂ (Holds types) chunks css) {ds : List ColumnData} (hds : ds.map (·.type) = types) :
    ∃ fs : List ColumnData, writeAll (ds.map ColumnData.column) chunks = .ok (fs.map ColumnData.column) ∧
      fs.map (·.type) = types ∧ fs.map (·.vals) = joinAll (ds.map (·.vals)) css := by
  induction hcs generalizing ds with
  | nil => exact ⟨ds, rfl, hds, rfl⟩
  | @cons chunk es chunks css hchunk _ ih =>
      obtain ⟨hcols, htypes, _⟩ := hchunk
      obtain ⟨fs, hfs, hft, hfv⟩ := appendColumns_columns (htypes.trans hds.symm)
      obtain ⟨gs, hgs, hgt, hgv⟩ := ih (hft.trans hds)
      have hlen : chunk.columns.length = (ds.map ColumnData.column).length := by
        have h := congrArg List.length (htypes.trans hds.symm)
        rw [List.length_map, List.length_map] at h
        rw [hcols, List.length_map, List.length_map, h]
      have hwrite : write (ds.map ColumnData.column) chunk = .ok (fs.map ColumnData.column) := by
        rw [write, hcols, hfs, ← hcols, throwIf, if_neg (not_not_intro hlen)]
        rfl
      refine ⟨gs, ?_, hgt, ?_⟩
      · rw [writeAll, List.foldlM_cons, hwrite]
        exact hgs
      · rw [hgv, hfv]
        rfl

theorem rowsOf_joinAll {types : List FieldType} {chunks : List Chunk} {css : List (List ColumnData)}
    (hcs : List.Forall₂ (Holds types) chunks css) {cols : List (List Value)} {n : Nat}
    (hlen : cols.length = types.length) (hn : ∀ vals ∈ cols, vals.length = n) :
    ∃ rows, chunks.mapM Chunk.readRows = .ok rows ∧
      rowsOf (joinAll cols css) (n + (chunks.map (·.rowCount)).sum) = rowsOf cols n ++ rows.flatten ∧
      ∀ vals ∈ joinAll cols css, vals.length = n + (chunks.map (·.rowCount)).sum := by
  induction hcs generalizing cols n with
  | nil =>
      refine ⟨[], rfl, ?_, ?_⟩
      · rw [List.flatten_nil, List.append_nil]
        rfl
      · exact hn
  | @cons chunk es chunks css hchunk _ ih =>
      obtain ⟨hcols, htypes, hrows⟩ := hchunk
      have hes : es.length = types.length := by rw [← htypes, List.length_map]
      have hlen' : cols.length = (es.map (·.wrapped.vals)).length := by rw [List.length_map, hes, hlen]
      have hjoin : ∀ vals ∈ List.zipWith (· ++ ·) cols (es.map (·.wrapped.vals)),
          vals.length = n + chunk.rowCount := by
        intro vals hv
        obtain ⟨k, hk, rfl⟩ := List.getElem_of_mem hv
        have hk' : k < cols.length ∧ k < es.length := by
          rw [List.length_zipWith, List.length_map] at hk
          omega
        rw [List.getElem_zipWith, List.getElem_map, List.length_append, ColumnData.length_wrapped,
          hn _ (List.getElem_mem hk'.1), hrows _ (List.getElem_mem hk'.2)]
      obtain ⟨rows, hrd, hjn, hl⟩ := ih (by rw [List.length_zipWith, ← hlen', Nat.min_self, hlen]) hjoin
      have hread : chunk.readRows = .ok (rowsOf (es.map (·.wrapped.vals)) chunk.rowCount) := by
        have h := readRows_columns chunk.columnIds hrows
        rwa [← hcols] at h
      refine ⟨rowsOf (es.map (·.wrapped.vals)) chunk.rowCount :: rows, ?_, ?_, ?_⟩
      · rw [List.mapM_cons, hread, hrd]
        rfl
      · rw [List.map_cons, List.sum_cons, ← Nat.add_assoc, List.flatten_cons, ← List.append_assoc,
          ← rowsOf_zipWith_append hlen' hn]
        exact hjn
      · rw [List.map_cons, List.sum_cons, ← Nat.add_assoc]
        exact hl

end Writer

end DBPlayground.Format
