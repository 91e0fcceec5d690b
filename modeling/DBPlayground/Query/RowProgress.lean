import DBPlayground.Query.SourcesAgree

namespace DBPlayground.Query

open ByteReader Table Cursor Format
open RowCodec (Typed)
open RowTableSource (columnOf Encodes)

variable {src : RowTableSource.Source} {entries : List (Bytes × Bytes)} {rows : List (List Value)}

theorem rowsOf_columnOf (htyped : ∀ row ∈ rows, Typed src.schema row) (hproj : InRange src.schema src.projection) :
    rowsOf (src.projection.map fun field => columnOf rows field.toNat) rows.length =
      rows.map (projectRow src.projection) := by
  refine List.ext_getElem (by simp) ?_
  intro r hr hr'
  rw [List.length_map] at hr'
  simp only [rowsOf, List.getElem_map, List.getElem_range, rowAt, projectRow, List.filterMap_map]
  refine List.filterMap_congr ?_
  intro field hfield
  have hlt : field.toNat < rows[r].length := by
    rw [← (htyped _ (List.getElem_mem hr')).length_eq]
    exact (hproj field hfield).2
  rw [Function.comp_apply, columnOf_eq_map htyped (hproj field hfield).2, List.getElem?_map,
    List.getElem?_eq_getElem hr', Option.map_some, List.getD_eq_getElem?_getD, List.getElem?_eq_getElem hlt]
  rfl

theorem rowSourceRows_early (htyped : ∀ row ∈ rows, Typed src.schema row)
    (hproj : InRange src.schema src.projection) (hb : src.batchRows.toNat ≠ 0)
    (hearly : ∀ field ∈ src.projection, EarlyIn src.batchRows.toNat (columnOf rows field.toNat)) :
    rowSourceRows src rows = rows.map (projectRow src.projection) := by
  rw [← rowsOf_columnOf htyped hproj]
  refine congrArg (rowsOf · rows.length) (List.map_congr_left ?_)
  intro field hfield
  exact inBatches_early hb (hearly field hfield)

theorem not_drains_zero (src : RowTableSource.Source) (hproj : InRange src.schema src.projection) (hb : src.batchRows = 0)
    (h : Encodes src.schema entries rows) (hne : rows ≠ []) (chunks : List Chunk) :
    ¬ Drains (RowTableSource.next src) entries chunks := by
  obtain ⟨cols, hnext, _⟩ := next_batch hproj h hne
  rw [hb, show (0 : BitVec 64).toNat = 0 from rfl, List.drop_zero] at hnext
  intro hdrain
  generalize hs : entries = s at hdrain
  induction hdrain with
  | done hn =>
      subst hs
      cases hnext.symm.trans hn
  | item hn _ ih =>
      subst hs
      cases hnext.symm.trans hn
      exact ih rfl

/-- While in each batch the bytes of the projected fields start below `2 ^ 32`, a scan
of the row source comes to an end, with batches of at least one row and at most as many
as asked for, and yields the projected rows in the order of the keys, exactly when there
is no row or the batches are not empty. -/
theorem scan_progress_iff (src : RowTableSource.Source) (engine : RowTableSource.Engine)
    (h : Encodes src.schema engine.entries rows) (hvalid : ∀ f ∈ src.schema, f.type.isValid = true)
    (hproj : InRange src.schema src.projection) (hnd : src.projection.Nodup)
    (hearly : ∀ field ∈ src.projection, EarlyIn src.batchRows.toNat (columnOf rows field.toNat)) :
    (∃ chunks rowss, Drains (RowTableSource.next src) engine.entries chunks ∧
        (∀ c ∈ chunks, 1 ≤ c.rowCount ∧ c.rowCount ≤ max src.batchRows.toNat 1) ∧
        chunks.mapM Chunk.readRows = .ok rowss ∧ rowss.flatten = rows.map (projectRow src.projection)) ↔
      engine.entries = [] ∨ src.batchRows ≠ 0 := by
  constructor
  · rintro ⟨chunks, _, hdrain, _⟩
    by_contra hbad
    obtain ⟨hentries, hb⟩ := not_or.mp hbad
    have hne : rows ≠ [] := by
      rintro rfl
      exact hentries (List.forall₂_nil_right_iff.mp h)
    exact not_drains_zero src hproj (not_not.mp hb) h hne chunks hdrain
  · rintro (hnil | hb)
    · rw [hnil] at h ⊢
      obtain rfl := List.forall₂_nil_left_iff.mp h
      exact ⟨[], [], .done rfl, fun _ hc => absurd hc List.not_mem_nil, rfl, rfl⟩
    · have hb' : src.batchRows.toNat ≠ 0 := fun h0 => hb (BitVec.eq_of_toNat_eq h0)
      obtain ⟨chunks, rowss, hdrain, hread, hflat, hcount⟩ := drains_rows hvalid hproj hnd hb' h
      refine ⟨chunks, rowss, hdrain, fun c hc => ?_, hread,
        hflat.trans (rowSourceRows_early (typed_of_encodes h) hproj hb' hearly)⟩
      obtain ⟨hpos, hle⟩ := hcount c hc
      exact ⟨hpos, Nat.le_trans hle (Nat.le_max_left _ _)⟩

theorem inRange_names : InRange nameSchema [1, 0] := by
  unfold InRange
  decide

theorem encodes_names : Encodes nameSchema nameEngine.entries nameRows :=
  .cons ⟨.cons rfl (.cons rfl .nil), rfl, by decide⟩ (.cons ⟨.cons rfl (.cons rfl .nil), rfl, by decide⟩ .nil)

/-- Two rows in batches of one. -/
theorem scan_progress_names :
    ∃ chunks rowss, Drains (RowTableSource.next ⟨nameSchema, [1, 0], 1⟩) nameEngine.entries chunks ∧
      (∀ c ∈ chunks, 1 ≤ c.rowCount ∧ c.rowCount ≤ max (1 : BitVec 64).toNat 1) ∧
      chunks.mapM Chunk.readRows = .ok rowss ∧ rowss.flatten = nameRows.map (projectRow [1, 0]) := by
  refine (scan_progress_iff ⟨nameSchema, [1, 0], 1⟩ nameEngine encodes_names (by decide) inRange_names
    (by decide) ?_).mpr (.inr (by decide))
  intro field hfield
  refine earlyIn_of_early (Column.early_of_small ?_)
  rcases List.mem_pair.mp hfield with rfl | rfl <;> decide

/-- A source set up with batches of no rows never ends. -/
theorem scan_without_progress :
    ¬ ∃ chunks, Drains (RowTableSource.next ⟨nameSchema, [1, 0], 0⟩) nameEngine.entries chunks := by
  rintro ⟨chunks, hdrain⟩
  exact not_drains_zero ⟨nameSchema, [1, 0], 0⟩ inRange_names rfl encodes_names (by decide) chunks hdrain

end DBPlayground.Query
