import DBPlayground.Format.ReadBack

namespace DBPlayground.Format

open ByteReader Table Cursor

/-- The values of a column after they went through columns of at most `w`
values each. -/
def inBatches (w : Nat) (vals : List Value) : List Value :=
  if _h : vals = [] ∨ w = 0 then [] else Column.wrapped (vals.take w) ++ inBatches w (vals.drop w)
termination_by vals.length
decreasing_by
  obtain ⟨hne, hw⟩ := not_or.mp _h
  have := List.length_pos_iff.mpr hne
  rw [List.length_drop]
  omega

variable {w : Nat} {vals : List Value}

theorem inBatches_nil (w : Nat) : inBatches w [] = [] := by
  rw [inBatches, dif_pos (.inl rfl)]

theorem inBatches_step (hw : w ≠ 0) (hne : vals ≠ []) :
    inBatches w vals = Column.wrapped (vals.take w) ++ inBatches w (vals.drop w) := by
  rw [inBatches, dif_neg (not_or.mpr ⟨hne, hw⟩)]

/-- `Column.Early` in each batch of `w` values: `i % w` of them come before the value `i`. -/
def EarlyIn (w : Nat) (vals : List Value) : Prop :=
  ∀ i, (hi : i < vals.length) → vals[i].asString.length < 2 ^ 32 ∧
    (vals[i].asString ≠ [] → (Column.strings ((vals.take i).drop (i - i % w))).length < 2 ^ 32)

theorem EarlyIn.take (h : EarlyIn w vals) : Column.Early (vals.take w) := by
  intro i hi
  rw [List.length_take] at hi
  obtain ⟨hlen, hstart⟩ := h i (by omega)
  rw [Nat.mod_eq_of_lt (by omega), Nat.sub_self, List.drop_zero] at hstart
  rw [List.getElem_take, List.take_take, Nat.min_eq_left (by omega)]
  exact ⟨hlen, hstart⟩

theorem EarlyIn.drop (h : EarlyIn w vals) : EarlyIn w (vals.drop w) := by
  intro i hi
  rw [List.length_drop] at hi
  obtain ⟨hlen, hstart⟩ := h (w + i) (by omega)
  have hmod := Nat.mod_le i w
  rw [Nat.add_mod_left, Nat.add_sub_assoc hmod, ← List.drop_drop, List.drop_take, Nat.add_sub_cancel_left] at hstart
  rw [List.getElem_drop]
  exact ⟨hlen, hstart⟩

theorem inBatches_early (hw : w ≠ 0) (h : EarlyIn w vals) : inBatches w vals = vals := by
  induction hn : vals.length using Nat.strongRecOn generalizing vals with
  | ind n ih =>
      by_cases hne : vals = []
      · rw [hne, inBatches_nil]
      · have hpos := List.length_pos_iff.mpr hne
        rw [inBatches_step hw hne, Column.wrapped_of_early h.take,
          ih (vals.drop w).length (by rw [List.length_drop]; omega) h.drop rfl, List.take_append_drop]

theorem earlyIn_of_early (h : Column.Early vals) : EarlyIn w vals := by
  intro i hi
  refine ⟨(h i hi).1, fun hne => Nat.lt_of_le_of_lt ?_ ((h i hi).2 hne)⟩
  have hsplit := congrArg List.length
    (Column.strings_append ((vals.take i).take (i - i % w)) ((vals.take i).drop (i - i % w)))
  rw [List.take_append_drop, List.length_append] at hsplit
  omega

theorem inBatches_small (hw : w ≠ 0) (hlen : (Column.strings vals).length < 2 ^ 32) : inBatches w vals = vals :=
  inBatches_early hw (earlyIn_of_early (Column.early_of_small hlen))

namespace ScanSource

variable {src : ScanSource} {ds : List ColumnData} {r : FileReader}

theorem window_pos (src : ScanSource) : src.window.toNat ≠ 0 := by
  rw [window]
  split
  · decide
  · rename_i h
    exact fun h0 => h (BitVec.eq_of_toNat_eq h0)

theorem nextWindow_reading (h : Reading src.zlib ds r) (files : List Bytes) {pos : BitVec 64} {n : Nat}
    (hpos : pos.toNat < r.rowCount.toNat) (hn : n = min src.window.toNat (r.rowCount.toNat - pos.toNat)) :
    ∃ r' pos', src.nextWindow files r pos =
        (.ok (some ⟨r.projection, ds.map fun d => (d.window pos.toNat n).column, n⟩), ⟨files, some r', pos'⟩) ∧
      Reading src.zlib ds r' ∧ r'.projection = r.projection ∧ r'.rowCount = r.rowCount ∧
      pos'.toNat = pos.toNat + n := by
  have hsub : (r.rowCount - pos).toNat = r.rowCount.toNat - pos.toNat :=
    BitVec.toNat_sub_of_le (Nat.le_of_lt hpos)
  have hw := src.window_pos
  generalize hm : (if src.window < r.rowCount - pos then src.window else r.rowCount - pos) = m
  have hmn : m.toNat = n := by rw [hn, ← hm, toNat_min, hsub]
  have hm0 : m ≠ 0 := by
    rintro rfl
    have hzero : n = 0 := hmn.symm
    omega
  obtain ⟨r', hread, hr', hproj, hcount⟩ := readRange_rows h hpos hm0 (show n = min m.toNat _ by omega)
  refine ⟨r', pos + m, ?_, hr', hproj, hcount, ?_⟩
  · rw [nextWindow, hm, hread]
  · have := r.rowCount.isLt
    rw [BitVec.toNat_add, hmn, Nat.mod_eq_of_lt (by omega)]

/-- The rows of a file from a position on, as they come out of the cursor's
windows. -/
def rowsFrom (src : ScanSource) (ds : List ColumnData) (pos count : Nat) : List (List Value) :=
  rowsOf (ds.map fun d => inBatches src.window.toNat (d.wrapped.wrapped.vals.drop pos)) count

theorem rowsFrom_step (src : ScanSource) {ds : List ColumnData} {rows pos n : Nat}
    (hlens : ∀ d ∈ ds, d.vals.length = rows) (hpos : pos < rows) (hn : n = min src.window.toNat (rows - pos)) :
    src.rowsFrom ds pos (rows - pos) =
      rowsOf (ds.map fun d => (d.window pos n).wrapped.vals) n ++ src.rowsFrom ds (pos + n) (rows - (pos + n)) := by
  have hw := src.window_pos
  have hlen : ∀ d ∈ ds, d.wrapped.wrapped.vals.length = rows := by
    intro d hd
    rw [ColumnData.length_wrapped, ColumnData.length_wrapped, hlens d hd]
  have hcols : (ds.map fun d => inBatches src.window.toNat (d.wrapped.wrapped.vals.drop pos)) =
      List.zipWith (· ++ ·) (ds.map fun d => (d.window pos n).wrapped.vals)
        (ds.map fun d => inBatches src.window.toNat (d.wrapped.wrapped.vals.drop (pos + n))) := by
    rw [List.zipWith_map, List.zipWith_self]
    refine List.map_congr_left ?_
    intro d hd
    have hne : d.wrapped.wrapped.vals.drop pos ≠ [] := by
      rw [ne_eq, List.drop_eq_nil_iff, hlen d hd]
      omega
    have htake : (d.wrapped.wrapped.vals.drop pos).take src.window.toNat =
        (d.wrapped.wrapped.vals.drop pos).take n := by
      rw [List.take_eq_take_iff, List.length_drop, hlen d hd]
      omega
    have hdrop : (d.wrapped.wrapped.vals.drop pos).drop src.window.toNat =
        d.wrapped.wrapped.vals.drop (pos + n) := by
      rw [List.drop_drop]
      by_cases hle : src.window.toNat ≤ rows - pos
      · rw [show n = src.window.toNat by omega]
      · rw [List.drop_eq_nil_of_le (by rw [hlen d hd]; omega), List.drop_eq_nil_of_le (by rw [hlen d hd]; omega)]
    rw [inBatches_step hw hne, htake, hdrop]
    rfl
  rw [rowsFrom, hcols, show rows - pos = n + (rows - (pos + n)) by omega, rowsOf_zipWith_append]
  · rfl
  · rw [List.length_map, List.length_map]
  · intro vals hv
    obtain ⟨d, hd, rfl⟩ := List.mem_map.mp hv
    rw [ColumnData.length_wrapped]
    refine ColumnData.length_slice ?_
    rw [hlen d hd]
    omega

theorem drains_reader (h : Reading src.zlib ds r) (files : List Bytes) {pos : BitVec 64}
    (hpos : pos.toNat ≤ r.rowCount.toNat) :
    ∃ chunks rows, (∀ rest, Drains src.next ⟨files, none, 0⟩ rest →
        Drains src.next ⟨files, some r, pos⟩ (chunks ++ rest)) ∧
      chunks.mapM Chunk.readRows = .ok rows ∧
      rows.flatten = src.rowsFrom ds pos.toNat (r.rowCount.toNat - pos.toNat) ∧
      (chunks.map (·.rowCount)).sum = r.rowCount.toNat - pos.toNat ∧
      ∀ chunk ∈ chunks, chunk.columnIds = r.projection ∧ 1 ≤ chunk.rowCount ∧
        chunk.rowCount ≤ src.window.toNat := by
  induction hleft : r.rowCount.toNat - pos.toNat using Nat.strongRecOn generalizing r pos with
  | ind left ih =>
      by_cases hend : r.rowCount.toNat ≤ pos.toNat
      · have hleft0 : left = 0 := by omega
        subst hleft0
        refine ⟨[], [], ?_, rfl, rfl, rfl, nofun⟩
        intro rest hrest
        refine Drains.congr ?_ hrest
        rw [next, next]
        exact (if_pos hend).symm
      · have hw := src.window_pos
        obtain ⟨n, hn⟩ : ∃ n, n = min src.window.toNat (r.rowCount.toNat - pos.toNat) := ⟨_, rfl⟩
        obtain ⟨r', pos', hnext, hr', hproj, hcount, hpos'⟩ := nextWindow_reading h files (by omega) hn
        have hrows' : r'.rowCount.toNat = r.rowCount.toNat := by rw [hcount]
        obtain ⟨chunks, rows, hdrain, hread, hflat, hsum, hall⟩ :=
          ih (left - n) (by omega) hr' (show pos'.toNat ≤ r'.rowCount.toNat by omega) (by omega)
        have hfirst : (Chunk.mk r.projection (ds.map fun d => (d.window pos.toNat n).column) n).readRows =
            .ok (rowsOf (ds.map fun d => (d.window pos.toNat n).wrapped.vals) n) := by
          have hlens : ∀ e ∈ ds.map fun d => d.window pos.toNat n, e.vals.length = n := by
            intro e he
            obtain ⟨d, hd, rfl⟩ := List.mem_map.mp he
            refine ColumnData.length_slice ?_
            rw [ColumnData.length_wrapped, ColumnData.length_wrapped, h.lengths d hd]
            omega
          have hrows := readRows_columns r.projection hlens
          rw [List.map_map, List.map_map] at hrows
          exact hrows
        refine ⟨⟨r.projection, ds.map fun d => (d.window pos.toNat n).column, n⟩ :: chunks,
          rowsOf (ds.map fun d => (d.window pos.toNat n).wrapped.vals) n :: rows, ?_, ?_, ?_, ?_, ?_⟩
        · intro rest hrest
          refine Drains.item ?_ (hdrain rest hrest)
          rw [next]
          exact (if_neg hend).trans hnext
        · rw [List.mapM_cons, hfirst, hread]
          rfl
        · have hstep := src.rowsFrom_step h.lengths (by omega) hn
          rw [hleft, show r.rowCount.toNat - (pos.toNat + n) = left - n by omega, ← hpos', ← hflat] at hstep
          rw [List.flatten_cons, hstep]
        · rw [List.map_cons, List.sum_cons, hsum]
          show n + _ = _
          omega
        · intro chunk hchunk
          rcases List.mem_cons.mp hchunk with rfl | hchunk
          · refine ⟨rfl, ?_, ?_⟩
            · show 1 ≤ n
              omega
            · show n ≤ _
              omega
          · rw [← hproj]
            exact hall chunk hchunk

theorem next_missing {file : Bytes} (h : src.store file = none) (files : List Bytes) :
    src.next ⟨files, none, 0⟩ = src.next ⟨file :: files, none, 0⟩ := by
  show _ = src.nextFile (file :: files)
  rw [nextFile, h]
  rfl

theorem next_opened {file bytes : Bytes} (h : src.store file = some bytes)
    (hopen : openReader src.schema bytes src.projection = .ok r) (files : List Bytes) :
    src.next ⟨files, some r, 0⟩ = src.next ⟨file :: files, none, 0⟩ := by
  have hzero : r.rowCount ≤ 0 ↔ r.rowCount = 0 := by
    constructor
    · intro hle
      exact BitVec.eq_of_toNat_eq (Nat.le_zero.mp hle)
    · intro heq
      exact BitVec.le_of_eq heq
  show _ = src.nextFile (file :: files)
  rw [nextFile, h]
  dsimp only
  rw [hopen]
  show (if r.rowCount ≤ 0 then _ else _) = if r.rowCount = 0 then _ else _
  simp only [hzero]

end ScanSource

end DBPlayground.Format
