import DBPlayground.Cloud.Store
import DBPlayground.Format.RoundTrip
import DBPlayground.Format.ScanFiles
import Mathlib.Algebra.Order.BigOperators.Group.List

namespace DBPlayground.Query

open ByteReader Table Cursor Format Records
open Wire (putAll_ok)

/-- The state of a `CompositeBatchCursor`: the indexed data first, then the
chunks of the snapshot's WALs. -/
structure CompositeCursor where
  readingIndexedData : Bool
  indexedData : ScanCursor
  wal : List Chunk

namespace CloudTableSource

def walColumn (chunk : Chunk) (column : Int) : Except Failure Column :=
  if column < 0 then .error (.threw (.outOfRange "CloudTableSource: invalid projection"))
  else
    match chunk.columns[column.toNat]? with
    | some col => .ok col
    | none => .error (.threw (.outOfRange "CloudTableSource: invalid projection"))

def walNext (projection : List Int) : Next (List Chunk) Failure Chunk
  | [] => (.ok none, [])
  | chunk :: rest =>
    match projection.mapM (walColumn chunk) with
    | .error e => (.error e, rest)
    | .ok cols => (.ok (some ⟨projection, cols, chunk.rowCount⟩), rest)

def next (src : ScanSource) : Next CompositeCursor Failure Chunk := fun c =>
  let wal (indexedData : ScanCursor) :=
    let r := walNext src.projection c.wal
    (r.1, CompositeCursor.mk false indexedData r.2)
  if c.readingIndexedData then
    match src.next c.indexedData with
    | (.error e, indexedData) => (.error e, { c with indexedData := indexedData })
    | (.ok (some chunk), indexedData) => (.ok (some chunk), { c with indexedData := indexedData })
    | (.ok none, indexedData) => wal indexedData
  else wal c.indexedData

def scan (src : ScanSource) (snapshot : Store.TableSnapshot) : CompositeCursor :=
  ⟨true, src.start snapshot.dataFiles, snapshot.walChunks⟩

section Wal

variable {src : ScanSource} {indexedData : ScanCursor} {wal : List Chunk}

def Covered (projection : List Int) (chunk : Chunk) : Prop :=
  ∀ column ∈ projection, 0 ≤ column ∧ column.toNat < chunk.columns.length

instance (projection : List Int) (chunk : Chunk) : Decidable (Covered projection chunk) :=
  inferInstanceAs (Decidable (∀ column ∈ projection, 0 ≤ column ∧ column.toNat < chunk.columns.length))

theorem walColumn_ok {chunk : Chunk} {column : Int} :
    (∃ col, walColumn chunk column = .ok col) ↔ 0 ≤ column ∧ column.toNat < chunk.columns.length := by
  rw [walColumn]
  by_cases h0 : column < 0
  · rw [if_pos h0]
    exact iff_of_false nofun fun h => by omega
  · rw [if_neg h0]
    by_cases hlt : column.toNat < chunk.columns.length
    · rw [List.getElem?_eq_getElem hlt]
      exact iff_of_true ⟨_, rfl⟩ ⟨by omega, hlt⟩
    · rw [List.getElem?_eq_none (by omega)]
      exact iff_of_false nofun fun h => hlt h.2

theorem walColumns_covered {projection : List Int} {chunk : Chunk} :
    (∃ cols, projection.mapM (walColumn chunk) = .ok cols) ↔ Covered projection chunk := by
  constructor
  · rintro ⟨cols, h⟩ column hcolumn
    obtain ⟨col, _, hcol⟩ := exists_of_forall₂ (mapM_ok.mp h) hcolumn
    exact walColumn_ok.mp ⟨col, hcol⟩
  · intro h
    obtain ⟨cols, hcols⟩ := exists_forall₂ fun column hcolumn => walColumn_ok.mpr (h column hcolumn)
    exact ⟨cols, mapM_ok.mpr hcols⟩

theorem next_wal {chunk : Chunk} {cols : List Column} (h : src.projection.mapM (walColumn chunk) = .ok cols) :
    next src ⟨false, indexedData, chunk :: wal⟩ =
      (.ok (some ⟨src.projection, cols, chunk.rowCount⟩), ⟨false, indexedData, wal⟩) := by
  simp only [next, walNext, h]
  rfl

theorem drains_wal (h : ∀ chunk ∈ wal, Covered src.projection chunk) :
    ∃ chunks, Drains (next src) ⟨false, indexedData, wal⟩ chunks ∧
      (chunks.map (·.rowCount)).sum = (wal.map (·.rowCount)).sum := by
  induction wal with
  | nil => exact ⟨[], .done rfl, rfl⟩
  | cons chunk wal ih =>
      obtain ⟨chunks, hdrain, hsum⟩ := ih fun c hc => h c (List.mem_cons_of_mem chunk hc)
      obtain ⟨cols, hcols⟩ := walColumns_covered.mpr (h chunk List.mem_cons_self)
      refine ⟨_ :: chunks, .item (next_wal hcols) hdrain, ?_⟩
      rw [List.map_cons, List.sum_cons, List.map_cons, List.sum_cons, hsum]

theorem throws_wal (h : ∃ chunk ∈ wal, ¬ Covered src.projection chunk) :
    ∃ e, Throws (next src) ⟨false, indexedData, wal⟩ e := by
  induction wal with
  | nil =>
      obtain ⟨chunk, hchunk, _⟩ := h
      cases hchunk
  | cons chunk wal ih =>
      rcases hcols : src.projection.mapM (walColumn chunk) with e | cols
      · refine ⟨e, .now (t := ⟨false, indexedData, wal⟩) ?_⟩
        simp only [next, walNext, hcols]
        rfl
      · have hcovered : Covered src.projection chunk := walColumns_covered.mp ⟨cols, hcols⟩
        obtain ⟨bad, hbad, hnot⟩ := h
        have hrest : bad ∈ wal := (List.mem_cons.mp hbad).resolve_left fun heq => hnot (heq ▸ hcovered)
        obtain ⟨e, he⟩ := ih ⟨bad, hrest, hnot⟩
        exact ⟨e, .later (next_wal hcols) he⟩

theorem next_switch {indexedData' : ScanCursor} (h : src.next indexedData = (.ok none, indexedData')) :
    next src ⟨false, indexedData', wal⟩ = next src ⟨true, indexedData, wal⟩ := by
  simp only [next, h]
  rfl

theorem next_indexed {indexedData' : ScanCursor} {chunk : Chunk}
    (h : src.next indexedData = (.ok (some chunk), indexedData')) :
    next src ⟨true, indexedData, wal⟩ = (.ok (some chunk), ⟨true, indexedData', wal⟩) := by
  simp only [next, h]
  rfl

theorem drains_composite {chunks : List Chunk} (hdata : Drains src.next indexedData chunks)
    (hwal : ∀ chunk ∈ wal, Covered src.projection chunk) :
    ∃ more, Drains (next src) ⟨true, indexedData, wal⟩ (chunks ++ more) ∧
      (more.map (·.rowCount)).sum = (wal.map (·.rowCount)).sum := by
  induction hdata with
  | done h =>
      obtain ⟨more, hmore, hsum⟩ := drains_wal hwal
      exact ⟨more, hmore.congr (next_switch h), hsum⟩
  | item h _ ih =>
      obtain ⟨more, hmore, hsum⟩ := ih
      exact ⟨more, .item (next_indexed h) hmore, hsum⟩

theorem throws_composite {chunks : List Chunk} (hdata : Drains src.next indexedData chunks)
    (hwal : ∃ chunk ∈ wal, ¬ Covered src.projection chunk) :
    ∃ e, Throws (next src) ⟨true, indexedData, wal⟩ e := by
  induction hdata with
  | done h =>
      obtain ⟨e, he⟩ := throws_wal hwal
      exact ⟨e, he.congr (next_switch h)⟩
  | item h _ ih =>
      obtain ⟨e, he⟩ := ih
      exact ⟨e, .later (next_indexed h) he⟩

end Wal

section Files

variable {src : ScanSource}

def presentRows (store : Bytes → Option Bytes) (files : List DataFile) : Nat :=
  (files.map fun f => if (store f.path).isSome then f.rowCount.toNat else 0).sum

theorem drains_files (hZ : src.zlib.Inverts) (hschema : src.schema ≠ [])
    (hvalid : ∀ f ∈ src.schema, f.type.isValid = true) (hproj : InRange src.schema src.projection)
    {files : List DataFile} (hfiles : ∀ f ∈ files, ∀ bytes, src.store f.path = some bytes →
      Written src.zlib src.schema f.rowCount.toNat bytes) :
    ∃ chunks, Drains src.next ⟨files.map (·.path), none, 0⟩ chunks ∧
      (chunks.map (·.rowCount)).sum = presentRows src.store files := by
  induction files with
  | nil => exact ⟨[], .done rfl, rfl⟩
  | cons f files ih =>
      obtain ⟨chunks, hdrain, hsum⟩ := ih fun g hg => hfiles g (List.mem_cons_of_mem f hg)
      rcases hstore : src.store f.path with _ | bytes
      · refine ⟨chunks, hdrain.congr (ScanSource.next_missing hstore _), ?_⟩
        rw [hsum, presentRows, presentRows, List.map_cons, List.sum_cons, hstore]
        exact (Nat.zero_add _).symm
      · obtain ⟨fs, hlayout, hft⟩ := (hfiles f List.mem_cons_self bytes hstore).layout hZ hschema hvalid
        obtain ⟨r, hopen, _, hcount, hreading⟩ := openReader_layout hZ hlayout hft hproj
        obtain ⟨own, _, hown, _, _, hownsum, _⟩ := ScanSource.drains_reader hreading (files.map (·.path))
          (show (0 : BitVec 64).toNat ≤ r.rowCount.toNat from Nat.zero_le _)
        refine ⟨own ++ chunks, (hown chunks hdrain).congr (ScanSource.next_opened hstore hopen _), ?_⟩
        rw [List.map_append, List.sum_append, hsum, hownsum, hcount, presentRows, presentRows, List.map_cons,
          List.sum_cons, hstore]
        rfl

theorem presentRows_eq_iff {store : Bytes → Option Bytes} {files : List DataFile}
    (hrows : ∀ f ∈ files, f.rowCount ≠ 0) :
    presentRows store files = (files.map (·.rowCount.toNat)).sum ↔ ∀ f ∈ files, (store f.path).isSome := by
  have hle : ∀ files : List DataFile, presentRows store files ≤ (files.map (·.rowCount.toNat)).sum := by
    intro files
    refine List.sum_le_sum ?_
    intro f _
    split
    · exact Nat.le_refl _
    · exact Nat.zero_le _
  induction files with
  | nil => exact iff_of_true rfl nofun
  | cons f files ih =>
      have hpos : f.rowCount.toNat ≠ 0 := fun h0 => hrows f List.mem_cons_self (BitVec.eq_of_toNat_eq h0)
      have hrest := hle files
      have hfiles := ih fun g hg => hrows g (List.mem_cons_of_mem f hg)
      refine Iff.trans ?_ ((and_congr_right' hfiles).trans List.forall_mem_cons.symm)
      rw [presentRows, List.map_cons, List.sum_cons, List.map_cons, List.sum_cons, ← presentRows]
      by_cases hf : (store f.path).isSome
      · rw [if_pos hf]
        exact ⟨fun h => ⟨hf, Nat.add_left_cancel h⟩, fun h => congrArg (f.rowCount.toNat + ·) h.2⟩
      · rw [if_neg hf]
        refine iff_of_false ?_ fun h => hf h.1
        omega

end Files

theorem manifest_valid {m : SequentialManifest} {b : Bytes} (h : encodeSequentialManifest m = .ok b) :
    m.schema ≠ [] ∧ (∀ f ∈ m.schema, f.type.isValid = true) ∧ ∀ f ∈ m.dataFiles, f.rowCount ≠ 0 := by
  obtain ⟨_, hne, h⟩ := Except.bind_ok.mp h
  obtain ⟨tableId, _, h⟩ := Except.bind_ok.mp h
  obtain ⟨schema, hs, h⟩ := Except.bind_ok.mp h
  obtain ⟨_, _, h⟩ := Except.bind_ok.mp h
  obtain ⟨dataFiles, hd, _⟩ := Except.bind_ok.mp h
  refine ⟨fun h0 => throwIf_ok.mp hne (.inr h0), ?_, ?_⟩
  · intro f hf
    obtain ⟨_, hfields, _⟩ := putAll_ok.mp hs
    obtain ⟨c, _, hc⟩ := exists_of_forall₂ hfields hf
    obtain ⟨_, hfield, _⟩ := Except.bind_ok.mp hc
    have hbad := throwIf_ok.mp hfield
    generalize f.type = t at hbad
    cases t with
    | invalid => exact absurd (.inr (.inl rfl)) hbad
    | unknown code =>
        refine absurd (.inr (.inr ?_)) hbad
        show (7 : BitVec 8).toNat < (BitVec.ofNat 8 (code.val + 8)).toNat
        rw [BitVec.toNat_ofNat]
        show 7 < _
        omega
    | _ => rfl
  · intro f hf h0
    obtain ⟨_, hfiles, _⟩ := putAll_ok.mp hd
    obtain ⟨c, _, hc⟩ := exists_of_forall₂ hfiles hf
    obtain ⟨_, hfile, _⟩ := Except.bind_ok.mp hc
    exact throwIf_ok.mp hfile (.inr (.inr (.inr (.inr h0))))

/-- A strict scan throws or returns every row exactly when no data file of
the snapshot is missing, unless one of its WAL chunks lacks a column. -/
theorem complete_or_throws_iff {src : ScanSource} (hZ : src.zlib.Inverts) {m : SequentialManifest} {b : Bytes}
    (hm : encodeSequentialManifest m = .ok b) (hsrc : src.schema = m.schema) {snapshot : Store.TableSnapshot}
    (hsnap : snapshot.dataFiles = m.dataFiles.map (·.path))
    (hfiles : ∀ f ∈ m.dataFiles, ∀ bytes, src.store f.path = some bytes →
      Written src.zlib src.schema f.rowCount.toNat bytes) (hproj : InRange src.schema src.projection) :
    ((∃ e, Throws (next src) (scan src snapshot) e) ∨ ∃ chunks, Drains (next src) (scan src snapshot) chunks ∧
        (chunks.map (·.rowCount)).sum =
          (m.dataFiles.map (·.rowCount.toNat)).sum + (snapshot.walChunks.map (·.rowCount)).sum) ↔
      (∀ f ∈ m.dataFiles, (src.store f.path).isSome) ∨ ∃ chunk ∈ snapshot.walChunks, ¬ Covered src.projection chunk := by
  obtain ⟨hschema, hvalid, hrows⟩ := manifest_valid hm
  rw [← hsrc] at hschema hvalid
  obtain ⟨chunks, hdata, hsum⟩ := drains_files hZ hschema hvalid hproj hfiles
  rw [← hsnap] at hdata
  by_cases hwal : ∃ chunk ∈ snapshot.walChunks, ¬ Covered src.projection chunk
  · exact iff_of_true (.inl (throws_composite hdata hwal)) (.inr hwal)
  · have hcovered : ∀ chunk ∈ snapshot.walChunks, Covered src.projection chunk :=
      fun chunk hchunk => by_contra fun hnot => hwal ⟨chunk, hchunk, hnot⟩
    obtain ⟨more, hdrain, hmore⟩ := drains_composite hdata hcovered
    have hcount : ((chunks ++ more).map (·.rowCount)).sum =
        presentRows src.store m.dataFiles + (snapshot.walChunks.map (·.rowCount)).sum := by
      rw [List.map_append, List.sum_append, hsum, hmore]
    rw [or_iff_left hwal, ← presentRows_eq_iff hrows]
    constructor
    · rintro (⟨e, he⟩ | ⟨out, hout, htotal⟩)
      · exact absurd he hdrain.not_throws
      · rw [hout.unique hdrain, hcount] at htotal
        exact Nat.add_right_cancel htotal
    · intro hall
      exact .inr ⟨chunks ++ more, hdrain, by rw [hcount, hall]⟩

def nameManifest : SequentialManifest where
  tableId := ascii "t"
  coveredThroughSeq := 1
  schema := nameSchema
  dataFiles := [⟨ascii "t/data/1", 1, 1, 2⟩]

def nameSnapshot : Store.TableSnapshot where
  currentMetadataVersion := 3
  currentStateVersion := 3
  writerEpoch := 1
  manifestKey := ascii "manifest/1"
  dataFiles := [ascii "t/data/1"]
  walFiles := [ascii "t/wal/2"]
  publishedSeq := 2
  indexedSeq := 1
  walChunks := [nameChunk [9] [ascii "bo"]]
  probedWalCount := 0
  probeLimitReached := false

theorem complete_names :
    (∃ e, Throws (next ⟨storedZlib, nameSchema, nameStore, [1], 1024⟩)
        (scan ⟨storedZlib, nameSchema, nameStore, [1], 1024⟩ nameSnapshot) e) ∨
      ∃ chunks, Drains (next ⟨storedZlib, nameSchema, nameStore, [1], 1024⟩)
          (scan ⟨storedZlib, nameSchema, nameStore, [1], 1024⟩ nameSnapshot) chunks ∧
        (chunks.map (·.rowCount)).sum =
          (nameManifest.dataFiles.map (·.rowCount.toNat)).sum + (nameSnapshot.walChunks.map (·.rowCount)).sum := by
  have hproj : InRange nameSchema [1] := by
    unfold InRange
    decide
  obtain ⟨b, hb⟩ : ∃ b, encodeSequentialManifest nameManifest = .ok b := ⟨_, rfl⟩
  refine (complete_or_throws_iff storedZlib_inverts hb rfl rfl ?_ hproj).mpr (.inl fun _ _ => rfl)
  intro f hf bytes hbytes
  obtain rfl := List.mem_singleton.mp hf
  obtain rfl := Option.some.inj hbytes
  refine ⟨[nameChunk [7, 8] [ascii "ann", []]], nameBuffers, .none, ?_, nameFile_written.1, nameFile_written.2, rfl⟩
  intro chunk hchunk
  obtain rfl := List.mem_singleton.mp hchunk
  exact ⟨nameColumns [7, 8] [ascii "ann", []], rfl, rfl, by decide⟩

/-- With its only data file gone, the scan ends normally after the one row of
the WAL, where the manifest counts two more. -/
theorem missing_file_skipped :
    (∃ b, encodeSequentialManifest nameManifest = .ok b) ∧
      nameSnapshot.dataFiles = nameManifest.dataFiles.map (·.path) ∧
      ∃ chunks, Drains (next ⟨storedZlib, nameSchema, fun _ => none, [1], 1024⟩)
          (scan ⟨storedZlib, nameSchema, fun _ => none, [1], 1024⟩ nameSnapshot) chunks ∧
        (chunks.map (·.rowCount)).sum = 1 ∧
        (nameManifest.dataFiles.map (·.rowCount.toNat)).sum + (nameSnapshot.walChunks.map (·.rowCount)).sum = 3 :=
  ⟨⟨_, rfl⟩, rfl, _, .item rfl (.done rfl), rfl, rfl⟩

end CloudTableSource

end DBPlayground.Query
