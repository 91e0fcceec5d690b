import DBPlayground.Cloud.IndexPass

namespace DBPlayground.TailCoverage

open ByteReader Table Wire Records Keys WalCodec Program Session Solo Store StateStore TableWriter WalIndexer
  SortEntries CloudSystem Log Invariant LogReads IndexSpec SoloReads SoloWriter SoloIndexer CalmStore IndexPass Correct
  LogOrder Progress TextTable
open Machine hiding perform Returns Throws

section Manifest

variable {ι : Type} {P : Params ι} {w : World ι} {v : VersionedValue} {st : SequentialState}
  {m : SequentialManifest} {es : List SequentialBatchEntry} {dk mk : Bytes}

def manifestOf (P : Params ι) (w : World ι) (st : SequentialState) : Option SequentialManifest :=
  (w.entries (metaKey P.table st.manifestKey)).bind fun v => (decodeSequentialManifest v.value).toOption

variable (st) in
theorem manifestOf_eq {u : VersionedValue} (hu : w.entries (metaKey P.table st.manifestKey) = some u)
    (hm : encodeSequentialManifest m = .ok u.value) (hcols : m.schema.length ≤ 1024) : manifestOf P w st = some m := by
  rw [manifestOf, hu, Option.bind_some, decode_encode_manifest hm hcols]
  rfl

def passFiles (P : Params ι) (w : World ι) (seq : U64) (dk : Bytes) (files : List DataFile) : List DataFile :=
  if passChunks P w seq.toNat = [] then files
  else files ++ [⟨dataPath P.table dk, seq + 1, passSeq w seq, rowTotal (passChunks P w seq.toNat)⟩]

def passManifest (P : Params ι) (w : World ι) (seq : U64) (dk mk : Bytes) (m : SequentialManifest) : SequentialManifest :=
  { m with
    dataFiles := passFiles P w seq dk m.dataFiles
    batchIndexFiles := [dedupKey mk]
    coveredThroughSeq := passSeq w seq }

variable (dk mk) in
/-- The manifest of a pass can be written if its new names and the number of
its files fit the fields for them. -/
theorem writable_pass (g : Ground P w v st m es) (hne : w.created.length ≠ st.indexedSeq.toNat) :
    Writable (passManifest P w st.indexedSeq dk mk m) ↔ (dedupKey mk).length < 2 ^ 32 ∧
      (passChunks P w st.indexedSeq.toNat ≠ [] → (dataPath P.table dk).length < 2 ^ 32 ∧
        m.dataFiles.length + 1 < 2 ^ 32) := by
  obtain ⟨u, _, hm⟩ := g.manifest
  have hold := encode_exists.mp ⟨_, hm⟩
  obtain ⟨hfirst, hlast⟩ := g.seq_lt hne
  have hcovered : m.coveredThroughSeq ≤ passSeq w st.indexedSeq := by
    rw [g.ok.covered]
    exact Nat.le_of_lt hlast
  have hranges : ∀ f ∈ m.dataFiles, f.path ≠ [] ∧ f.path.length < 2 ^ 32 ∧ f.firstSeq ≠ 0 ∧ f.firstSeq ≤ f.lastSeq ∧
      f.lastSeq ≤ passSeq w st.indexedSeq ∧ f.rowCount ≠ 0 := by
    intro f hf
    obtain ⟨hpath, hlen, hpos, hle, hcov, hrows⟩ := hold.ranges f hf
    exact ⟨hpath, hlen, hpos, hle, BitVec.le_trans hcov hcovered, hrows⟩
  have hkey : ∀ key ∈ [dedupKey mk], key.take 6 = ascii "dedup/" := by
    intro key hkey
    rw [List.mem_singleton.mp hkey]
    rfl
  constructor
  · intro hw
    refine ⟨(hw.keys _ List.mem_cons_self).2, fun hc => ?_⟩
    have hfiles := hw.files
    have hrange := hw.ranges
    simp only [passManifest, passFiles, if_neg hc] at hfiles hrange
    rw [List.length_append] at hfiles
    exact ⟨(hrange _ (List.mem_append_right _ List.mem_cons_self)).2.1, hfiles⟩
  · rintro ⟨hlen, hfile⟩
    have hkeys : ∀ key ∈ [dedupKey mk], key.take 6 = ascii "dedup/" ∧ key.length < 2 ^ 32 := by
      intro key hk
      refine ⟨hkey key hk, ?_⟩
      rw [List.mem_singleton.mp hk]
      exact hlen
    have hone : [dedupKey mk].length < 2 ^ 32 := by
      rw [List.length_singleton]
      decide
    by_cases hc : passChunks P w st.indexedSeq.toNat = []
    · refine ⟨hold.table, hold.columns, hold.fields, ?_, ?_, hone, hkeys⟩ <;>
        simp only [passManifest, passFiles, if_pos hc]
      · exact hold.files
      · exact hranges
    · obtain ⟨hpath, hcount⟩ := hfile hc
      refine ⟨hold.table, hold.columns, hold.fields, ?_, ?_, hone, hkeys⟩ <;>
        simp only [passManifest, passFiles, if_neg hc]
      · rw [List.length_append]
        exact hcount
      · intro f hf
        rcases List.mem_append.mp hf with hf | hf
        · exact hranges f hf
        · obtain rfl := List.mem_singleton.mp hf
          refine ⟨by simp [dataPath], hpath, ?_, ?_, BitVec.le_refl _, rowTotal_ne_zero g.inv hc⟩
          · intro hzero
            rw [show st.indexedSeq + 1 = 0 from hzero] at hfirst
            exact absurd hfirst (Nat.ne_of_lt (Nat.succ_pos _))
          · show (st.indexedSeq + 1).toNat ≤ (passSeq w st.indexedSeq).toNat
            omega

theorem indexOk_passEntries (g : Ground P w v st m es) :
    IndexOk P w (passEnd w st.indexedSeq.toNat) (passEntries P w st.indexedSeq.toNat es) := by
  have hlen := length_passSlots g.indexed_le
  have hle : passEnd w st.indexedSeq.toNat ≤ w.created.length := Nat.min_le_left _ _
  rw [passEntries, ← slice_pass, flatMap_appended g.inv (fun wal hids _ => by rw [entriesOf, hids, List.map_nil]), ← hlen]
  exact indexOk_append g.inv g.index (by omega)

theorem writable_index (g : Ground P w v st m es) :
    (∃ b, encodeSequentialBatchIndex (sortEntries (passEntries P w st.indexedSeq.toNat es)) = .ok b) ↔
      (idsThrough P w (passEnd w st.indexedSeq.toNat)).length < 2 ^ 32 := by
  have hok := indexOk_sort (indexOk_passEntries g)
  rw [encodeIndex_exists g.inv hok, length_index g.inv hok (nodup_sortEntries _)]

end Manifest

section Pass

variable {ι : Type} [DecidableEq ι] {P : Params ι} {w t : World ι} {v : VersionedValue} {st : SequentialState}
  {m : SequentialManifest} {es : List SequentialBatchEntry} {i : ι} {dk mk : Bytes}

/-- Generated keys that nobody was given before, under the names the indexer
asks for. -/
structure FreshKeys (P : Params ι) (w : World ι) (dk mk : Bytes) : Prop where
  dataKey : dk.take 5 = ascii "data/"
  unissued : w.issued dk = none
  manifestKey : mk.take 9 = ascii "manifest/"
  manifest : w.entries (metaKey P.table mk) = none
  index : w.entries (metaKey P.table (dedupKey mk)) = none

structure Stored (P : Params ι) (w : World ι) (n : Nat) (dk : Bytes) (u : World ι) : Prop where
  entries : u.entries = w.entries
  created : u.created = w.created
  keeps : ∀ p b, w.files p = some b → u.files p = some b
  file : ReadsBack P.format → passChunks P w n ≠ [] →
    ∃ b, u.files (dataPath P.table dk) = some b ∧ P.format.read b = some (rowsOf P (passSlots w n))

theorem ends_extend (g : Ground P w v st m es) (hk : FreshKeys P w dk mk)
    (hwrite : passChunks P w st.indexedSeq.toNat ≠ [] → ∃ b, P.format.write (passChunks P w st.indexedSeq.toNat) = .ok b) :
    ∃ u, Ends (calm i dk mk) (extendManifest P.table P.format m (st.indexedSeq + 1) (passSeq w st.indexedSeq)
        (passChunks P w st.indexedSeq.toNat)) w
      (.ok (some { m with dataFiles := passFiles P w st.indexedSeq dk m.dataFiles })) u ∧
      Stored P w st.indexedSeq.toNat dk u := by
  by_cases hc : passChunks P w st.indexedSeq.toNat = []
  · refine ⟨w, ?_, rfl, rfl, fun _ _ h => h, fun _ hne => absurd hc hne⟩
    rw [passFiles, if_pos hc, extendManifest, if_pos hc]
    exact ends_pure
  · obtain ⟨b, hb⟩ := hwrite hc
    refine ⟨(w.issue i dk).write (dataPath P.table dk) b, ?_, ?_⟩
    · rw [passFiles, if_neg hc]
      exact ends_extendManifest _ _ hc hk.dataKey hk.unissued hb
    · refine ⟨rfl, rfl, ?_, fun hF _ => ⟨b, Function.update_self _ _ _, ?_⟩⟩
      · intro p b' hp
        have hfree : w.files (dataPath P.table dk) = none := by
          by_contra hsome
          obtain ⟨c, hc⟩ := Option.ne_none_iff_exists'.mp hsome
          exact g.inv.onlyIssued dk c hc hk.dataKey hk.unissued
        have hne : p ≠ dataPath P.table dk := by
          rintro rfl
          rw [hfree] at hp
          cases hp
        exact (Function.update_of_ne hne _ _).trans hp
      · rw [hF _ _ hb, rows_passChunks g.inv]

/-- What an index pass needs of the table: what it reads is within the limits
of the readers, and what it writes within those of the writers. -/
structure Indexable (P : Params ι) (w : World ι) (st : SequentialState) (dk mk : Bytes) : Prop where
  load : Loadable P w st.indexedSeq.toNat
  ids : w.created.length ≠ st.indexedSeq.toNat → (idsThrough P w (passEnd w st.indexedSeq.toNat)).length < 2 ^ 32
  key : w.created.length ≠ st.indexedSeq.toNat → (dedupKey mk).length < 2 ^ 32
  write : passChunks P w st.indexedSeq.toNat ≠ [] → ∃ b, P.format.write (passChunks P w st.indexedSeq.toNat) = .ok b
  path : passChunks P w st.indexedSeq.toNat ≠ [] → (dataPath P.table dk).length < 2 ^ 32
  files : passChunks P w st.indexedSeq.toNat ≠ [] → ∀ m, manifestOf P w st = some m → m.dataFiles.length + 1 < 2 ^ 32

/-- The data files before a pass over the slots behind `n`, and those after it. -/
inductive AddsRows (P : Params ι) (w t : World ι) (n : Nat) (files : List DataFile) : List DataFile → Prop
  | none (h : ∀ d ∈ passSlots w n, (walOf P d).kind ≠ .append) : AddsRows P w t n files files
  | file (h : ∃ d ∈ passSlots w n, (walOf P d).kind = .append) (f : DataFile) (b : Bytes)
      (hfirst : f.firstSeq.toNat = n + 1) (hlast : f.lastSeq.toNat = passEnd w n)
      (hcount : f.rowCount.toNat = (rowsOf P (passSlots w n)).length) (hb : t.files f.path = some b)
      (hread : P.format.read b = some (rowsOf P (passSlots w n))) : AddsRows P w t n files (files ++ [f])

structure Advances (P : Params ι) (w : World ι) (st : SequentialState) (r : CloudIndexResult) (t : World ι) : Prop where
  code : r.code = .indexed
  indexed : r.indexedSeq.toNat = min w.created.length (st.indexedSeq.toNat + 256)
  published : r.publishedSeq.toNat = max st.publishedSeq.toNat r.indexedSeq.toNat
  table : ∃ st' m m', CurrentState P t st' ∧ st'.indexedSeq = r.indexedSeq ∧ st'.publishedSeq = r.publishedSeq ∧
    manifestOf P w st = some m ∧ manifestOf P t st' = some m' ∧
    AddsRows P w t st.indexedSeq.toNat m.dataFiles m'.dataFiles
  keeps : ∀ p b, w.files p = some b → t.files p = some b

theorem toNat_published (st : SequentialState) (last : U64) (key : Bytes) :
    (indexedState st last key).publishedSeq.toNat = max st.publishedSeq.toNat last.toNat := by
  simp only [indexedState]
  split
  · rename_i hlt
    exact (Nat.max_eq_right (Nat.le_of_lt hlt)).symm
  · rename_i hge
    exact (Nat.max_eq_left (BitVec.not_lt.mp hge)).symm

omit [DecidableEq ι] in
theorem encode_current (last : U64) (g : Ground P w v st m es) (hkey : mk.take 9 = ascii "manifest/")
    (hlen : (dedupKey mk).length < 2 ^ 32) : ∃ b, encodeSequentialState (indexedState st last mk) = .ok b := by
  obtain ⟨_, _, hm⟩ := g.manifest
  obtain ⟨hne, hid⟩ := (encode_exists.mp ⟨_, hm⟩).table
  have htable : st.tableId = m.tableId := g.state.tableId.trans g.ok.tableId.symm
  have hlength : (dedupKey mk).length = 6 + (mk.length - 9 + 4) := by
    rw [dedupKey, List.length_append, List.length_append, List.length_drop]
    rfl
  refine encode_state ?_ ?_ hkey ?_ (indexedState_published st last mk).2.1 g.state.version
  · exact fun h => hne (htable.symm.trans h)
  · exact lt_of_eq_of_lt (congrArg List.length htable) hid
  · show mk.length < 2 ^ 32
    omega

omit [DecidableEq ι] in
theorem addsRows_pass (g : Ground P w v st m es)
    (hne : w.created.length ≠ st.indexedSeq.toNat)
    (hfile : passChunks P w st.indexedSeq.toNat ≠ [] → ∃ b, t.files (dataPath P.table dk) = some b ∧
      P.format.read b = some (rowsOf P (passSlots w st.indexedSeq.toNat))) :
    AddsRows P w t st.indexedSeq.toNat m.dataFiles (passFiles P w st.indexedSeq dk m.dataFiles) := by
  have hfirst := (g.seq_lt hne).1
  by_cases hc : passChunks P w st.indexedSeq.toNat = []
  · rw [passFiles, if_pos hc]
    exact .none fun d hd happ => (passChunks_ne_nil g.inv).mpr ⟨d, hd, happ⟩ hc
  · rw [passFiles, if_neg hc]
    obtain ⟨b, hb, hread⟩ := hfile hc
    exact .file ((passChunks_ne_nil g.inv).mp hc) _ b hfirst (toNat_passSeq g.inv _) (toNat_rowTotal_pass g.inv) hb hread

theorem pass_advances (hF : ReadsBack P.format) (g : Ground P w v st m es) (hk : FreshKeys P w dk mk)
    (h : Indexable P w st dk mk) (hne : w.created.length ≠ st.indexedSeq.toNat) :
    ∃ r t, Ends (calm i dk mk) (indexPass P.table P.hashes P.format) w (.ok (some r)) t ∧
      t.created = w.created ∧ Advances P w st r t := by
  obtain ⟨u, hu, hm⟩ := g.manifest
  have hcols : m.schema.length ≤ 1024 := by
    rw [g.ok.schema]
    exact h.load.columns
  have hmanifest := manifestOf_eq st hu hm hcols
  obtain ⟨x, hext, hx⟩ := ends_extend (i := i) g hk h.write
  obtain ⟨index, hindex⟩ := (writable_index g).mpr (h.ids hne)
  obtain ⟨manifest, hman⟩ := encode_exists.mpr ((writable_pass dk mk g hne).mpr
    ⟨h.key hne, fun hc => ⟨h.path hc, h.files hc m hmanifest⟩⟩)
  obtain ⟨current, hcur⟩ := encode_current (passSeq w st.indexedSeq) g hk.manifestKey (h.key hne)
  have hpub := ends_publishIndex (s := x) (v := v) i dk
    { m with dataFiles := passFiles P w st.indexedSeq dk m.dataFiles } hk.manifestKey (by rw [hx.entries]; exact g.current)
    g.state.tableId (Nat.le_of_lt (g.seq_lt hne).2) (by rw [hx.entries]; exact hk.index)
    (by rw [hx.entries]; exact hk.manifest) hindex hman hcur
  refine ⟨_, _, pass_extends g h.load hne hext hpub, hx.created, rfl, toNat_passSeq g.inv _,
    toNat_published st (passSeq w st.indexedSeq) mk,
    ⟨indexedState st (passSeq w st.indexedSeq) mk, m, passManifest P w st.indexedSeq dk mk m, ?_, rfl, rfl, hmanifest,
      ?_, ?_⟩, hx.keeps⟩
  · exact ⟨_, Function.update_self _ _ _, decode_encode_state hcur⟩
  · refine manifestOf_eq (u := ⟨manifest, x.nextVersion + 1⟩) _ ?_ hman hcols
    exact (Function.update_of_ne (current_ne_manifest hk.manifestKey).symm _ _).trans (Function.update_self _ _ _)
  · exact addsRows_pass g hne (hx.file hF)

theorem pass_fails (g : Ground P w v st m es) (hk : FreshKeys P w dk mk) (hload : Loadable P w st.indexedSeq.toNat)
    (hne : w.created.length ≠ st.indexedSeq.toNat) (h : ¬ Indexable P w st dk mk) :
    ∃ e t, Ends (calm i dk mk) (indexPass P.table P.hashes P.format) w (.error e) t := by
  by_cases hwrite : passChunks P w st.indexedSeq.toNat ≠ [] →
      ∃ b, P.format.write (passChunks P w st.indexedSeq.toNat) = .ok b
  · obtain ⟨x, hext, hx⟩ := ends_extend (i := i) g hk hwrite
    cases hindex : encodeSequentialBatchIndex (sortEntries (passEntries P w st.indexedSeq.toNat es)) with
    | error e => exact ⟨e, x, pass_extends g hload hne hext (publishIndex_throws_index hk.manifestKey hindex)⟩
    | ok index =>
        cases hman : encodeSequentialManifest (passManifest P w st.indexedSeq dk mk m) with
        | error e =>
            exact ⟨e, _, pass_extends g hload hne hext (publishIndex_throws_manifest hk.manifestKey
              (by rw [hx.entries]; exact hk.index) hindex hman)⟩
        | ok manifest =>
            obtain ⟨u, hu, hm⟩ := g.manifest
            obtain ⟨hkey, hfile⟩ := (writable_pass dk mk g hne).mp (encode_exists.mp ⟨manifest, hman⟩)
            refine absurd ⟨hload, fun _ => (writable_index g).mp ⟨index, hindex⟩, fun _ => hkey, hwrite,
              fun hc => (hfile hc).1, fun hc m' hm' => ?_⟩ h
            have hcols : m.schema.length ≤ 1024 := by
              rw [g.ok.schema]
              exact hload.columns
            obtain rfl : m = m' := Option.some.inj ((manifestOf_eq st hu hm hcols).symm.trans hm')
            exact (hfile hc).2
  · obtain ⟨hc, hno⟩ := Classical.not_imp.mp hwrite
    cases hb : P.format.write (passChunks P w st.indexedSeq.toNat) with
    | ok b => exact absurd ⟨b, hb⟩ hno
    | error e => exact ⟨e, _, pass_extends g hload hne (extendManifest_throws hc hk.dataKey hk.unissued hb)
        (ends_lift_throw rfl)⟩

theorem ends_index {r : CloudIndexResult} (hatt : P.attempts i ≠ 0)
    (h : Ends (calm i dk mk) (indexPass P.table P.hashes P.format) w (.ok (some r)) t) :
    Ends (calm i dk mk) (index P.table P.hashes P.format (P.attempts i)) w (.ok (.done (.indexed r))) t := by
  obtain ⟨n, hn⟩ := Nat.exists_eq_add_one_of_ne_zero hatt
  have hloop : Ends (calm i dk mk) (indexLoop P.table P.hashes P.format (n + 1)) w (.ok r) t := h.bind ends_pure
  rw [hn]
  exact hloop.bind ends_pure

theorem index_throws {e : Exn} (hatt : P.attempts i ≠ 0)
    (h : Ends (calm i dk mk) (indexPass P.table P.hashes P.format) w (.error e) t) :
    Ends (calm i dk mk) (index P.table P.hashes P.format (P.attempts i)) w (.error e) t := by
  obtain ⟨n, hn⟩ := Nat.exists_eq_add_one_of_ne_zero hatt
  rw [hn]
  exact h.throw.throw

theorem index_returns (hF : ReadsBack P.format) (hatt : P.attempts i ≠ 0) (g : Ground P w v st m es)
    (hk : FreshKeys P w dk mk) (h : Indexable P w st dk mk) :
    ∃ r t, Ends (calm i dk mk) (index P.table P.hashes P.format (P.attempts i)) w (.ok (.done (.indexed r))) t ∧
      t.created = w.created ∧ (w.created.length = st.indexedSeq.toNat → r.code = .nothingToDo ∧ t = w) ∧
      (w.created.length ≠ st.indexedSeq.toNat → Advances P w st r t) := by
  by_cases hend : w.created.length = st.indexedSeq.toNat
  · exact ⟨_, w, ends_index hatt (pass_nothing g h.load hend), rfl, fun _ => ⟨rfl, rfl⟩, fun hne => absurd hend hne⟩
  · obtain ⟨r, t, hrun, hcreated, hadv⟩ := pass_advances hF g hk h hend
    exact ⟨r, t, ends_index hatt hrun, hcreated, fun heq => absurd heq hend, fun _ => hadv⟩

/-- `Index` takes the tail of the log in as it is meant to, when nothing
disturbs it. -/
def Covers (P : Params ι) (i : ι) (dk mk : Bytes) (w : World ι) (st : SequentialState) : Prop :=
  ∃ r t, Ends (calm i dk mk) (index P.table P.hashes P.format (P.attempts i)) w (.ok (.done (.indexed r))) t ∧
    (r.code = .nothingToDo ↔ w.created.length = st.indexedSeq.toNat) ∧
    (w.created.length ≠ st.indexedSeq.toNat → Advances P w st r t)

theorem covers_iff (hF : ReadsBack P.format) (hatt : P.attempts i ≠ 0) (g : Ground P w v st m es)
    (hk : FreshKeys P w dk mk) : Covers P i dk mk w st ↔ Indexable P w st dk mk := by
  constructor
  · rintro ⟨r, t, hrun, _, _⟩
    by_contra h
    have hthrows : ∃ e t, Ends (calm i dk mk) (indexPass P.table P.hashes P.format) w (.error e) t := by
      by_cases hload : Loadable P w st.indexedSeq.toNat
      · refine pass_fails g hk hload (fun hend => h ?_) h
        have hnil : passChunks P w st.indexedSeq.toNat = [] := by
          rw [passChunks, (passSlots_eq_nil g.indexed_le).mpr hend]
          rfl
        exact ⟨hload, fun hne => absurd hend hne, fun hne => absurd hend hne, fun hne => absurd hnil hne,
          fun hne => absurd hnil hne, fun hne => absurd hnil hne⟩
      · obtain ⟨e, he⟩ := pass_throws i dk mk g hload
        exact ⟨e, w, he⟩
    obtain ⟨e, u, he⟩ := hthrows
    have heq := (index_throws hatt he).symm.trans hrun
    cases heq
  · intro h
    obtain ⟨r, t, hrun, _, hnothing, hadv⟩ := index_returns hF hatt g hk h
    refine ⟨r, t, hrun, ⟨fun hcode => ?_, fun hend => (hnothing hend).1⟩, hadv⟩
    by_contra hne
    rw [(hadv hne).code] at hcode
    cases hcode

end Pass

section Text

variable {text : Bytes} {s : World (Fin 3)} {fence d : Creation (Fin 3)}

theorem exists_tail (text : Bytes) (h : text.length + 8 < 2 ^ 32) : ∃ x fence d, Reachable (anyParams text) x ∧
    x.thread 1 = .idle ∧ Opened (anyParams text) 0 (startedWriter textTable 3) x.store ∧
    x.store.created = [fence, d] ∧ Fenced (anyParams text) 0 fence ∧
    HoldsBatch (anyParams text) 0 (textBatch text) 2 1 d ∧
    CurrentState (anyParams text) x.store (raised (initialState textTable)) := by
  obtain ⟨s, fence, d, hx, hopen, hlog, hfence, hd⟩ := exists_appended (P := anyParams text)
    (usable_textParams serves_anyParams) rfl (by simp [anyParams, textParams]) (importable_textBatch h 0) rfl
  obtain ⟨b, hv, hdec⟩ := hopen.current
  exact ⟨_, fence, d, hx, rfl, hopen, hlog, hfence, hd, _, hv, hdec⟩

theorem freshKeys_tail {w : Writer} (h : Opened (anyParams text) 0 w s) :
    FreshKeys (anyParams text) s (ascii "data/1") (ascii "manifest/1") := by
  have hnew : ∀ key, key ≠ ascii "CURRENT" → key ≠ initialKey → s.entries (metaKey textTable key) = none :=
    fun key hc hi => h.objects _ (metaKey_ne_current hc) (fun he => hi (metaKey_inj.mp he))
  exact ⟨rfl, h.issued _, rfl, hnew _ (by decide) (by decide), hnew _ (by decide) (by decide)⟩

theorem indexable_tail {x : Config (Fin 3) Op Ans (World (Fin 3)) Call Reply} (hlen : text.length ≤ 2 ^ 20)
    (hx : Reachable (anyParams text) x) (hlog : x.store.created = [fence, d]) (hfence : Fenced (anyParams text) 0 fence)
    (hd : HoldsBatch (anyParams text) 0 (textBatch text) 2 1 d) {w : Writer} (hopen : Opened (anyParams text) 0 w x.store) :
    Indexable (anyParams text) x.store (raised (initialState textTable)) (ascii "data/1") (ascii "manifest/1") := by
  have hinv := inv_of_reachable hx
  obtain ⟨hids, hchunks⟩ := (hinv.slots 0 fence (by rw [hlog]; rfl)).fence_contents hfence.kind
  obtain ⟨digest, hwal⟩ := hd.decoded
  have hslots : passSlots x.store 0 = [fence, d] := by
    rw [passSlots, hlog]
    rfl
  refine ⟨⟨show textTable.schema.length ≤ 1024 by decide, show trimSlashes textTable.filePrefix ≠ [] by decide, ?_⟩,
    fun _ => ?_, fun _ => by decide, fun _ => ⟨[1], if_pos ?_⟩,
    fun _ => show (dataPath textTable (ascii "data/1")).length < 2 ^ 32 by decide, fun _ m hm => ?_⟩
  · show ∀ c ∈ passSlots x.store 0, _
    rw [hslots]
    simpa using ⟨hfence.size, size_textBatch hlen hd⟩
  · show (idsThrough (anyParams text) x.store (min x.store.created.length 256)).length < 2 ^ 32
    have hone : (walOf (anyParams text) d).batchIds = [ascii "b"] := congrArg SequentialWal.batchIds hwal
    rw [hlog, idsThrough, hlog]
    show ([fence, d].flatMap fun c => (walOf (anyParams text) c).batchIds).length < 2 ^ 32
    rw [List.flatMap_cons, List.flatMap_singleton, hids, hone]
    decide
  · rw [rows_passChunks hinv]
    show rowsOf (anyParams text) (passSlots x.store 0) = _
    rw [hslots, rowsOf, List.flatMap_cons, List.flatMap_singleton, hchunks]
    exact rows_textWal (by omega) hd
  · obtain ⟨u, hu, hm'⟩ := hopen.manifest
    rw [manifestOf_eq (raised (initialState textTable)) hu hm'
      (show textTable.schema.length ≤ 1024 by decide)] at hm
    cases hm
    show 1 < 2 ^ 32
    decide

end Text

section Passes

variable {ι : Type} [DecidableEq ι] {P : Params ι} {i : ι} {x : Config ι Op Ans (World ι) Call Reply}
  {th : ι → Thread Op Ans Call Reply} {w t : World ι} {st : SequentialState} {dk mk : Bytes} {k : Nat}

/-- Passes in a row, each on a table that it can index. -/
inductive Passes (P : Params ι) (i : ι) : Nat → World ι → World ι → Prop
  | zero (w : World ι) : Passes P i 0 w w
  | succ {k : Nat} {w t u : World ι} {st : SequentialState} {dk mk : Bytes} {r : Outcome Call Reply}
      (hst : CurrentState P w st) (hk : FreshKeys P w dk mk) (h : Indexable P w st dk mk)
      (hrun : Ends (calm i dk mk) (index P.table P.hashes P.format (P.attempts i)) w (.ok r) t)
      (hrest : Passes P i k t u) : Passes P i (k + 1) w u

variable (hall : ∀ j c o w r, P.allow j c o w r = true) (hidx : P.accepts i .index = true)

include hall hidx

theorem reachable_index (hx : Reachable P ⟨w, th⟩) (hidle : th i = .idle) {r : CloudIndexResult}
    (hrun : Ends (calm i dk mk) (index P.table P.hashes P.format (P.attempts i)) w (.ok (.done (.indexed r))) t) :
    Reachable P ⟨t, th⟩ := by
  have hsolo : SoloRun P i .index (method P i .index) w (.ok (.done (.indexed r))) t :=
    Runs.of_run (fun o s r u h => ⟨choice dk mk o, h, hall _ _ _ _ _⟩) hrun
  have hsteps := (steps_idle hidle rfl hidx hsolo).trans steps_reply
  rw [← hidle, Function.update_eq_self] at hsteps
  exact hx.trans hsteps

theorem passes_reach (hF : ReadsBack P.format) (hatt : P.attempts i ≠ 0) (hidle : th i = .idle)
    (h : Passes P i k w t) (hx : Reachable P ⟨w, th⟩) (hst : CurrentState P w st)
    (hk : (w.created.length - st.indexedSeq.toNat + 255) / 256 ≤ k) :
    ∃ st', CurrentState P t st' ∧ st'.indexedSeq.toNat = w.created.length ∧ st'.publishedSeq.toNat = w.created.length := by
  induction h generalizing st with
  | zero w =>
      obtain ⟨v, m, es, g⟩ := exists_ground (inv_of_reachable hx) hst
      have hindexed : st.indexedSeq.toNat ≤ st.publishedSeq.toNat := g.state.indexed
      have hpublished : st.publishedSeq.toNat ≤ w.created.length := g.state.published
      exact ⟨st, hst, by omega, by omega⟩
  | @succ k w t u st₁ dk mk r hst₁ hfresh hable hrun _ ih =>
      obtain rfl : st₁ = st := hst₁.unique hst
      have hw : Inv P w := inv_of_reachable hx
      obtain ⟨v, m, es, g⟩ := exists_ground hw hst
      have hle := g.indexed_le
      obtain ⟨r', t', hrun', hcreated, hnothing, hadv⟩ := index_returns (i := i) hF hatt g hfresh hable
      obtain ⟨_, rfl⟩ : Except.ok (.done (.indexed r')) = Except.ok r ∧ t' = t :=
        Prod.mk.inj (Option.some.inj (hrun'.symm.trans hrun))
      have hx' := reachable_index hall hidx hx hidle hrun'
      rw [← hcreated]
      by_cases hend : w.created.length = st₁.indexedSeq.toNat
      · obtain ⟨_, rfl⟩ := hnothing hend
        exact ih hx' hst (by omega)
      · obtain ⟨_, hindexed, _, ⟨st', _, _, hst', hseq, _⟩, _⟩ := hadv hend
        refine ih hx' hst' ?_
        rw [hcreated, hseq, hindexed]
        omega

/-- A pass that nothing disturbs, with fresh keys, takes in the next 256 slots
as it is meant to exactly when the table is within the limits of the codecs; in a
row, such passes reach the end of the log. -/
theorem index_covers_iff (hF : ReadsBack P.format) (hatt : P.attempts i ≠ 0) (hx : Reachable P x)
    (hidle : x.thread i = .idle) (hst : CurrentState P x.store st) :
    (∀ dk mk, FreshKeys P x.store dk mk → (Covers P i dk mk x.store st ↔ Indexable P x.store st dk mk)) ∧
    ∀ k t, Passes P i k x.store t → (x.store.created.length - st.indexedSeq.toNat + 255) / 256 ≤ k →
      ∃ st', CurrentState P t st' ∧ st'.indexedSeq.toNat = x.store.created.length ∧
        st'.publishedSeq.toNat = x.store.created.length := by
  refine ⟨fun dk mk hk => ?_, fun k t h hle => passes_reach hall hidx hF hatt hidle h hx hst hle⟩
  obtain ⟨v, m, es, g⟩ := exists_ground (inv_of_reachable hx) hst
  exact covers_iff hF hatt g hk

end Passes

theorem text_covered : ∃ x st t st', Reachable (anyParams (ascii "x")) x ∧ CurrentState (anyParams (ascii "x")) x.store st ∧
    Covers (anyParams (ascii "x")) 1 (ascii "data/1") (ascii "manifest/1") x.store st ∧
    Passes (anyParams (ascii "x")) 1 1 x.store t ∧ CurrentState (anyParams (ascii "x")) t st' ∧
    st'.indexedSeq.toNat = 2 ∧ st'.publishedSeq.toNat = 2 := by
  obtain ⟨x, fence, d, hx, hidle, hopen, hlog, hfence, hd, hst⟩ := exists_tail (ascii "x") (by decide)
  have hfresh := freshKeys_tail hopen
  have hable := indexable_tail (by decide) hx hlog hfence hd hopen
  obtain ⟨hcovers, hpasses⟩ := index_covers_iff (i := 1) (fun _ _ _ _ _ => rfl) rfl readsBack_textFormat
    (by simp [anyParams, textParams]) hx hidle hst
  obtain ⟨r, t, hrun, hrest⟩ := (hcovers _ _ hfresh).mpr hable
  have hone : Passes (anyParams (ascii "x")) 1 1 x.store t := .succ hst hfresh hable hrun (.zero t)
  have htwo : x.store.created.length = 2 := by rw [hlog]; rfl
  obtain ⟨st', hst', hindexed, hpublished⟩ := hpasses 1 t hone (by rw [htwo]; decide)
  rw [htwo] at hindexed hpublished
  exact ⟨x, _, t, st', hx, hst, ⟨r, t, hrun, hrest⟩, hone, hst', hindexed, hpublished⟩

/-- A batch of 256 MiB is accepted, and no index pass gets past it. -/
theorem text_uncovered : ∃ text x st dk mk, Reachable (anyParams text) x ∧ x.thread 1 = .idle ∧
    CurrentState (anyParams text) x.store st ∧ FreshKeys (anyParams text) x.store dk mk ∧
    ¬ Covers (anyParams text) 1 dk mk x.store st := by
  obtain ⟨text, hlen⟩ : ∃ text : Bytes, text.length = 268435456 := ⟨List.replicate _ 0, List.length_replicate⟩
  obtain ⟨x, fence, d, hx, hidle, hopen, hlog, _, hd, hst⟩ := exists_tail text (by omega)
  refine ⟨text, x, _, _, _, hx, hidle, hst, freshKeys_tail hopen, fun h => ?_⟩
  obtain ⟨v, m, es, g⟩ := exists_ground (inv_of_reachable hx) hst
  have hable := (covers_iff readsBack_textFormat (by simp [anyParams, textParams]) g (freshKeys_tail hopen)).mp h
  have hmem : d ∈ passSlots x.store 0 := by
    rw [passSlots, hlog]
    exact List.mem_cons_of_mem _ List.mem_cons_self
  exact absurd (hable.load.small d hmem) (Nat.not_le.mpr (oversize_textBatch hlen hd))

end DBPlayground.TailCoverage
