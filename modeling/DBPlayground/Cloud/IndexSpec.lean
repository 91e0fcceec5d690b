import DBPlayground.Cloud.WriteSpecs
import DBPlayground.Cloud.LogReads
import DBPlayground.Cloud.SortEntries
import Mathlib.Algebra.Group.Action.Defs
import Mathlib.Algebra.Order.BigOperators.Group.List

namespace DBPlayground.IndexSpec

open ByteReader Table Wire Records Keys WalCodec WalRoundTrip WalLimits Program RelyGuarantee Session Store
  StateStore TableWriter
  WalIndexer SortEntries CloudSystem Log Invariant Rules ReadSpecs WriteSpecs Contract LogReads

variable {ι : Type} {P : Params ι} {i : ι} {c : Call} {α : Type} {Q : α → World ι → Prop}
  {E : Exn → World ι → Prop} {s w u : World ι}

theorem indexOk_sort {n : Nat} {es : List SequentialBatchEntry} (h : IndexOk P w n es) :
    IndexOk P w n (sortEntries es) := by
  refine ⟨?_, fun e he => h.sound e (mem_of_mem_sortEntries he)⟩
  intro k d hd hk id hid
  obtain ⟨e, he, rfl⟩ := h.complete k d hd hk id hid
  exact id_mem_sortEntries he

theorem dataRows_append {ps : List Bytes} {p b : Bytes} {rows more : List (List (Option Value))}
    (h : dataRows P w ps = some rows) (hp : w.files p = some b) (hb : P.format.read b = some more) :
    dataRows P w (ps ++ [p]) = some (rows ++ more) := by
  induction ps generalizing rows with
  | nil =>
      cases h
      simp [dataRows, hp, hb]
  | cons q qs ih =>
      simp only [dataRows, List.cons_append, bind, Option.bind_eq_some_iff, Option.some.injEq] at h ⊢
      obtain ⟨d, hd, r, hr, rest, hrest, rfl⟩ := h
      exact ⟨d, hd, r, hr, rest ++ more, ih hrest, by rw [List.append_assoc]⟩

/-- The data files of a pass over the slots `first` to `last`: those before, and
one for its chunks if it has any. -/
inductive Extended (files : List DataFile) (first last : U64) (chunks : List Chunk) : List DataFile → Prop
  | none (h : chunks = []) : Extended files first last chunks files
  | file (path : Bytes) : Extended files first last chunks (files ++ [⟨path, first, last, rowTotal chunks⟩])

theorem length_rows (c : Chunk) : c.rows.length = c.rowCount := by rw [Chunk.rows, List.length_map, List.length_range]

theorem length_rows_chunks (chunks : List Chunk) :
    (chunks.flatMap Chunk.rows).length = (chunks.map (·.rowCount)).sum := by
  rw [List.length_flatMap]
  exact congrArg List.sum (List.map_congr_left fun c _ => length_rows c)

theorem encoded_of_slot {d : Creation ι} {k : Nat} (h : Slot P d k) (hk : (walOf P d).kind = .append) :
    (walOf P d).chunks ≠ [] ∧ (walOf P d).chunks.length ≤ 1000000 ∧ ∀ c ∈ (walOf P d).chunks, c.rowCount < 2 ^ 32 := by
  have henc := h.encode_walOf hk
  obtain ⟨hw, header, ids, entries, _, _, he, _⟩ := encode_ok.mp henc
  refine ⟨fun hnil => hw.append ⟨hk, .inr hnil⟩, (fits_of_decode henc h.decoded).count, ?_⟩
  intro c hc
  obtain ⟨e, _, hce⟩ := exists_of_forall₂ he hc
  exact (chunkEntry_ok hce).2.1

theorem length_flatMap_le {α β : Type} {f : α → List β} {l : List α} {n : Nat} (h : ∀ a ∈ l, (f a).length ≤ n) :
    (l.flatMap f).length ≤ l.length * n := by
  have hmem : ∀ k ∈ l.map fun a => (f a).length, k ≤ n := by
    intro k hk
    obtain ⟨a, ha, rfl⟩ := List.mem_map.mp hk
    exact h a ha
  have hsum := List.sum_le_card_nsmul _ n hmem
  rwa [List.length_map, smul_eq_mul, ← List.length_flatMap] at hsum

theorem rows_le_of_slot {d : Creation ι} {k : Nat} (h : Slot P d k) :
    ((walOf P d).chunks.flatMap Chunk.rows).length ≤ 2 ^ 52 := by
  cases hk : (walOf P d).kind with
  | fence =>
      rw [(h.fence_contents hk).2]
      exact Nat.zero_le _
  | append =>
      obtain ⟨_, hcount, hrows⟩ := encoded_of_slot h hk
      have hle := length_flatMap_le (f := Chunk.rows) (n := 2 ^ 32) fun c hc => by
        rw [length_rows]
        exact Nat.le_of_lt (hrows c hc)
      omega

theorem length_rowsOf_lt (hw : Inv P w) {n len : Nat} (hlen : len ≤ maxWalPerPass) :
    (rowsOf P ((w.created.drop n).take len)).length < 2 ^ 64 := by
  have hle : (rowsOf P ((w.created.drop n).take len)).length ≤ ((w.created.drop n).take len).length * 2 ^ 52 := by
    refine length_flatMap_le fun d hd => ?_
    obtain ⟨k, hk⟩ := List.mem_iff_getElem?.mp (List.mem_of_mem_drop (List.mem_of_mem_take hd))
    exact rows_le_of_slot (hw.slots k d hk)
  have hcount : ((w.created.drop n).take len).length ≤ 256 := Nat.le_trans (List.length_take_le _ _) hlen
  omega

theorem toNat_rowTotal (hw : Inv P w) {n len : Nat} (hlen : len ≤ maxWalPerPass) :
    (rowTotal ((appended (slice P w n len)).flatMap (·.chunks))).toNat =
      (rowsOf P ((w.created.drop n).take len)).length := by
  have hlt := length_rowsOf_lt hw (n := n) hlen
  rw [← rows_slice hw, length_rows_chunks] at hlt ⊢
  rw [rowTotal, BitVec.toNat_ofNat, Nat.mod_eq_of_lt hlt]

theorem filesOk_extended (hw : Inv P w) {n len : Nat} {files files' : List DataFile} {first last : U64}
    (h : FilesOk P w n files) (hpos : len ≠ 0) (hlen : len ≤ maxWalPerPass) (hfirst : first.toNat = n + 1)
    (hlast : last.toNat = n + len)
    (hx : Extended files first last ((appended (slice P w n len)).flatMap (·.chunks)) files') :
    FilesOk P w (n + len) files' := by
  have hrange : ∀ f ∈ files, 0 < f.firstSeq.toNat ∧ f.firstSeq ≤ f.lastSeq ∧ f.lastSeq.toNat ≤ n + len := by
    intro f hf
    obtain ⟨hp, hle, hn⟩ := h.range f hf
    exact ⟨hp, hle, Nat.le_add_right_of_le hn⟩
  cases hx with
  | none hnil =>
      refine ⟨h.ascending, hrange, h.rows, ?_⟩
      intro k d hk hlt happ
      by_cases hkn : k < n
      · exact h.covers k d hk hkn happ
      · -- an Append WAL of the pass would have chunks
        have hmem : walOf P d ∈ appended (slice P w n len) := by
          refine List.mem_filter.mpr ⟨List.mem_map_of_mem (List.mem_iff_getElem?.mpr ⟨k - n, ?_⟩), by simpa using happ⟩
          rw [List.getElem?_take_of_lt (by omega), List.getElem?_drop, Nat.add_sub_cancel' (by omega)]
          exact hk
        exact absurd (List.flatMap_eq_nil_iff.mp hnil _ hmem) (encoded_of_slot (hw.slots k d hk) happ).1
  | file path =>
      refine ⟨List.pairwise_append.mpr ⟨h.ascending, List.pairwise_singleton _ _, ?_⟩, ?_, ?_, ?_⟩
      · intro f hf g hg
        obtain rfl := List.mem_singleton.mp hg
        have hn := (h.range f hf).2.2
        show f.lastSeq.toNat < first.toNat
        omega
      · intro f hf
        rcases List.mem_append.mp hf with hf | hf
        · exact hrange f hf
        · obtain rfl := List.mem_singleton.mp hf
          refine ⟨by show 0 < first.toNat; omega, ?_, Nat.le_of_eq hlast⟩
          show first.toNat ≤ last.toNat
          omega
      · intro f hf
        rcases List.mem_append.mp hf with hf | hf
        · exact h.rows f hf
        · obtain rfl := List.mem_singleton.mp hf
          show (rowTotal _).toNat = (rowsOf P ((w.created.take last.toNat).drop (first.toNat - 1))).length
          rw [toNat_rowTotal hw hlen, hfirst, hlast, List.drop_take, Nat.add_sub_cancel, Nat.add_sub_cancel_left]
      · intro k d hk hlt happ
        by_cases hkn : k < n
        · obtain ⟨f, hf, hin⟩ := h.covers k d hk hkn happ
          exact ⟨f, List.mem_append_left _ hf, hin⟩
        · refine ⟨_, List.mem_append_right _ List.mem_cons_self, ?_⟩
          show first.toNat ≤ k + 1 ∧ k + 1 ≤ last.toNat
          omega

structure PassOk (P : Params ι) (w : World ι) (m : SequentialManifest) (entries : List SequentialBatchEntry)
    (last : U64) : Prop where
  tableId : m.tableId = P.table.tableId
  version : m.schemaVersion = 1
  schema : m.schema = P.table.schema
  length : last.toNat ≤ w.created.length
  index : IndexOk P w last.toNat entries
  data : ReadsBack P.format →
    dataRows P w (m.dataFiles.map (·.path)) = some (rowsOf P (w.created.take last.toNat))
  files : FilesOk P w last.toNat m.dataFiles

theorem PassOk.grow {m : SequentialManifest} {entries : List SequentialBatchEntry} {last : U64}
    (h : PassOk P w m entries last) (hg : Grow P w u) : PassOk P u m entries last where
  tableId := h.tableId
  version := h.version
  schema := h.schema
  length := Nat.le_trans h.length hg.length
  index := hg.indexOk h.length h.index
  data hF := by
    rw [hg.take h.length]
    exact hg.dataRows (h.data hF)
  files := hg.filesOk h.length h.files

theorem PassOk.manifest {m : SequentialManifest} {entries : List SequentialBatchEntry} {last : U64}
    (h : PassOk P w m entries last) {key b : Bytes} {v : Nat} (hk : key.take 6 = ascii "dedup/")
    (hb : encodeSequentialBatchIndex (sortEntries entries) = .ok b)
    (hv : w.entries (metaKey P.table key) = some ⟨b, v⟩) :
    ManifestOk P w { m with batchIndexFiles := [key], coveredThroughSeq := last } last where
  tableId := h.tableId
  covered := rfl
  version := h.version
  schema := h.schema
  index := by
    refine ⟨sortEntries entries, ?_, indexOk_sort h.index⟩
    have hfiles := IndexFiles.cons hv (decode_encode_index hb) .nil hk
    rwa [List.append_nil] at hfiles
  data := h.data
  distinct es hes := by
    have hfiles := IndexFiles.cons hv (decode_encode_index hb) .nil hk
    rw [hes.unique hfiles, List.append_nil]
    exact nodup_sortEntries entries
  files := h.files

theorem indexedState_published (st : SequentialState) (last : U64) (key : Bytes) :
    st.publishedSeq ≤ (indexedState st last key).publishedSeq ∧
      last ≤ (indexedState st last key).publishedSeq ∧
      ((indexedState st last key).publishedSeq = last ∨
        (indexedState st last key).publishedSeq = st.publishedSeq) := by
  simp only [indexedState]
  split
  · rename_i hlt
    exact ⟨BitVec.le_of_lt hlt, BitVec.le_refl _, .inl rfl⟩
  · rename_i hge
    exact ⟨BitVec.le_refl _, BitVec.not_lt.mp hge, .inr rfl⟩

theorem stateOk_indexed {st : SequentialState} {m : SequentialManifest} {last : U64} {key b : Bytes} {v : Nat}
    (hst : StateOk P w st) (hlast : last.toNat ≤ w.created.length) (hk : key.take 9 = ascii "manifest/")
    (hb : encodeSequentialManifest m = .ok b) (hv : w.entries (metaKey P.table key) = some ⟨b, v⟩)
    (hm : ManifestOk P w m last) : StateOk P w (indexedState st last key) where
  tableId := hst.tableId
  version := hst.version
  indexed := (indexedState_published st last key).2.1
  published := by
    rcases (indexedState_published st last key).2.2 with h | h
    · rw [h]
      exact hlast
    · rw [h]
      exact hst.published
  key := hk
  manifest := ⟨_, m, hv, hb, hm⟩

variable [DecidableEq ι]

theorem wpm_writeDataFile {chunks : List Chunk} {f : Option Bytes → StoreMethod α} (hE : Escapes P i E s)
    (hnone : ∀ u, Quiet P i s u → Inv P u → wpm (ctx P i c) (f none) Q E u)
    (hsome : ∀ u path bytes, Quiet P i s u → Inv P u → P.format.write chunks = .ok bytes →
      u.files path = some bytes → wpm (ctx P i c) (f (some path)) Q E u) :
    wpm (ctx P i c) (writeDataFile P.table P.format chunks >>= f) Q E s := by
  rw [writeDataFile, bind_assoc]
  refine wpm_newDataFileKey ?_
  intro s' key hq hi hissued hfree
  split
  · exact hnone s' hq hi
  · rename_i hd
    have hd := not_not.mp hd
    rw [bind_assoc]
    refine wpm_lift_bind hi ?_ (fun x _ u hu hiu => hE x u (hq.trans hu.quiet) hiu)
    intro bytes hb
    rw [bind_assoc]
    refine wpm_writeFile hd hissued (hfree hd) (hE.quiet hq) ?_
    intro u hu hiu hfile
    exact hsome u _ bytes (hq.trans hu) hiu hb hfile

theorem wpm_extendManifest {m : SequentialManifest} {seq first last : U64} {chunks : List Chunk}
    {f : Option SequentialManifest → StoreMethod α} (hs : Inv P s) (hseq : seq.toNat ≤ s.created.length)
    (hm : ManifestOk P s m seq) (hE : Escapes P i E s)
    (hnone : ∀ u, Quiet P i s u → Inv P u → wpm (ctx P i c) (f none) Q E u)
    (hsome : ∀ u files, Quiet P i s u → Inv P u → (ReadsBack P.format →
      dataRows P u (files.map (·.path)) =
        some (rowsOf P (u.created.take seq.toNat) ++ chunks.flatMap Chunk.rows)) →
      Extended m.dataFiles first last chunks files →
      wpm (ctx P i c) (f (some { m with dataFiles := files })) Q E u) :
    wpm (ctx P i c) (extendManifest P.table P.format m first last chunks >>= f) Q E s := by
  rw [extendManifest]
  split
  · rename_i hnil
    refine hsome s m.dataFiles (Quiet.refl i s) hs ?_ (.none hnil)
    intro hF
    rw [hnil, List.flatMap_nil, List.append_nil]
    exact hm.data hF
  · rw [bind_assoc]
    refine wpm_writeDataFile hE hnone ?_
    intro u path bytes hq hiu hb hfile
    refine hsome u _ hq hiu ?_ (.file path)
    intro hF
    rw [List.map_append, List.map_singleton, hq.grow.take hseq]
    exact dataRows_append (hq.grow.dataRows (hm.data hF)) hfile (hF _ _ hb)

theorem wpm_publishIndex {current : VersionedSequentialState} {m : SequentialManifest}
    {entries : List SequentialBatchEntry} {last : U64} {f : Option CloudIndexResult → StoreMethod α}
    (hc : c ≠ .start) (hseen : Seen P s current) (hpass : PassOk P s m entries last)
    (hlt : current.state.indexedSeq < last) (hE : Escapes P i E s)
    (h : ∀ u r, Quiet P i s u → Inv P u → wpm (ctx P i c) (f r) Q E u) :
    wpm (ctx P i c) (publishIndex P.table current m entries last >>= f) Q E s := by
  rw [publishIndex, bind_assoc]
  refine wpm_newManifestKey ?_
  intro s₁ key hr₁ hi₁
  split
  · exact h s₁ _ hr₁.quiet hi₁
  · rename_i hkey
    have hkey := not_not.mp hkey
    have hdedup : (ascii "dedup/" ++ (key.drop 9 ++ ascii ".idx")).take 6 = ascii "dedup/" :=
      List.take_left' (by decide)
    have hE₁ := hE.quiet hr₁.quiet
    rw [bind_assoc]
    refine wpm_writeObject (x := encodeSequentialBatchIndex (sortEntries entries)) hi₁
      (metaKey_ne_current (ne_current_of_take hdedup (by decide))) hE₁ ?_
    intro s₂ r hq₂ hi₂ hv₂
    have hq₂ := hr₁.quiet.trans hq₂
    cases r with
    | preconditionFailed | retryableConflict => exact h s₂ _ hq₂ hi₂
    | applied v₂ =>
        obtain ⟨b₂, hb₂, he₂⟩ := hv₂ v₂ rfl
        dsimp only
        rw [bind_assoc]
        refine wpm_writeObject (x := encodeSequentialManifest _) hi₂
          (metaKey_ne_current (ne_current_of_take hkey (by decide))) (hE.quiet hq₂) ?_
        intro s₃ r hq₃ hi₃ hv₃
        cases r with
        | preconditionFailed | retryableConflict => exact h s₃ _ (hq₂.trans hq₃) hi₃
        | applied v₃ =>
            obtain ⟨b₃, hb₃, he₃⟩ := hv₃ v₃ rfl
            have hm := (hpass.grow hq₂.grow).manifest hdedup hb₂ he₂
            have hlen := (hpass.grow hq₂.grow).length
            have hq₃' := hq₂.trans hq₃
            have hst := stateOk_indexed (hq₃'.grow.stateOk hseen.state)
              (Nat.le_trans hlen hq₃.grow.length) hkey hb₃ he₃ (hq₃.grow.manifestOk hlen hm)
            have hpub := indexedState_published current.state last key
            dsimp only
            rw [bind_assoc]
            have hle : Le current.state (indexedState current.state last key) :=
              ⟨BitVec.le_refl _, BitVec.le_of_lt hlt, hpub.1⟩
            refine wpm_swap hc hi₃ (hseen.grow hq₃'.grow) hst hle rfl (marks_lt hle (.inr (.inl hlt)))
              (hE.quiet hq₃') ?_
            intro u r hq hi _
            cases r with
            | applied | preconditionFailed | retryableConflict => exact h u _ (hq₃'.trans hq) hi

theorem wpm_indexPass {f : Option CloudIndexResult → StoreMethod α} (hc : c ≠ .start) (hs : Inv P s)
    (hE : Escapes P i E s) (h : ∀ u r, Quiet P i s u → Inv P u → wpm (ctx P i c) (f r) Q E u) :
    wpm (ctx P i c) (indexPass P.table P.hashes P.format >>= f) Q E s := by
  rw [indexPass, bind_assoc]
  refine wpm_load hs (hE.faults _) (fun s₁ hr hi _ => h s₁ _ hr.quiet hi) ?_
  intro s₁ current hr₁ hi₁ hcur _
  have hseen := hcur.seen
  have hst := hseen.state
  have hE₁ := hE.quiet hr₁.quiet
  dsimp only
  rw [bind_assoc]
  refine wpm_loadManifest hi₁ hst (hE₁.faults _) (fun _ => hE₁) ?_
  intro s₂ m hr₂ hi₂ hm
  obtain ⟨es, hfiles, hes⟩ := hm.index
  have hE₂ := hE₁.quiet hr₂.quiet
  rw [bind_assoc]
  refine wpm_loadBatchIndex hi₂ hfiles (fun key => hE₂.faults _) ?_
  intro s₃ hr₃ hi₃
  have hE₃ := hE₂.quiet hr₃.quiet
  have hle : current.state.indexedSeq.toNat ≤ current.state.publishedSeq.toNat := hst.indexed
  have hlen₂ := (hr₂.quiet.grow.stateOk hst).published
  have hmax : uint64Max.toNat = 2 ^ 64 - 1 := by decide
  rw [bind_assoc]
  refine wpm_collectWals hi₃ (eq_ofNat_toNat _) (by omega) (walReads_of_escapes hE₃) ?_
  intro s₄ len hr₄ hi₄ hlen hin
  have hE₄ := hE₃.quiet hr₄.quiet
  have hg₄ := hr₃.quiet.grow.trans hr₄.quiet.grow
  have hq₄ := hr₁.quiet.trans (hr₂.quiet.trans (hr₃.quiet.trans hr₄.quiet))
  split
  · exact h s₄ _ hq₄ hi₄
  · rename_i hne
    have hpos : len ≠ 0 := fun h0 => hne (by rw [h0, slice_zero])
    have hbound : current.state.indexedSeq.toNat + len ≤ s₄.created.length := by omega
    have hroom := hi₄.room
    have hlast : (current.state.indexedSeq +
        BitVec.ofNat 64 (slice P s₄ current.state.indexedSeq.toNat len).length).toNat =
          current.state.indexedSeq.toNat + len := by
      rw [length_slice hbound, BitVec.toNat_add, BitVec.toNat_ofNat]
      omega
    rw [bind_assoc]
    refine wpm_extendManifest hi₄ (by omega) (hg₄.manifestOk (by omega) hm) hE₄
      (fun u hq hi => h u _ (hq₄.trans hq) hi) ?_
    intro u files hq hi hdata hext
    have hgu := hg₄.trans hq.grow
    refine wpm_publishIndex hc (hseen.grow (hr₂.quiet.grow.trans hgu)) ?_ ?_ (hE₄.quiet hq)
      (fun v r hv hiv => h v r (hq₄.trans (hq.trans hv)) hiv)
    · refine ⟨hm.tableId, hm.version, hm.schema, ?_, ?_, ?_, ?_⟩
      · rw [hlast]
        exact Nat.le_trans hbound hq.grow.length
      · rw [hlast, flatMap_appended hi₄ (fun wal hids _ => by rw [entriesOf, hids, List.map_nil]),
          ← slice_grow hq.grow hbound]
        exact indexOk_append hi (hgu.indexOk (by omega) hes) (Nat.le_trans hbound hq.grow.length)
      · intro hF
        rw [hlast, hdata hF, ← slice_grow hq.grow hbound, rows_slice hi, rowsOf_take]
      · rw [← slice_grow hq.grow hbound] at hext hlast ⊢
        rw [hlast]
        refine filesOk_extended hi (hgu.filesOk (by omega) hm.files) hpos (by omega) ?_ hlast hext
        rw [toNat_succ]
        omega
    · show current.state.indexedSeq.toNat < _
      rw [hlast]
      omega

theorem wpm_indexLoop {f : CloudIndexResult → StoreMethod α} (hc : c ≠ .start) (attempts : Nat) (hs : Inv P s)
    (hE : Escapes P i E s) (h : ∀ u r, Quiet P i s u → Inv P u → wpm (ctx P i c) (f r) Q E u) :
    wpm (ctx P i c) (indexLoop P.table P.hashes P.format attempts >>= f) Q E s := by
  induction attempts generalizing s with
  | zero =>
      rw [indexLoop, bind_assoc]
      refine wpm_load hs (hE.faults _) (fun s₁ hr hi _ => h s₁ _ hr.quiet hi) ?_
      exact fun s₁ vs hr hi _ _ => h s₁ _ hr.quiet hi
  | succ attempts ih =>
      rw [indexLoop, bind_assoc]
      refine wpm_indexPass hc hs hE ?_
      intro u r hq hi
      cases r with
      | some r => exact h u r hq hi
      | none => exact ih hi (hE.quiet hq) fun v r hv hiv => h v r (hq.trans hv) hiv

theorem index_ok (hs : Inv P s) (hidle : Idle P i s) :
    wpm (ctx P i .index) (index P.table P.hashes P.format (P.attempts i)) (Ends P i .index)
      (Throws P i .index) s := by
  rw [index]
  refine wpm_indexLoop (by decide) _ hs (fun x u hq hiu => ⟨hidle.quiet hs hiu hq, trivial⟩) ?_
  intro u r hq hi
  exact wpm_pure fun v hv hiv => ⟨hidle.quiet hs hiv (hq.trans hv.quiet), trivial⟩

end DBPlayground.IndexSpec
