import DBPlayground.Cloud.CalmStore
import DBPlayground.Cloud.DedupIndex

namespace DBPlayground.IndexPass

open ByteReader Table Wire Records Keys WalCodec WalRoundTrip Program Session Store StateStore TableWriter WalIndexer
  SortEntries CloudSystem Log Invariant LogReads IndexSpec SoloWriter SoloIndexer CalmStore Correct LogOrder
  Progress TextTable
open Machine hiding perform Returns Throws

section Entries

variable {ι : Type} {P : Params ι} {w : World ι} {n : Nat} {es : List SequentialBatchEntry}

def idsThrough (P : Params ι) (w : World ι) (n : Nat) : List Bytes :=
  (w.created.take n).flatMap fun d => (walOf P d).batchIds

theorem nodup_batchIds {d : Creation ι} {k : Nat} (h : Slot P d k) : (walOf P d).batchIds.Nodup := by
  rcases h.cases with hw | ⟨b, _, hvalid, _, _, _, hw⟩
  · rw [hw]
    exact List.nodup_nil
  · rw [hw]
    simp only [isValidBatch, Bool.and_eq_true, decide_eq_true_eq] at hvalid
    exact hvalid.1.2

theorem nodup_idsThrough (hw : Inv P w) (n : Nat) : (idsThrough P w n).Nodup := by
  have hmem : ∀ (k : Nat) (h : k < (w.created.take n).length), w.created[k]? = some (w.created.take n)[k] := by
    intro k h
    rw [List.getElem_take]
    exact List.getElem?_eq_getElem (by rw [List.length_take] at h; omega)
  refine List.nodup_flatMap.mpr ⟨?_, List.pairwise_iff_getElem.mpr ?_⟩
  · intro d hd
    obtain ⟨k, hk⟩ := List.mem_iff_getElem?.mp (List.mem_of_mem_take hd)
    exact nodup_batchIds (hw.slots k d hk)
  · intro k l hk hl hlt id hid hid'
    exact absurd (hw.disjoint k l _ _ (hmem k hk) (hmem l hl) id hid hid') (Nat.ne_of_lt hlt)

theorem length_index (hw : Inv P w) (h : IndexOk P w n es) (hes : (es.map (·.batchId)).Nodup) :
    es.length = (idsThrough P w n).length := by
  rw [← List.length_map (·.batchId)]
  refine ((List.perm_ext_iff_of_nodup hes (nodup_idsThrough hw n)).mpr ?_).length_eq
  intro id
  simp only [List.mem_map, idsThrough, List.mem_flatMap]
  constructor
  · rintro ⟨e, he, rfl⟩
    obtain ⟨k, c, hk, hlt, _, hid, _⟩ := h.sound e he
    exact ⟨c, List.mem_iff_getElem?.mpr ⟨k, by rw [List.getElem?_take_of_lt hlt]; exact hk⟩, hid⟩
  · rintro ⟨c, hc, hid⟩
    obtain ⟨k, hk⟩ := List.mem_iff_getElem?.mp hc
    obtain ⟨hlt, _⟩ := List.getElem?_eq_some_iff.mp hk
    rw [List.length_take] at hlt
    rw [List.getElem?_take_of_lt (by omega)] at hk
    exact h.complete k c hk (by omega) id hid

theorem putEntry_ok (hw : Inv P w) (h : IndexOk P w n es) {e : SequentialBatchEntry} (he : e ∈ es) :
    ∃ c, putEntry e = .ok c := by
  obtain ⟨k, d, hd, _, hseq, hid, hop, hdigest⟩ := h.sound e he
  have hslot := hw.slots k d hd
  have hkind : (walOf P d).kind = .append := by
    cases hk : (walOf P d).kind with
    | append => rfl
    | fence =>
        rw [(hslot.fence_contents hk).1] at hid
        cases hid
  obtain ⟨hwf, header, ids, _, hh, hids, _, _⟩ := encode_ok.mp (hslot.encode_walOf hkind)
  obtain ⟨_, c, hc, _⟩ := putStrings_ok.mp hids
  obtain ⟨bid, hbid⟩ := putAll_exists.mp ⟨c, hc⟩ e.batchId hid
  obtain ⟨_, _, hh⟩ := Except.bind_ok.mp hh
  obtain ⟨op, hop', _⟩ := Except.bind_ok.mp hh
  have hne : e.batchId ≠ [] := by
    rcases hslot.cases with hw | ⟨b, _, hvalid, _, _, _, hw⟩
    · rw [hw] at hid
      cases hid
    · rw [hw] at hid
      simp only [isValidBatch, Bool.and_eq_true, List.all_eq_true] at hvalid
      simpa using hvalid.1.1.2 e.batchId hid
  refine ⟨_, Except.bind_ok.mpr ⟨(), throwIf_ok.mpr ?_, Except.bind_ok.mpr ⟨bid, hbid,
    Except.bind_ok.mpr ⟨op, by rw [hop]; exact hop', rfl⟩⟩⟩⟩
  rintro (h | h | h | h)
  · exact hne h
  · rw [hseq] at h
    exact hslot.seq_ne_zero h
  · exact hwf.header (.inr (.inr (.inr (hop.symm.trans h))))
  · exact h (by rw [hdigest]; exact hslot.digest_length)

theorem encodeIndex_exists (hw : Inv P w) (h : IndexOk P w n es) :
    (∃ b, encodeSequentialBatchIndex es = .ok b) ↔ es.length < 2 ^ 32 := by
  constructor
  · rintro ⟨b, hb⟩
    obtain ⟨_, hcount, _⟩ := Except.bind_ok.mp hb
    have := throwIf_ok.mp hcount
    unfold uint32Max at this
    omega
  · intro hlt
    obtain ⟨c, hc⟩ := putAll_exists.mpr fun e he => putEntry_ok hw h he
    refine ⟨_, Except.bind_ok.mpr ⟨(), throwIf_ok.mpr ?_, Except.bind_ok.mpr ⟨c, hc, rfl⟩⟩⟩
    unfold uint32Max
    omega

end Entries

section Pass

variable {ι : Type} {P : Params ι} {w : World ι} {n : Nat}

/-- The slots that a pass takes in, when the first `n` are indexed. -/
def passSlots (w : World ι) (n : Nat) : List (Creation ι) := (w.created.drop n).take maxWalPerPass

def passEnd (w : World ι) (n : Nat) : Nat := min w.created.length (n + maxWalPerPass)

def passChunks (P : Params ι) (w : World ι) (n : Nat) : List Chunk :=
  (appended ((passSlots w n).map (walOf P))).flatMap (·.chunks)

def passSeq (w : World ι) (seq : U64) : U64 := BitVec.ofNat 64 (passEnd w seq.toNat)

theorem length_passSlots (hn : n ≤ w.created.length) : n + (passSlots w n).length = passEnd w n := by
  rw [passSlots, passEnd, List.length_take, List.length_drop]
  omega

theorem passSlots_eq_nil (hn : n ≤ w.created.length) : passSlots w n = [] ↔ w.created.length = n := by
  rw [← List.length_eq_zero_iff, passSlots, List.length_take, List.length_drop, maxWalPerPass]
  omega

theorem slice_pass (w : World ι) (n : Nat) : slice P w n (passSlots w n).length = (passSlots w n).map (walOf P) := by
  rw [slice, passSlots, List.length_take, List.take_eq_take_iff.mpr]
  omega

theorem toNat_passSeq (hw : Inv P w) (seq : U64) : (passSeq w seq).toNat = passEnd w seq.toNat := by
  have hroom := hw.room
  rw [passSeq, BitVec.toNat_ofNat, passEnd]
  omega

theorem add_length_passSlots {seq : U64} (hn : seq.toNat ≤ w.created.length) :
    seq + BitVec.ofNat 64 (passSlots w seq.toNat).length = passSeq w seq := by
  rw [passSeq, ← length_passSlots hn, BitVec.ofNat_add, ← eq_ofNat_toNat]

theorem mem_passSlots {d : Creation ι} (h : d ∈ passSlots w n) : ∃ k : Nat, w.created[k]? = some d :=
  List.mem_iff_getElem?.mp (List.mem_of_mem_drop (List.mem_of_mem_take h))

theorem passChunks_ne_nil (hw : Inv P w) : passChunks P w n ≠ [] ↔ ∃ d ∈ passSlots w n, (walOf P d).kind = .append := by
  constructor
  · intro hne
    obtain ⟨c, hc⟩ := List.exists_mem_of_ne_nil _ hne
    obtain ⟨wal, hwal, _⟩ := List.mem_flatMap.mp hc
    obtain ⟨hmem, hkind⟩ := List.mem_filter.mp hwal
    obtain ⟨d, hd, rfl⟩ := List.mem_map.mp hmem
    exact ⟨d, hd, by simpa using hkind⟩
  · rintro ⟨d, hd, hkind⟩ hnil
    obtain ⟨k, hk⟩ := mem_passSlots hd
    have hmem : walOf P d ∈ appended ((passSlots w n).map (walOf P)) :=
      List.mem_filter.mpr ⟨List.mem_map_of_mem hd, by simpa using hkind⟩
    exact (encoded_of_slot (hw.slots k d hk) hkind).1 (List.flatMap_eq_nil_iff.mp hnil _ hmem)

theorem full_passChunks (hw : Inv P w) : ∀ c ∈ passChunks P w n, isFullSchemaChunk c P.table.schema = true := by
  intro c hc
  obtain ⟨wal, hwal, hc⟩ := List.mem_flatMap.mp hc
  obtain ⟨hmem, hkind⟩ := List.mem_filter.mp hwal
  obtain ⟨d, hd, rfl⟩ := List.mem_map.mp hmem
  obtain ⟨k, hk⟩ := mem_passSlots hd
  obtain ⟨_, _, _, _, _, _, hentries, _⟩ := encode_ok.mp ((hw.slots k d hk).encode_walOf (by simpa using hkind))
  obtain ⟨e, _, he⟩ := exists_of_forall₂ hentries hc
  exact (chunkEntry_ok he).1

theorem rows_passChunks (hw : Inv P w) : (passChunks P w n).flatMap Chunk.rows = rowsOf P (passSlots w n) := by
  have h : ((appended (slice P w n (passSlots w n).length)).flatMap (·.chunks)).flatMap Chunk.rows = _ := rows_slice hw
  rw [slice_pass] at h
  rw [passChunks, h, passSlots, List.length_take, List.take_eq_take_iff.mpr]
  omega

theorem toNat_rowTotal_pass (hw : Inv P w) : (rowTotal (passChunks P w n)).toNat = (rowsOf P (passSlots w n)).length := by
  have h : (rowTotal ((appended (slice P w n maxWalPerPass)).flatMap (·.chunks))).toNat = _ :=
    toNat_rowTotal hw (Nat.le_refl _)
  rwa [slice] at h

theorem rowTotal_ne_zero (hw : Inv P w) (hne : passChunks P w n ≠ []) : rowTotal (passChunks P w n) ≠ 0 := by
  intro hzero
  have h := toNat_rowTotal_pass hw (n := n)
  rw [hzero, ← rows_passChunks hw, length_rows_chunks] at h
  obtain ⟨c, hc⟩ := List.exists_mem_of_ne_nil _ hne
  have hle := List.single_le_sum (fun _ _ => Nat.zero_le _) _ (List.mem_map_of_mem (f := (·.rowCount)) hc)
  have hpos := rowCount_pos (full_passChunks hw c hc)
  rw [← h] at hle
  exact hpos (Nat.le_zero.mp hle)

end Pass

section Stages

variable {ι : Type} {P : Params ι} {w : World ι} {v : VersionedValue} {st : SequentialState}
  {m : SequentialManifest} {es : List SequentialBatchEntry}

/-- What a pass finds: CURRENT, its manifest and the batch index. -/
structure Ground (P : Params ι) (w : World ι) (v : VersionedValue) (st : SequentialState) (m : SequentialManifest)
    (es : List SequentialBatchEntry) : Prop where
  inv : Inv P w
  current : w.entries (currentKey P.table) = some v
  decoded : decodeSequentialState v.value = .ok st
  state : StateOk P w st
  manifest : ∃ u, w.entries (metaKey P.table st.manifestKey) = some u ∧ encodeSequentialManifest m = .ok u.value
  ok : ManifestOk P w m st.indexedSeq
  files : IndexFiles P w m.batchIndexFiles es
  index : IndexOk P w st.indexedSeq.toNat es

theorem exists_ground (hw : Inv P w) (hst : CurrentState P w st) : ∃ v m es, Ground P w v st m es := by
  obtain ⟨v, hv, hd⟩ := hst
  obtain ⟨st', hc⟩ := hw.current v hv
  obtain rfl : st' = st := Except.ok.inj (hc.decoded.symm.trans hd)
  obtain ⟨u, m, hu, hm, hok⟩ := hc.state.manifest
  obtain ⟨es, hfiles, hes⟩ := hok.index
  exact ⟨v, m, es, hw, hv, hd, hc.state, ⟨u, hu, hm⟩, hok, hfiles, hes⟩

theorem Ground.indexed_le (g : Ground P w v st m es) : st.indexedSeq.toNat ≤ w.created.length :=
  Nat.le_trans g.state.indexed g.state.published

theorem Ground.seq_lt (g : Ground P w v st m es) (hne : w.created.length ≠ st.indexedSeq.toNat) :
    (st.indexedSeq + 1).toNat = st.indexedSeq.toNat + 1 ∧ st.indexedSeq.toNat < (passSeq w st.indexedSeq).toNat := by
  have hroom := g.inv.room
  have hle := g.indexed_le
  rw [toNat_passSeq g.inv, toNat_succ, passEnd, maxWalPerPass]
  omega

structure Loadable (P : Params ι) (w : World ι) (n : Nat) : Prop where
  columns : P.table.schema.length ≤ 1024
  located : trimSlashes P.table.filePrefix ≠ []
  small : ∀ d ∈ passSlots w n, d.bytes.length ≤ maxWalBytes

theorem located_of_slot (hw : Inv P w) {k : Nat} {d : Creation ι} (hd : w.created[k]? = some d) :
    trimSlashes P.table.filePrefix ≠ [] := by
  intro hnil
  have hkey := (hw.slots k d hd).key
  rw [sequentialWalKey, hnil] at hkey
  obtain ⟨_, _, hkey⟩ := Except.bind_ok.mp hkey
  obtain ⟨_, hkey, _⟩ := Except.bind_ok.mp hkey
  exact throwIf_ok.mp hkey rfl

theorem fuel_covers (hw : Inv P w) (n : Nat) :
    (w.created.drop n).take (min maxWalPerPass (uint64Max.toNat - n)) = passSlots w n := by
  have hroom := hw.room
  rw [passSlots, List.take_eq_take_iff, List.length_drop, show uint64Max.toNat = 18446744073709551615 from rfl]
  omega

variable [DecidableEq ι] {i : ι} {dk mk : Bytes} {r : Except Exn (Option CloudIndexResult)} {t : World ι}

variable (i dk mk) in
theorem ends_collect (g : Ground P w v st m es) (h : Loadable P w st.indexedSeq.toNat) :
    Ends (calm i dk mk) (collectWals P.table P.hashes st.indexedSeq
        (min maxWalPerPass (uint64Max.toNat - st.indexedSeq.toNat))) w
      (.ok ((passSlots w st.indexedSeq.toNat).map (walOf P))) w := by
  have hroom := g.inv.room
  have hmax : uint64Max.toNat = 18446744073709551615 := rfl
  have hlen := g.indexed_le
  have hsmall : SmallWals w st.indexedSeq.toNat (min maxWalPerPass (uint64Max.toNat - st.indexedSeq.toNat)) := by
    rw [SmallWals, fuel_covers g.inv]
    exact h.small
  have hwals := ends_collectWals i dk mk g.inv (by omega) hlen h.located hsmall
  rwa [slice, fuel_covers g.inv, ← eq_ofNat_toNat] at hwals

variable (i dk mk) in
theorem collect_throws (g : Ground P w v st m es)
    (h : ¬ (trimSlashes P.table.filePrefix ≠ [] ∧ ∀ d ∈ passSlots w st.indexedSeq.toNat, d.bytes.length ≤ maxWalBytes)) :
    ∃ e, Ends (calm i dk mk) (collectWals P.table P.hashes st.indexedSeq
      (min maxWalPerPass (uint64Max.toNat - st.indexedSeq.toNat))) w (.error e) w := by
  have hfuel : min maxWalPerPass (uint64Max.toNat - st.indexedSeq.toNat) ≠ 0 := by
    -- at the last sequence number there is a log, so it has a path, and nothing behind it
    intro hzero
    have hroom := g.inv.room
    have hlen := g.indexed_le
    have hmax : uint64Max.toNat = 18446744073709551615 := rfl
    have hpass : maxWalPerPass = 256 := rfl
    refine h ⟨located_of_slot g.inv (List.getElem?_eq_getElem (show 0 < w.created.length by omega)), ?_⟩
    rw [← fuel_covers g.inv, hzero, List.take_zero]
    exact fun _ hd => nomatch hd
  rw [← fuel_covers g.inv] at h
  have hthrows := collectWals_throws i dk mk g.inv g.indexed_le hfuel h
  rwa [← eq_ofNat_toNat] at hthrows

variable (i dk mk) in
theorem pass_throws (g : Ground P w v st m es) (h : ¬ Loadable P w st.indexedSeq.toNat) :
    ∃ e, Ends (calm i dk mk) (indexPass P.table P.hashes P.format) w (.error e) w := by
  obtain ⟨u, hu, hm⟩ := g.manifest
  by_cases hcols : P.table.schema.length ≤ 1024
  · obtain ⟨e, he⟩ := collect_throws i dk mk g fun h' => h ⟨hcols, h'.1, h'.2⟩
    exact ⟨e, (ends_load g.current g.decoded g.state.tableId).bind ((ends_loadManifest hcols hu hm g.ok g.state.version).bind
      ((ends_loadBatchIndex g.files).bind he.throw))⟩
  · obtain ⟨e, he⟩ := loadManifest_throws (P := P) i dk mk (Nat.lt_of_not_le hcols) hu
    exact ⟨e, (ends_load g.current g.decoded g.state.tableId).bind he.throw⟩

theorem pass_nothing (g : Ground P w v st m es) (h : Loadable P w st.indexedSeq.toNat)
    (hend : w.created.length = st.indexedSeq.toNat) :
    Ends (calm i dk mk) (indexPass P.table P.hashes P.format) w (.ok (some (indexResult .nothingToDo (some st)))) w := by
  obtain ⟨u, hu, hm⟩ := g.manifest
  have hwals := ends_collect i dk mk g h
  rw [(passSlots_eq_nil g.indexed_le).mpr hend] at hwals
  exact (ends_load g.current g.decoded g.state.tableId).bind
    ((ends_loadManifest h.columns hu hm g.ok g.state.version).bind ((ends_loadBatchIndex g.files).bind
      (hwals.bind ends_pure)))

def passEntries (P : Params ι) (w : World ι) (n : Nat) (es : List SequentialBatchEntry) : List SequentialBatchEntry :=
  es ++ (appended ((passSlots w n).map (walOf P))).flatMap fun wal => entriesOf wal.seq wal

theorem pass_extends (g : Ground P w v st m es) (h : Loadable P w st.indexedSeq.toNat)
    (hne : w.created.length ≠ st.indexedSeq.toNat) {x : Except Exn (Option SequentialManifest)} {u : World ι}
    (hext : Ends (calm i dk mk) (extendManifest P.table P.format m (st.indexedSeq + 1) (passSeq w st.indexedSeq)
      (passChunks P w st.indexedSeq.toNat)) w x u)
    (hrest : Ends (calm i dk mk) (Program.lift x >>= fun
      | none => pure (some (indexResult .invalidState (some st)))
      | some m' => publishIndex P.table ⟨st, v.version⟩ m' (passEntries P w st.indexedSeq.toNat es)
          (passSeq w st.indexedSeq)) u r t) :
    Ends (calm i dk mk) (indexPass P.table P.hashes P.format) w r t := by
  obtain ⟨u', hu, hm⟩ := g.manifest
  refine (ends_load g.current g.decoded g.state.tableId).bind ?_
  refine (ends_loadManifest h.columns hu hm g.ok g.state.version).bind ?_
  refine (ends_loadBatchIndex g.files).bind ((ends_collect i dk mk g h).bind ?_)
  rw [if_neg fun hnil => hne ((passSlots_eq_nil g.indexed_le).mp (List.map_eq_nil_iff.mp hnil)), List.length_map,
    add_length_passSlots g.indexed_le]
  cases x with
  | ok m' => exact hext.bind hrest
  | error e =>
      obtain ⟨rfl, rfl⟩ : Except.error e = r ∧ u = t := Prod.mk.inj (Option.some.inj hrest)
      exact hext.throw

end Stages

end DBPlayground.IndexPass
