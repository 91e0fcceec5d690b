import DBPlayground.Cloud.SoloWriter

namespace DBPlayground.SoloIndexer

open ByteReader Table Wire Records Keys WalCodec Program Session Solo Store StateStore TableWriter WalIndexer
  CloudSystem Log Invariant ReadSpecs LogReads SoloReads SoloWriter

variable {ι : Type} [DecidableEq ι] {P : Params ι} {i : ι} {α : Type} {r : Except Exn α} {s t : World ι}

theorem runs_extendManifest {m : SequentialManifest} (first last : U64) {chunks : List Chunk} {key bytes : Bytes}
    (hP : Serves P) (hne : chunks ≠ []) (hkey : key.take 5 = ascii "data/") (hnew : s.issued key = none)
    (hb : P.format.write chunks = .ok bytes) :
    SoloRun P i .index (extendManifest P.table P.format m first last chunks) s
      (.ok (some { m with
        dataFiles := m.dataFiles ++ [⟨dataPath P.table key, first, last, rowTotal chunks⟩] }))
      ((s.issue i key).write (dataPath P.table key) bytes) := by
  have hx : perform i .index (.key key) .newDataFileKey s = some (.ok key, s.issue i key) := by
    simp only [perform, if_pos hnew]
  have hfile : SoloRun P i .index (writeDataFile P.table P.format chunks) s (.ok (some (dataPath P.table key)))
      ((s.issue i key).write (dataPath P.table key) bytes) := by
    refine runs_request (.key key) hP hx rfl ?_
    rw [if_neg (fun h => h hkey)]
    exact runsM_lift hb (runs_request .answer hP rfl rfl (runsM_pure _))
  rw [extendManifest, if_neg hne]
  exact runsM_bind hfile (runsM_pure _)

theorem indexed_follows {st : SequentialState} {td : TableDescriptor} {last : U64} {key : Bytes}
    (hid : st.tableId = td.tableId) (hle : st.indexedSeq ≤ last) : Follows td st (indexedState st last key) := by
  have hpub : last ≤ (indexedState st last key).publishedSeq ∧
      st.publishedSeq ≤ (indexedState st last key).publishedSeq := by
    simp only [indexedState]
    split
    · exact ⟨BitVec.le_refl _, BitVec.le_of_lt ‹_›⟩
    · exact ⟨BitVec.not_lt.mp ‹_›, BitVec.le_refl _⟩
  exact ⟨hid, rfl, ⟨BitVec.le_refl _, hle, hpub.2⟩, hpub.1⟩

def dedupKey (manifestKey : Bytes) : Bytes := ascii "dedup/" ++ (manifestKey.drop 9 ++ ascii ".idx")

omit [DecidableEq ι] in
theorem metaKey_ne_dedupKey {key : Bytes} (hkey : key.take 9 = ascii "manifest/") :
    metaKey P.table key ≠ metaKey P.table (dedupKey key) := by
  intro h
  have hk := congrArg (List.take 6) (metaKey_inj.mp h)
  rw [show (dedupKey key).take 6 = ascii "dedup/" from rfl,
    show key.take 6 = (key.take 9).take 6 by rw [List.take_take]; rfl, hkey] at hk
  exact absurd hk (by decide)

omit [DecidableEq ι] in
theorem current_ne_dedupKey {key : Bytes} : currentKey P.table ≠ metaKey P.table (dedupKey key) :=
  (metaKey_ne_current (ne_current_of_take (s := ascii "dedup/") (n := 6) rfl (by decide))).symm

omit [DecidableEq ι] in
theorem current_ne_manifest {key : Bytes} (hkey : key.take 9 = ascii "manifest/") :
    currentKey P.table ≠ metaKey P.table key :=
  (metaKey_ne_current (ne_current_of_take hkey (by decide))).symm

theorem runs_publishIndex {st : SequentialState} {v : VersionedValue} {m : SequentialManifest}
    {entries : List SequentialBatchEntry} {last : U64} {key index manifest current : Bytes} (hP : Serves P)
    (hkey : key.take 9 = ascii "manifest/") (hv : s.entries (currentKey P.table) = some v)
    (hid : st.tableId = P.table.tableId) (hle : st.indexedSeq ≤ last)
    (hnew : s.entries (metaKey P.table (dedupKey key)) = none) (hnew' : s.entries (metaKey P.table key) = none)
    (hi : encodeSequentialBatchIndex (sortEntries entries) = .ok index)
    (hm : encodeSequentialManifest { m with batchIndexFiles := [dedupKey key], coveredThroughSeq := last } =
      .ok manifest)
    (hc : encodeSequentialState (indexedState st last key) = .ok current) :
    SoloRun P i .index (publishIndex P.table ⟨st, v.version⟩ m entries last) s
      (.ok (some (indexResult .indexed (some (indexedState st last key)))))
      (((s.put (metaKey P.table (dedupKey key)) index).put (metaKey P.table key) manifest).put
        (currentKey P.table) current) := by
  have hman : (s.put (metaKey P.table (dedupKey key)) index).entries (metaKey P.table key) = none := by
    simp only [World.put, Function.update_of_ne (metaKey_ne_dedupKey hkey), hnew']
  have hv' : ((s.put (metaKey P.table (dedupKey key)) index).put (metaKey P.table key) manifest).entries
      (currentKey P.table) = some v := by
    simp only [World.put, Function.update_of_ne current_ne_dedupKey, Function.update_of_ne (current_ne_manifest hkey), hv]
  refine runs_request (.key key) hP rfl rfl ?_
  rw [if_neg (fun h => h hkey)]
  refine runsM_bind (runsM_lift hi (runs_putIfAbsent hP hnew)) ?_
  refine runsM_bind (runsM_lift hm (runs_putIfAbsent hP hman)) ?_
  refine runs_compareExchange hP hv' (indexed_follows hid hle) hc ?_
  rw [acquire_of_ne (by rintro ⟨⟩)]
  exact runsM_pure _

theorem runs_index {n len : Nat} {st : SequentialState} {v w : VersionedValue} {m m' : SequentialManifest}
    {es : List SequentialBatchEntry} {res : CloudIndexResult} {t' : World ι} (hP : Serves P) (hs : Inv P s)
    (hcols : P.table.schema.length ≤ 1024) (hloc : trimSlashes P.table.filePrefix ≠ [])
    (hsize : ∀ d ∈ s.created, d.bytes.length ≤ maxWalBytes)
    (hv : s.entries (currentKey P.table) = some v) (hd : decodeSequentialState v.value = .ok st)
    (hst : StateOk P s st) (hw : s.entries (metaKey P.table st.manifestKey) = some w)
    (hm : encodeSequentialManifest m = .ok w.value) (hok : ManifestOk P s m st.indexedSeq)
    (hes : IndexFiles P s m.batchIndexFiles es) (hlen : st.indexedSeq.toNat + len = s.created.length)
    (hpos : 0 < len) (hmax : len < maxWalPerPass) (hroom : s.created.length + 1 < 2 ^ 64)
    (hext : SoloRun P i .index (extendManifest P.table P.format m (st.indexedSeq + 1)
      (st.indexedSeq + BitVec.ofNat 64 len)
      ((appended (slice P s st.indexedSeq.toNat len)).flatMap (·.chunks))) s (.ok (some m')) t)
    (hpub : SoloRun P i .index (publishIndex P.table ⟨st, v.version⟩ m'
      (es ++ (appended (slice P s st.indexedSeq.toNat len)).flatMap fun wal => entriesOf wal.seq wal)
      (st.indexedSeq + BitVec.ofNat 64 len)) t (.ok (some res)) t') :
    SoloRun P i .index (index P.table P.hashes P.format (n + 1)) s (.ok (.done (.indexed res))) t' := by
  have hcount := length_slice (P := P) (Nat.le_of_eq hlen)
  have hlt : len < min maxWalPerPass (uint64Max.toNat - st.indexedSeq.toNat) := by
    rw [show uint64Max.toNat = 18446744073709551615 from rfl]
    omega
  have hne : slice P s st.indexedSeq.toNat len ≠ [] := by
    intro h
    rw [h] at hcount
    exact absurd hcount (Nat.ne_of_lt hpos)
  have hpass : SoloRun P i .index (indexPass P.table P.hashes P.format) s (.ok (some res)) t' := by
    refine runs_load hP hv hd hst.tableId rfl ?_
    refine runs_loadManifest hP hcols hw hm hok hst.version rfl (runs_loadBatchIndex hP hes (fun _ _ => rfl) ?_)
    refine runs_collectWals hP hs (eq_ofNat_toNat _) hlen hlt hroom hloc hsize ?_
    rw [if_neg hne, hcount]
    exact runsM_bind hext hpub
  exact runsM_bind (runsM_bind hpass (runsM_pure _)) (runsM_pure _)

end DBPlayground.SoloIndexer
