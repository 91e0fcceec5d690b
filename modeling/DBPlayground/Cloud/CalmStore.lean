import DBPlayground.Lib.Machine
import DBPlayground.Cloud.SoloIndexer
import DBPlayground.Cloud.RecordsExact

namespace DBPlayground.CalmStore

open ByteReader Table Wire Records Keys WalCodec Program Session Store StateStore TableWriter WalIndexer
  CloudSystem Log Invariant LogReads SoloWriter SoloIndexer
open Machine hiding perform

/-- The surroundings of an index pass that nothing disturbs: every request is
answered, and the generators return these keys. -/
def choice (dataKey manifestKey : Bytes) : Op → Env
  | .newDataFileKey => .key dataKey
  | .newManifestKey => .key manifestKey
  | _ => .answer

variable {ι : Type} [DecidableEq ι]

def calm (i : ι) (dataKey manifestKey : Bytes) : Handler Op Ans (World ι) :=
  fun o w => perform i .index (choice dataKey manifestKey o) o w

variable {P : Params ι} {i : ι} {dk mk : Bytes} {α : Type} {r : Except Exn α} {s t : World ι}

theorem ends_ask {o : Op} {a : Res o} {u : World ι} (h : calm i dk mk o s = some (.ok a, u)) :
    Ends (calm i dk mk) (request o) s (.ok a) u := by
  show run (calm i dk mk) (Prog.call o .ret) s = _
  simp only [run, h]

theorem ends_request {o : Op} {a : Res o} {f : Res o → StoreMethod α} {u : World ι}
    (h : calm i dk mk o s = some (.ok a, u)) (hf : Ends (calm i dk mk) (f a) u r t) :
    Ends (calm i dk mk) (request o >>= f) s r t :=
  (ends_ask h).bind hf

theorem ends_metaGet {key : Bytes} {f : Option VersionedValue → StoreMethod α}
    (h : Ends (calm i dk mk) (f (s.entries key)) s r t) : Ends (calm i dk mk) (metaGet key >>= f) s r t :=
  ends_request rfl h

theorem ends_openInput {path : Bytes} {f : Option Bytes → StoreMethod α}
    (h : Ends (calm i dk mk) (f (s.files path)) s r t) : Ends (calm i dk mk) (openInput path >>= f) s r t :=
  ends_request rfl h

theorem ends_throwIf {bad : Prop} [Decidable bad] {e : Exn} {f : Unit → StoreMethod α} (hbad : ¬ bad)
    (h : Ends (calm i dk mk) (f ()) s r t) : Ends (calm i dk mk) (throwIf bad e >>= f) s r t := by
  rw [throwIf, if_neg hbad]
  exact h

theorem ends_throwIf_throw {bad : Prop} [Decidable bad] {e : Exn} {f : Unit → StoreMethod α} (hbad : bad) :
    Ends (calm i dk mk) (throwIf bad e >>= f) s (.error e) s := by
  rw [throwIf, if_pos hbad]
  rfl

section Reads

theorem ends_load {v : VersionedValue} {st : SequentialState} (hv : s.entries (currentKey P.table) = some v)
    (hd : decodeSequentialState v.value = .ok st) (ht : st.tableId = P.table.tableId) :
    Ends (calm i dk mk) (load P.table) s (.ok (some ⟨st, v.version⟩)) s := by
  refine ends_metaGet ?_
  rw [hv]
  exact ends_lift hd (ends_throwIf (fun hne => hne ht) ends_pure)

variable {st : SequentialState} {v : VersionedValue} {m : SequentialManifest}

theorem ends_loadManifest (hcols : P.table.schema.length ≤ 1024)
    (hv : s.entries (metaKey P.table st.manifestKey) = some v) (hm : encodeSequentialManifest m = .ok v.value)
    (hok : ManifestOk P s m st.indexedSeq) (hver : st.schemaVersion = 1) :
    Ends (calm i dk mk) (loadManifest P.table st) s (.ok m) s := by
  refine ends_metaGet ?_
  rw [hv]
  refine ends_lift (decode_encode_manifest hm (by rw [hok.schema]; exact hcols)) (ends_throwIf ?_ ends_pure)
  rw [hok.tableId, hok.covered, hok.version, hver, hok.schema, schemasEqual_iff.mpr rfl]
  simp

variable (i dk mk) in
theorem loadManifest_throws (hcols : 1024 < P.table.schema.length)
    (hv : s.entries (metaKey P.table st.manifestKey) = some v) :
    ∃ e, Ends (calm i dk mk) (loadManifest P.table st) s (.error e) s := by
  cases hd : decodeSequentialManifest v.value with
  | error e =>
      refine ⟨e, ends_metaGet ?_⟩
      rw [hv]
      exact ends_lift_throw hd
  | ok m' =>
      refine ⟨.runtimeError "sequential: manifest mismatch", ends_metaGet ?_⟩
      rw [hv]
      refine ends_lift hd (ends_throwIf_throw (.inr (.inr (.inr ?_))))
      have hle := columns_of_decode hd
      cases hs : schemasEqual m'.schema P.table.schema with
      | false => rfl
      | true =>
          rw [schemasEqual_iff.mp hs] at hle
          omega

theorem ends_loadBatchIndex {keys : List Bytes} {es : List SequentialBatchEntry} (hx : IndexFiles P s keys es) :
    Ends (calm i dk mk) (loadBatchIndex P.table keys) s (.ok es) s := by
  induction hx with
  | nil => exact ends_pure
  | cons hv hd _ _ ih =>
      refine ends_metaGet ?_
      rw [hv]
      exact ends_lift hd (ih.bind ends_pure)

end Reads

section Wals

variable (hs : Inv P s)

include hs

theorem ends_loadWal {n : Nat} {d : Creation ι} (hd : s.created[n]? = some d) (hsize : d.bytes.length ≤ maxWalBytes) :
    Ends (calm i dk mk) (loadSequentialWal P.table P.hashes (BitVec.ofNat 64 (n + 1))) s (.ok (some (walOf P d))) s := by
  have hslot := hs.slots n d hd
  refine ends_lift hslot.key (ends_openInput ?_)
  rw [hs.files d (List.mem_of_getElem? hd)]
  refine ends_throwIf (Nat.not_lt.mpr hsize) (ends_lift hslot.decoded (ends_throwIf ?_ ends_pure))
  rw [hslot.seq, hslot.tableId, hslot.schemaVersion]
  simp

theorem loadWal_throws {n : Nat} {d : Creation ι} (hd : s.created[n]? = some d) (hsize : maxWalBytes < d.bytes.length) :
    ∃ e, Ends (calm i dk mk) (loadSequentialWal P.table P.hashes (BitVec.ofNat 64 (n + 1))) s (.error e) s := by
  refine ⟨.runtimeError "sequential: WAL too large", ends_lift (hs.slots n d hd).key (ends_openInput ?_)⟩
  rw [hs.files d (List.mem_of_getElem? hd)]
  exact ends_throwIf_throw hsize

theorem ends_loadWal_none {seq : U64} (hlen : s.created.length < seq.toNat)
    (hloc : trimSlashes P.table.filePrefix ≠ []) :
    Ends (calm i dk mk) (loadSequentialWal P.table P.hashes seq) s (.ok none) s := by
  have hz : seq ≠ 0 := by
    rintro rfl
    exact absurd hlen (Nat.not_lt_zero _)
  have hfile : s.files (walPath P.table seq) = none := by
    by_contra hne
    obtain ⟨b, hb⟩ := Option.ne_none_iff_exists'.mp hne
    have hle := (hs.onlySlots seq b hb).2
    omega
  refine ends_lift (walKey_ok hz hloc) (ends_openInput ?_)
  rw [hfile]
  exact ends_pure

omit hs in
variable (i dk mk s) in
theorem loadWal_unlocated (seq : U64) (hloc : trimSlashes P.table.filePrefix = []) :
    ∃ e, Ends (calm i dk mk) (loadSequentialWal P.table P.hashes seq) s (.error e) s := by
  cases hk : sequentialWalKey P.table seq with
  | ok p =>
      rw [sequentialWalKey, hloc] at hk
      obtain ⟨_, _, hk⟩ := Except.bind_ok.mp hk
      obtain ⟨_, hk, _⟩ := Except.bind_ok.mp hk
      exact absurd rfl (throwIf_ok.mp hk)
  | error e => exact ⟨e, ends_lift_throw hk⟩

def SmallWals (w : World ι) (n len : Nat) : Prop := ∀ d ∈ (w.created.drop n).take len, d.bytes.length ≤ maxWalBytes

omit hs [DecidableEq ι] in
theorem smallWals_succ {n len : Nat} {d : Creation ι} (hd : s.created[n]? = some d) :
    SmallWals s n (len + 1) ↔ d.bytes.length ≤ maxWalBytes ∧ SmallWals s (n + 1) len := by
  obtain ⟨hlt, rfl⟩ := List.getElem?_eq_some_iff.mp hd
  rw [SmallWals, List.drop_eq_getElem_cons hlt, List.take_succ_cons]
  exact List.forall_mem_cons

variable (i dk mk) in
theorem ends_collectWals {n m : Nat} (hroom : n + m < 2 ^ 64) (hn : n ≤ s.created.length)
    (hloc : trimSlashes P.table.filePrefix ≠ []) (hsize : SmallWals s n m) :
    Ends (calm i dk mk) (collectWals P.table P.hashes (BitVec.ofNat 64 n) m) s (.ok (slice P s n m)) s := by
  induction m generalizing n with
  | zero => exact ends_pure
  | succ m ih =>
      rw [collectWals, ofNat_succ]
      by_cases hlt : n < s.created.length
      · obtain ⟨d, hd⟩ : ∃ d, s.created[n]? = some d := ⟨_, List.getElem?_eq_getElem hlt⟩
        obtain ⟨hfirst, hrest⟩ := (smallWals_succ hd).mp hsize
        rw [slice_succ hd]
        exact (ends_loadWal hs hd hfirst).bind ((ih (by omega) hlt hrest).bind ends_pure)
      · rw [slice, List.drop_eq_nil_of_le (Nat.le_of_not_lt hlt), List.take_nil]
        refine (ends_loadWal_none hs ?_ hloc).bind ends_pure
        rw [BitVec.toNat_ofNat]
        omega

variable (i dk mk) in
theorem collectWals_throws {n m : Nat} (hn : n ≤ s.created.length) (hm : m ≠ 0)
    (hbad : ¬ (trimSlashes P.table.filePrefix ≠ [] ∧ SmallWals s n m)) :
    ∃ e, Ends (calm i dk mk) (collectWals P.table P.hashes (BitVec.ofNat 64 n) m) s (.error e) s := by
  by_cases hloc : trimSlashes P.table.filePrefix = []
  · obtain ⟨m, rfl⟩ := Nat.exists_eq_add_one_of_ne_zero hm
    obtain ⟨e, he⟩ := loadWal_unlocated i dk mk s (BitVec.ofNat 64 n + 1) hloc
    exact ⟨e, he.throw⟩
  · replace hbad : ¬ SmallWals s n m := fun h => hbad ⟨hloc, h⟩
    clear hm
    induction m generalizing n with
    | zero => exact absurd (by simp [SmallWals]) hbad
    | succ m ih =>
        rw [collectWals, ofNat_succ]
        by_cases hlt : n < s.created.length
        · obtain ⟨d, hd⟩ : ∃ d, s.created[n]? = some d := ⟨_, List.getElem?_eq_getElem hlt⟩
          by_cases hsize : d.bytes.length ≤ maxWalBytes
          · rw [smallWals_succ hd, not_and] at hbad
            obtain ⟨e, he⟩ := ih hlt (hbad hsize)
            exact ⟨e, (ends_loadWal hs hd hsize).bind he.throw⟩
          · obtain ⟨e, he⟩ := loadWal_throws hs hd (Nat.lt_of_not_le hsize)
            exact ⟨e, he.throw⟩
        · refine absurd ?_ hbad
          rw [SmallWals, List.drop_eq_nil_of_le (Nat.le_of_not_lt hlt)]
          simp

end Wals

section Writes

variable {v : VersionedValue} {st : SequentialState} {m : SequentialManifest}

theorem calm_newDataFileKey (hnew : s.issued dk = none) :
    calm i dk mk .newDataFileKey s = some (.ok dk, s.issue i dk) := by
  simp only [calm, choice, perform, if_pos hnew]

theorem ends_extendManifest (first last : U64) {chunks : List Chunk} {bytes : Bytes} (hne : chunks ≠ [])
    (hkey : dk.take 5 = ascii "data/") (hnew : s.issued dk = none) (hb : P.format.write chunks = .ok bytes) :
    Ends (calm i dk mk) (extendManifest P.table P.format m first last chunks) s
      (.ok (some { m with dataFiles := m.dataFiles ++ [⟨dataPath P.table dk, first, last, rowTotal chunks⟩] }))
      ((s.issue i dk).write (dataPath P.table dk) bytes) := by
  have hfile : Ends (calm i dk mk) (writeDataFile P.table P.format chunks) s (.ok (some (dataPath P.table dk)))
      ((s.issue i dk).write (dataPath P.table dk) bytes) := by
    refine ends_request (calm_newDataFileKey hnew) ?_
    rw [if_neg (fun h => h hkey)]
    exact ends_lift hb (ends_request rfl ends_pure)
  rw [extendManifest, if_neg hne]
  exact hfile.bind ends_pure

theorem extendManifest_throws {first last : U64} {chunks : List Chunk} {e : Exn} (hne : chunks ≠ [])
    (hkey : dk.take 5 = ascii "data/") (hnew : s.issued dk = none) (hb : P.format.write chunks = .error e) :
    Ends (calm i dk mk) (extendManifest P.table P.format m first last chunks) s (.error e) (s.issue i dk) := by
  have hfile : Ends (calm i dk mk) (writeDataFile P.table P.format chunks) s (.error e) (s.issue i dk) := by
    refine ends_request (calm_newDataFileKey hnew) ?_
    rw [if_neg (fun h => h hkey)]
    exact ends_lift_throw hb
  rw [extendManifest, if_neg hne]
  exact hfile.throw

theorem ends_putIfAbsent {key value : Bytes} (hnone : s.entries key = none) :
    Ends (calm i dk mk) (putIfAbsent key value) s (.ok (.applied s.nextVersion)) (s.put key value) :=
  ends_ask (by simp only [calm, choice, perform, if_pos hnone])

theorem ends_compareExchange {next : SequentialState} {bytes : Bytes}
    (hv : s.entries (currentKey P.table) = some v) (hn : Follows P.table st next)
    (hb : encodeSequentialState next = .ok bytes) :
    Ends (calm i dk mk) (StateStore.compareExchange P.table ⟨st, v.version⟩ next) s (.ok (.applied s.nextVersion))
      (s.put (currentKey P.table) bytes) := by
  have hx : calm i dk mk (.compareExchange (currentKey P.table) v.version bytes) s =
      some (.ok (.applied s.nextVersion), s.put (currentKey P.table) bytes) := by
    simp only [calm, choice, perform, hv, Option.map_some, if_true, acquire_of_ne (c := .index) (by rintro ⟨⟩)]
  exact ends_throwIf hn.not_refused (ends_lift hb (ends_ask hx))

variable {entries : List SequentialBatchEntry} {last : U64} {index manifest current : Bytes}

variable (i dk m) in
theorem ends_publishIndex (hkey : mk.take 9 = ascii "manifest/") (hv : s.entries (currentKey P.table) = some v)
    (hid : st.tableId = P.table.tableId) (hle : st.indexedSeq ≤ last)
    (hnew : s.entries (metaKey P.table (dedupKey mk)) = none) (hnew' : s.entries (metaKey P.table mk) = none)
    (hi : encodeSequentialBatchIndex (sortEntries entries) = .ok index)
    (hm : encodeSequentialManifest { m with batchIndexFiles := [dedupKey mk], coveredThroughSeq := last } =
      .ok manifest)
    (hc : encodeSequentialState (indexedState st last mk) = .ok current) :
    Ends (calm i dk mk) (publishIndex P.table ⟨st, v.version⟩ m entries last) s
      (.ok (some (indexResult .indexed (some (indexedState st last mk)))))
      (((s.put (metaKey P.table (dedupKey mk)) index).put (metaKey P.table mk) manifest).put
        (currentKey P.table) current) := by
  have hman : (s.put (metaKey P.table (dedupKey mk)) index).entries (metaKey P.table mk) = none := by
    simp only [World.put, Function.update_of_ne (metaKey_ne_dedupKey hkey), hnew']
  have hv' : ((s.put (metaKey P.table (dedupKey mk)) index).put (metaKey P.table mk) manifest).entries
      (currentKey P.table) = some v := by
    simp only [World.put, Function.update_of_ne current_ne_dedupKey, Function.update_of_ne (current_ne_manifest hkey), hv]
  refine ends_request rfl ?_
  rw [if_neg (fun h => h hkey)]
  refine Ends.bind (ends_lift hi (ends_putIfAbsent hnew)) ?_
  refine Ends.bind (ends_lift hm (ends_putIfAbsent hman)) ?_
  exact (ends_compareExchange hv' (indexed_follows hid hle) hc).bind ends_pure

theorem publishIndex_throws_index (hkey : mk.take 9 = ascii "manifest/") {e : Exn}
    (hi : encodeSequentialBatchIndex (sortEntries entries) = .error e) :
    Ends (calm i dk mk) (publishIndex P.table ⟨st, v.version⟩ m entries last) s (.error e) s := by
  refine ends_request rfl ?_
  rw [if_neg (fun h => h hkey)]
  exact Ends.throw (ends_lift_throw hi)

theorem publishIndex_throws_manifest (hkey : mk.take 9 = ascii "manifest/") {e : Exn}
    (hnew : s.entries (metaKey P.table (dedupKey mk)) = none)
    (hi : encodeSequentialBatchIndex (sortEntries entries) = .ok index)
    (hm : encodeSequentialManifest { m with batchIndexFiles := [dedupKey mk], coveredThroughSeq := last } = .error e) :
    Ends (calm i dk mk) (publishIndex P.table ⟨st, v.version⟩ m entries last) s (.error e)
      (s.put (metaKey P.table (dedupKey mk)) index) := by
  refine ends_request rfl ?_
  rw [if_neg (fun h => h hkey)]
  exact Ends.bind (ends_lift hi (ends_putIfAbsent hnew)) (Ends.throw (ends_lift_throw hm))

end Writes

end DBPlayground.CalmStore
