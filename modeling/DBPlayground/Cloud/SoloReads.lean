import DBPlayground.Cloud.LogReads
import DBPlayground.Lib.Solo

namespace DBPlayground.SoloReads

open ByteReader Table Wire Records Keys WalCodec Program Session Solo Store StateStore TableWriter WalIndexer
  CloudSystem SnapshotLoader Log Invariant ReadSpecs LogReads

variable {ι : Type}

/-- An answer of stores at their best: no request fails, no WAL is above the
size that readers accept, the sequence numbers do not run out, and `Publish`
finds its slot published under its own epoch if at all. -/
def benign (t : TableDescriptor) (c : Call) : (o : Op) → Ans o → Bool
  | .metaGet key, .ok v => match c with
    | .publish _ seq epoch => key != currentKey t || match v.map fun v => decodeSequentialState v.value with
      | some (.ok st) => decide (st.publishedSeq < seq) || st.writerEpoch == epoch
      | _ => true
    | _ => true
  | .openInput _, .ok b => b.all fun b => decide (b.length ≤ maxWalBytes)
  | .createIfAbsent path _, .ok _ => path != walPath t uint64Max
  | _, .ok _ => true
  | _, .error _ => false

def Serves (P : Params ι) : Prop := ∀ i c o w r, benign P.table c o r = true → P.allow i c o w r = true

variable [DecidableEq ι] {P : Params ι} {i : ι} {c : Call} {α : Type} {r : Except Exn α} {s t : World ι}

abbrev SoloRun (P : Params ι) (i : ι) (c : Call) (m : StoreMethod α) (s : World ι) (r : Except Exn α)
    (t : World ι) : Prop :=
  RunsM (service P) i c m s r t

theorem runs_throwIf {bad : Prop} [Decidable bad] {e : Exn} {f : Unit → StoreMethod α} (hbad : ¬ bad)
    (h : SoloRun P i c (f ()) s r t) : SoloRun P i c (throwIf bad e >>= f) s r t := by
  rw [throwIf, if_neg hbad]
  exact h

theorem runs_ask {o : Op} {a : Res o} {s' : World ι} (e : Env) (hP : Serves P)
    (hx : perform i c e o s = some (.ok a, s')) (hb : benign P.table c o (.ok a) = true) :
    SoloRun P i c (request o) s (.ok a) s' :=
  .call ⟨e, hx, hP _ _ _ _ _ hb⟩ (.ret _ _)

theorem runs_request {o : Op} {a : Res o} {f : Res o → StoreMethod α} {s' : World ι} (e : Env) (hP : Serves P)
    (hx : perform i c e o s = some (.ok a, s')) (hb : benign P.table c o (.ok a) = true)
    (h : SoloRun P i c (f a) s' r t) : SoloRun P i c (request o >>= f) s r t :=
  runsM_bind (runs_ask e hP hx hb) h

theorem runs_self {f : Writer → StoreMethod α} (hP : Serves P) (h : SoloRun P i c (f (s.writers i)) s r t) :
    SoloRun P i c (self >>= f) s r t :=
  runs_request .answer hP rfl rfl h

theorem runs_setSelf {x : Writer} {f : Unit → StoreMethod α} (hP : Serves P)
    (h : SoloRun P i c (f ()) (s.setWriter i x) r t) : SoloRun P i c (setSelf x >>= f) s r t :=
  runs_request .answer hP rfl rfl h

theorem runs_metaGet {key : Bytes} {f : Option VersionedValue → StoreMethod α} (hP : Serves P)
    (hb : benign P.table c (.metaGet key) (.ok (s.entries key)) = true)
    (h : SoloRun P i c (f (s.entries key)) s r t) : SoloRun P i c (metaGet key >>= f) s r t :=
  runs_request .answer hP rfl hb h

theorem runs_openInput {path : Bytes} {f : Option Bytes → StoreMethod α} (hP : Serves P)
    (hb : benign P.table c (.openInput path) (.ok (s.files path)) = true)
    (h : SoloRun P i c (f (s.files path)) s r t) : SoloRun P i c (openInput path >>= f) s r t :=
  runs_request .answer hP rfl hb h

theorem load_runs {v : VersionedValue} {st : SequentialState} (hP : Serves P)
    (hv : s.entries (currentKey P.table) = some v) (hd : decodeSequentialState v.value = .ok st)
    (ht : st.tableId = P.table.tableId)
    (hb : benign P.table c (.metaGet (currentKey P.table)) (.ok (some v)) = true) :
    SoloRun P i c (load P.table) s (.ok (some ⟨st, v.version⟩)) s := by
  refine runs_metaGet hP (by rw [hv]; exact hb) ?_
  rw [hv]
  exact runsM_lift hd (runs_throwIf (fun hne => hne ht) (runsM_pure _))

theorem runs_load {v : VersionedValue} {st : SequentialState} {f : Option VersionedSequentialState → StoreMethod α}
    (hP : Serves P) (hv : s.entries (currentKey P.table) = some v) (hd : decodeSequentialState v.value = .ok st)
    (ht : st.tableId = P.table.tableId) (hb : benign P.table c (.metaGet (currentKey P.table)) (.ok (some v)) = true)
    (h : SoloRun P i c (f (some ⟨st, v.version⟩)) s r t) : SoloRun P i c (load P.table >>= f) s r t :=
  runsM_bind (load_runs hP hv hd ht hb) h

theorem runs_load_none {f : Option VersionedSequentialState → StoreMethod α} (hP : Serves P)
    (hv : s.entries (currentKey P.table) = none)
    (hb : benign P.table c (.metaGet (currentKey P.table)) (.ok none) = true)
    (h : SoloRun P i c (f none) s r t) : SoloRun P i c (load P.table >>= f) s r t := by
  refine runsM_bind (runs_metaGet hP (by rw [hv]; exact hb) ?_) h
  rw [hv]
  exact runsM_pure _

theorem runs_loadManifest {st : SequentialState} {v : VersionedValue} {m : SequentialManifest}
    {f : SequentialManifest → StoreMethod α} (hP : Serves P) (hcols : P.table.schema.length ≤ 1024)
    (hv : s.entries (metaKey P.table st.manifestKey) = some v) (hm : encodeSequentialManifest m = .ok v.value)
    (hok : ManifestOk P s m st.indexedSeq) (hver : st.schemaVersion = 1)
    (hb : benign P.table c (.metaGet (metaKey P.table st.manifestKey)) (.ok (some v)) = true)
    (h : SoloRun P i c (f m) s r t) : SoloRun P i c (loadManifest P.table st >>= f) s r t := by
  refine runsM_bind (runs_metaGet hP (by rw [hv]; exact hb) ?_) h
  rw [hv]
  refine runsM_lift (decode_encode_manifest hm (by rw [hok.schema]; exact hcols)) (runs_throwIf ?_ (runsM_pure _))
  rw [hok.tableId, hok.covered, hok.version, hver, hok.schema, schemasEqual_iff.mpr rfl]
  simp

theorem runs_loadBatchIndex {keys : List Bytes} {es : List SequentialBatchEntry}
    {f : List SequentialBatchEntry → StoreMethod α} (hP : Serves P) (hx : IndexFiles P s keys es)
    (hb : ∀ key v, benign P.table c (.metaGet key) (.ok v) = true)
    (h : SoloRun P i c (f es) s r t) : SoloRun P i c (loadBatchIndex P.table keys >>= f) s r t := by
  induction hx generalizing α t with
  | nil => exact h
  | cons hv hd _ _ ih =>
      refine runsM_bind (runs_metaGet hP (hb _ _) ?_) h
      rw [hv]
      exact runsM_lift hd (ih (runsM_pure _))

section Wals

variable (hP : Serves P) (hs : Inv P s)

include hP hs

theorem runs_loadWal {n : Nat} {d : Creation ι} {seq : U64} {f : Option SequentialWal → StoreMethod α}
    (hd : s.created[n]? = some d) (hseq : seq = BitVec.ofNat 64 (n + 1)) (hsize : d.bytes.length ≤ maxWalBytes)
    (h : SoloRun P i c (f (some (walOf P d))) s r t) :
    SoloRun P i c (loadSequentialWal P.table P.hashes seq >>= f) s r t := by
  have hslot := hs.slots n d hd
  have hfile := hs.files d (List.mem_of_getElem? hd)
  rw [hseq]
  refine runsM_bind (runsM_lift hslot.key ?_) h
  refine runs_openInput hP (by rw [hfile]; simpa [benign] using hsize) ?_
  rw [hfile]
  refine runs_throwIf (Nat.not_lt.mpr hsize) (runsM_lift hslot.decoded (runs_throwIf ?_ (runsM_pure _)))
  rw [hslot.seq, hslot.tableId, hslot.schemaVersion]
  simp

theorem runs_loadWal_none {seq : U64} {f : Option SequentialWal → StoreMethod α}
    (hlen : s.created.length < seq.toNat) (hloc : trimSlashes P.table.filePrefix ≠ [])
    (h : SoloRun P i c (f none) s r t) :
    SoloRun P i c (loadSequentialWal P.table P.hashes seq >>= f) s r t := by
  have hz : seq ≠ 0 := by
    rintro rfl
    exact absurd hlen (Nat.not_lt_zero _)
  have hkey : sequentialWalKey P.table seq = .ok (walPath P.table seq) := by
    rw [sequentialWalKey, throwIf, if_neg hz, throwIf, if_neg hloc]
    rfl
  have hfile : s.files (walPath P.table seq) = none := by
    by_contra hne
    obtain ⟨b, hb⟩ := Option.ne_none_iff_exists'.mp hne
    have hle := (hs.onlySlots seq b hb).2
    omega
  refine runsM_bind (runsM_lift hkey ?_) h
  refine runs_openInput hP (by rw [hfile]; rfl) ?_
  rw [hfile]
  exact runsM_pure _

theorem runs_scanWals {n m : Nat} {seq : U64} {f : Option (List SequentialBatchEntry) → StoreMethod α}
    (hseq : seq = BitVec.ofNat 64 (n + 1)) (hlen : n + m ≤ s.created.length)
    (hsize : ∀ d ∈ s.created, d.bytes.length ≤ maxWalBytes)
    (h : SoloRun P i c (f (some (entriesIn (slice P s n m)))) s r t) :
    SoloRun P i c (scanWals P.table P.hashes seq m >>= f) s r t := by
  induction m generalizing n seq f with
  | zero => exact h
  | succ m ih =>
      obtain ⟨d, hd⟩ : ∃ d, s.created[n]? = some d := ⟨_, List.getElem?_eq_getElem (by omega)⟩
      rw [scanWals, bind_assoc]
      refine runs_loadWal hP hs hd hseq (hsize d (List.mem_of_getElem? hd)) ?_
      dsimp only
      rw [bind_assoc]
      refine ih (by rw [hseq, ofNat_succ]) (by omega) ?_
      rw [slice_succ hd, entriesIn, List.flatMap_cons, (hs.slots n d hd).seq, ← hseq] at h
      exact h

theorem runs_collectWals {n len m : Nat} {seq : U64} {f : List SequentialWal → StoreMethod α}
    (hseq : seq = BitVec.ofNat 64 n) (hlen : n + len = s.created.length) (hm : len < m)
    (hroom : s.created.length + 1 < 2 ^ 64) (hloc : trimSlashes P.table.filePrefix ≠ [])
    (hsize : ∀ d ∈ s.created, d.bytes.length ≤ maxWalBytes)
    (h : SoloRun P i c (f (slice P s n len)) s r t) :
    SoloRun P i c (collectWals P.table P.hashes seq m >>= f) s r t := by
  induction len generalizing n m seq f with
  | zero =>
      obtain ⟨m, rfl⟩ := Nat.exists_eq_add_one_of_ne_zero (Nat.ne_of_gt hm)
      rw [collectWals, bind_assoc]
      refine runs_loadWal_none hP hs ?_ hloc h
      rw [hseq, ofNat_succ, BitVec.toNat_ofNat]
      omega
  | succ len ih =>
      obtain ⟨m, rfl⟩ := Nat.exists_eq_add_one_of_ne_zero (Nat.ne_of_gt (Nat.zero_lt_of_lt hm))
      obtain ⟨d, hd⟩ : ∃ d, s.created[n]? = some d := ⟨_, List.getElem?_eq_getElem (by omega)⟩
      rw [collectWals, bind_assoc]
      refine runs_loadWal hP hs hd (by rw [hseq, ofNat_succ]) (hsize d (List.mem_of_getElem? hd)) ?_
      dsimp only
      rw [bind_assoc]
      refine ih (by rw [hseq, ofNat_succ]) (by omega) (by omega) ?_
      rw [slice_succ hd] at h
      exact h

theorem runs_requiredWals {n m : Nat} {seq : U64} {f : Option (List SequentialWal) → StoreMethod α}
    (hseq : seq = BitVec.ofNat 64 n) (hlen : n + m ≤ s.created.length)
    (hsize : ∀ d ∈ s.created, d.bytes.length ≤ maxWalBytes)
    (h : SoloRun P i c (f (some (slice P s n m))) s r t) :
    SoloRun P i c (requiredWals P.table P.hashes seq m >>= f) s r t := by
  induction m generalizing n seq f with
  | zero => exact h
  | succ m ih =>
      obtain ⟨d, hd⟩ : ∃ d, s.created[n]? = some d := ⟨_, List.getElem?_eq_getElem (by omega)⟩
      rw [requiredWals, bind_assoc]
      refine runs_loadWal hP hs hd (by rw [hseq, ofNat_succ]) (hsize d (List.mem_of_getElem? hd)) ?_
      dsimp only
      rw [bind_assoc]
      refine ih (by rw [hseq, ofNat_succ]) (by omega) ?_
      rw [slice_succ hd] at h
      exact h

end Wals

end DBPlayground.SoloReads
