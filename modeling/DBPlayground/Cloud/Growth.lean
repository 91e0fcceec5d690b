import DBPlayground.Cloud.Invariant

namespace DBPlayground.Invariant

open ByteReader Table Wire Records Keys WalCodec Store StateStore TableWriter WalIndexer CloudSystem Log

variable {ι : Type} {P : Params ι} {s w u : World ι} {i : ι}

theorem getElem?_of_isPrefix {α : Type} {l m : List α} (h : l <+: m) {k : Nat} {a : α} (hk : l[k]? = some a) :
    m[k]? = some a := by
  obtain ⟨t, rfl⟩ := h
  obtain ⟨hlt, _⟩ := List.getElem?_eq_some_iff.mp hk
  rw [List.getElem?_append_left hlt, hk]

theorem getElem?_of_extension {α : Type} {l m : List α} (h : l <+: m) {k : Nat} {a : α}
    (hk : m[k]? = some a) (hlt : k < l.length) : l[k]? = some a := by
  obtain ⟨t, rfl⟩ := h
  rwa [List.getElem?_append_left hlt] at hk

theorem Le.refl (st : SequentialState) : Le st st := ⟨BitVec.le_refl _, BitVec.le_refl _, BitVec.le_refl _⟩

theorem Le.trans {a b c : SequentialState} (h : Le a b) (h' : Le b c) : Le a c :=
  ⟨BitVec.le_trans h.1 h'.1, BitVec.le_trans h.2 h'.2, BitVec.le_trans h.3 h'.3⟩

theorem Later.refl (v : VersionedValue) : Later v v :=
  ⟨Nat.le_refl _, fun _ => rfl, fun st h => ⟨st, h, Le.refl st⟩⟩

theorem Later.trans {a b c : VersionedValue} (h : Later a b) (h' : Later b c) : Later a c := by
  refine ⟨Nat.le_trans h.version h'.version, ?_, ?_⟩
  · intro hv
    have h₁ := h.version
    have h₂ := h'.version
    rw [h'.same (by omega), h.same (by omega)]
  · intro st hst
    obtain ⟨st', hst', hle⟩ := h.state st hst
    obtain ⟨st'', hst'', hle'⟩ := h'.state st' hst'
    exact ⟨st'', hst'', hle.trans hle'⟩

theorem IndexFiles.unique {keys : List Bytes} {es es' : List SequentialBatchEntry} (h : IndexFiles P w keys es)
    (h' : IndexFiles P w keys es') : es = es' := by
  induction h generalizing es' with
  | nil =>
      cases h'
      rfl
  | cons hv hd _ _ ih =>
      cases h' with
      | cons hv' hd' hr' _ =>
          rw [hv] at hv'
          cases hv'
          rw [hd] at hd'
          cases hd'
          rw [ih hr']

namespace Grow

theorem refl (s : World ι) : Grow P s s :=
  ⟨fun _ _ h => h, List.prefix_rfl, List.prefix_rfl, fun _ _ _ h => h, fun v h => ⟨v, h, Later.refl v⟩,
    Nat.le_refl _, fun _ _ h => h⟩

theorem trans (h : Grow P s w) (h' : Grow P w u) : Grow P s u where
  files p b hb := h'.files p b (h.files p b hb)
  created := h.created.trans h'.created
  acquired := h.acquired.trans h'.acquired
  objects key v hk hv := h'.objects key v hk (h.objects key v hk hv)
  current v hv := by
    obtain ⟨v', hv', hl⟩ := h.current v hv
    obtain ⟨v'', hv'', hl'⟩ := h'.current v' hv'
    exact ⟨v'', hv'', hl.trans hl'⟩
  nextVersion := Nat.le_trans h.nextVersion h'.nextVersion
  issued key i hk := h'.issued key i (h.issued key i hk)

theorem slot (h : Grow P s w) {k : Nat} {c : Creation ι} (hk : s.created[k]? = some c) :
    w.created[k]? = some c := getElem?_of_isPrefix h.created hk

theorem length (h : Grow P s w) : s.created.length ≤ w.created.length := h.created.length_le

theorem take (h : Grow P s w) {n : Nat} (hn : n ≤ s.created.length) :
    w.created.take n = s.created.take n := by
  obtain ⟨t, ht⟩ := h.created
  rw [← ht, List.take_append_of_le_length hn]

theorem mem_acquired (h : Grow P s w) {a : Author ι × U64} (ha : a ∈ s.acquired) : a ∈ w.acquired :=
  h.acquired.subset ha

theorem indexFiles (h : Grow P s w) {keys : List Bytes} {es : List SequentialBatchEntry}
    (hf : IndexFiles P s keys es) : IndexFiles P w keys es := by
  induction hf with
  | nil => exact .nil
  | cons hv hd _ hk ih =>
      have hne := metaKey_ne_current (t := P.table) (ne_current_of_take hk (by decide))
      exact .cons (h.objects _ _ hne hv) hd ih hk

theorem indexOk (h : Grow P s w) {n : Nat} {es : List SequentialBatchEntry} (hn : n ≤ s.created.length)
    (ho : IndexOk P s n es) : IndexOk P w n es where
  complete k c hk hkn := ho.complete k c (getElem?_of_extension h.created hk (by omega)) hkn
  sound e he := by
    obtain ⟨k, c, hk, hrest⟩ := ho.sound e he
    exact ⟨k, c, h.slot hk, hrest⟩

theorem dataRows (h : Grow P s w) {paths : List Bytes} {rows : List (List (Option Value))}
    (hr : dataRows P s paths = some rows) : Invariant.dataRows P w paths = some rows := by
  induction paths generalizing rows with
  | nil => exact hr
  | cons p ps ih =>
      simp only [Invariant.dataRows, bind, Option.bind_eq_some_iff] at hr ⊢
      obtain ⟨b, hb, r, hread, rest, hrest, hrows⟩ := hr
      exact ⟨b, h.files p b hb, r, hread, rest, ih hrest, hrows⟩

theorem filesOk (h : Grow P s w) {n : Nat} {files : List DataFile} (hn : n ≤ s.created.length)
    (ho : FilesOk P s n files) : FilesOk P w n files where
  ascending := ho.ascending
  range := ho.range
  rows f hf := by
    have hle := (ho.range f hf).2.2
    rw [h.take (Nat.le_trans hle hn)]
    exact ho.rows f hf
  covers k c hk hkn := ho.covers k c (getElem?_of_extension h.created hk (by omega)) hkn

theorem manifestOk (h : Grow P s w) {m : SequentialManifest} {seq : U64} (hn : seq.toNat ≤ s.created.length)
    (ho : ManifestOk P s m seq) : ManifestOk P w m seq where
  tableId := ho.tableId
  covered := ho.covered
  version := ho.version
  schema := ho.schema
  index := by
    obtain ⟨es, hf, he⟩ := ho.index
    exact ⟨es, h.indexFiles hf, h.indexOk hn he⟩
  data hr := by
    rw [h.take hn]
    exact h.dataRows (ho.data hr)
  distinct es' hf' := by
    obtain ⟨es, hf, _⟩ := ho.index
    rw [hf'.unique (h.indexFiles hf)]
    exact ho.distinct es hf
  files := h.filesOk hn ho.files

theorem stateOk (h : Grow P s w) {st : SequentialState} (ho : StateOk P s st) : StateOk P w st where
  tableId := ho.tableId
  version := ho.version
  indexed := ho.indexed
  published := Nat.le_trans ho.published h.length
  key := ho.key
  manifest := by
    obtain ⟨v, m, hv, hm, hok⟩ := ho.manifest
    have hne := metaKey_ne_current (t := P.table) (ne_current_of_take ho.key (by decide))
    have hle : st.indexedSeq.toNat ≤ st.publishedSeq.toNat := ho.indexed
    exact ⟨v, m, h.objects _ _ hne hv, hm, h.manifestOk (Nat.le_trans hle ho.published) hok⟩

end Grow

namespace Quiet

theorem refl (i : ι) (s : World ι) : Quiet P i s s := by
  refine ⟨Grow.refl s, rfl, rfl, ?_, fun a ha _ => ha⟩
  intro k c hk hlen
  obtain ⟨hlt, _⟩ := List.getElem?_eq_some_iff.mp hk
  omega

theorem trans (h : Quiet P i s w) (h' : Quiet P i w u) : Quiet P i s u where
  grow := h.grow.trans h'.grow
  writer := h'.writer.trans h.writer
  life := h'.life.trans h.life
  created k c hk hlen := by
    by_cases hw : w.created.length ≤ k
    · exact h'.created k c hk hw
    · exact h.created k c (getElem?_of_extension h'.grow.created hk (by omega)) hlen
  acquired a ha hi := h.acquired a (h'.acquired a ha hi) hi

end Quiet

namespace Rely

theorem refl (i : ι) (s : World ι) : Rely P i s s := ⟨Quiet.refl i s, fun _ _ _ => rfl⟩

theorem trans (h : Rely P i s w) (h' : Rely P i w u) : Rely P i s u :=
  ⟨h.quiet.trans h'.quiet, fun key hd hk =>
    (h'.files key hd (h.quiet.grow.issued key i hk)).trans (h.files key hd hk)⟩

end Rely

theorem Rely.of_grow (hg : Grow P s w) (hw : w.writers i = s.writers i) (hl : w.incarnation i = s.incarnation i)
    (hc : w.created = s.created) (ha : w.acquired = s.acquired) (hf : w.files = s.files) : Rely P i s w := by
  refine ⟨⟨hg, hw, hl, ?_, ?_⟩, ?_⟩
  · intro k c hk hlen
    rw [hc] at hk
    exact (Quiet.refl (P := P) i s).created k c hk hlen
  · intro a hm _
    rwa [ha] at hm
  · intro key _ _
    rw [hf]

theorem Held.quiet {x : Writer} (h : Held P s i x) (hq : Quiet P i s w) : Held P w i x := by
  intro hO cs hcs
  rw [hq.life]
  exact hq.grow.mem_acquired (h hO cs hcs)

theorem Held.of_none {x : Writer} (h : x.currentState = none) : Held P s i x := by
  intro _ cs hcs
  rw [h] at hcs
  cases hcs

theorem Advance.of_eq (h : w.entries (currentKey P.table) = s.entries (currentKey P.table)) : Advance P s w :=
  fun v hv => ⟨v, h.trans hv, .inl rfl⟩

theorem Advance.refl (s : World ι) : Advance P s s := .of_eq rfl

theorem Advance.trans (h : Advance P s w) (h' : Advance P w u) : Advance P s u := by
  intro v hv
  obtain ⟨v', hv', hl⟩ := h v hv
  obtain ⟨v'', hv'', hl'⟩ := h' v' hv'
  refine ⟨v'', hv'', ?_⟩
  rcases hl with rfl | ⟨st, st', hd, hd', hlt⟩
  · exact hl'
  · rcases hl' with rfl | ⟨st₁, st₂, hd₁, hd₂, hlt'⟩
    · exact .inr ⟨st, st', hd, hd', hlt⟩
    · rw [hd'] at hd₁
      cases hd₁
      exact .inr ⟨st, st₂, hd, hd₂, Nat.lt_trans hlt hlt'⟩

structure Seen (P : Params ι) (w : World ι) (vs : VersionedSequentialState) : Prop where
  state : StateOk P w vs.state
  later : ∃ v st, w.entries (currentKey P.table) = some v ∧ decodeSequentialState v.value = .ok st ∧
    Le vs.state st ∧ vs.version ≤ v.version ∧ (v.version = vs.version → st = vs.state)

theorem Seen.grow {vs : VersionedSequentialState} (h : Seen P s vs) (hg : Grow P s w) : Seen P w vs := by
  refine ⟨hg.stateOk h.state, ?_⟩
  obtain ⟨v, st, hv, hd, hle, hver, hsame⟩ := h.later
  obtain ⟨v', hv', hl⟩ := hg.current v hv
  obtain ⟨st', hd', hle'⟩ := hl.state st hd
  refine ⟨v', st', hv', hd', hle.trans hle', Nat.le_trans hver hl.version, ?_⟩
  intro he
  have h₁ := hl.version
  have hvv := hl.same (by omega)
  rw [hvv, hd] at hd'
  cases hd'
  exact hsame (by omega)

theorem Seen.epoch_le {vs : VersionedSequentialState} (h : Seen P w vs) {v : VersionedValue}
    {st : SequentialState} (hc : CurrentOk P w v st) (hv : w.entries (currentKey P.table) = some v) :
    vs.state.writerEpoch ≤ st.writerEpoch := by
  obtain ⟨v', st', hv', hd, hle, _⟩ := h.later
  rw [hv] at hv'
  cases hv'
  rw [hc.decoded] at hd
  cases hd
  exact hle.writerEpoch

theorem Seen.unchanged {vs : VersionedSequentialState} (h : Seen P s vs)
    (hv : (s.entries (currentKey P.table)).map (·.version) = some vs.version) :
    ∃ v, s.entries (currentKey P.table) = some v ∧ decodeSequentialState v.value = .ok vs.state := by
  obtain ⟨v, st, he, hd, _, _, hsame⟩ := h.later
  rw [he, Option.map_some, Option.some.injEq] at hv
  rw [hsame hv] at hd
  exact ⟨v, he, hd⟩

end DBPlayground.Invariant
