import DBPlayground.Cloud.Growth

namespace DBPlayground.Invariant

open ByteReader Table Wire Records Keys WalCodec Store StateStore TableWriter WalIndexer CloudSystem Log

variable {ι : Type} {P : Params ι} {s w : World ι} {i : ι}

section Log

variable {seq : U64} {bytes : Bytes}

theorem Inv.file_some (h : Inv P w) {k : Nat} (hk : k < w.created.length) :
    ∃ c, w.created[k]? = some c ∧ w.files (walPath P.table (BitVec.ofNat 64 (k + 1))) = some c.bytes := by
  have hget : w.created[k]? = some w.created[k] := List.getElem?_eq_getElem hk
  refine ⟨_, hget, ?_⟩
  rw [← (h.slots k _ hget).path]
  exact h.files _ (List.getElem_mem hk)

theorem Inv.length_lt_of_none (h : Inv P w) (hz : seq ≠ 0) (hnone : w.files (walPath P.table seq) = none) :
    w.created.length < seq.toNat := by
  by_contra hle
  have hpos : seq.toNat ≠ 0 := fun hn => hz (BitVec.eq_of_toNat_eq hn)
  obtain ⟨c, _, hf⟩ := h.file_some (k := seq.toNat - 1) (by omega)
  rw [Nat.sub_add_cancel (by omega), BitVec.ofNat_toNat, BitVec.setWidth_eq, hnone] at hf
  cases hf

theorem Inv.slot_of_file (h : Inv P w) (hz : seq ≠ 0) (hf : w.files (walPath P.table seq) = some bytes) :
    ∃ k c, w.created[k]? = some c ∧ seq = BitVec.ofNat 64 (k + 1) ∧ seq.toNat = k + 1 ∧ c.bytes = bytes := by
  have hle := (h.onlySlots seq bytes hf).2
  have hpos : seq.toNat ≠ 0 := fun hn => hz (BitVec.eq_of_toNat_eq hn)
  obtain ⟨c, hc, hb⟩ := h.file_some (k := seq.toNat - 1) (by omega)
  rw [Nat.sub_add_cancel (by omega), BitVec.ofNat_toNat, BitVec.setWidth_eq, hf] at hb
  refine ⟨seq.toNat - 1, c, hc, ?_, by omega, (Option.some.inj hb).symm⟩
  rw [Nat.sub_add_cancel (by omega), BitVec.ofNat_toNat, BitVec.setWidth_eq]

variable {path : Bytes}

theorem grow_create (hnone : s.files path = none) : Grow P s (s.create i path bytes) where
  files p b hb := by
    have hp : p ≠ path := by
      rintro rfl
      rw [hnone] at hb
      cases hb
    simpa only [World.create, Function.update_of_ne hp] using hb
  created := List.prefix_append _ _
  acquired := List.prefix_rfl
  objects _ _ _ h := h
  current v hv := ⟨v, hv, Later.refl v⟩
  nextVersion := Nat.le_refl _
  issued _ _ h := h

theorem guar_create (hnone : s.files (walPath P.table seq) = none) :
    Guar P i s (s.create i (walPath P.table seq) bytes) := by
  refine ⟨grow_create hnone, ?_, .same rfl, .of_eq rfl⟩
  intro j hj
  refine ⟨⟨grow_create hnone, rfl, rfl, ?_, fun a ha _ => ha⟩, ?_⟩
  · intro k c hk hlen
    simp only [World.create, List.getElem?_append_right hlen, List.getElem?_singleton] at hk
    split at hk
    · cases hk
      exact Ne.symm hj
    · cases hk
  · intro key hd _
    simp only [World.create, Function.update_of_ne (dataPath_ne_walPath hd)]

/-- What a new WAL has to bring for the log to stay in order. -/
structure NextSlot (P : Params ι) (s : World ι) (c : Creation ι) : Prop where
  slot : Slot P c s.created.length
  disjoint : ∀ d ∈ s.created, ∀ id ∈ (walOf P c).batchIds, id ∉ (walOf P d).batchIds
  sorted : ∀ d ∈ s.created, (walOf P d).writerEpoch ≤ (walOf P c).writerEpoch
  block : (walOf P c).kind = .append → ∃ d, s.created.getLast? = some d ∧ d.author = c.author
  fence : (walOf P c).kind = .fence → (c.author, (walOf P c).writerEpoch) ∈ s.acquired
  stamp : Owned P → (c.author, (walOf P c).writerEpoch) ∈ s.acquired
  current : ∃ v st, s.entries (currentKey P.table) = some v ∧ decodeSequentialState v.value = .ok st ∧
    (walOf P c).writerEpoch ≤ st.writerEpoch

theorem getElem?_create {c d : Creation ι} {k : Nat} (h : (s.created ++ [c])[k]? = some d) :
    s.created[k]? = some d ∨ (k = s.created.length ∧ d = c) := by
  by_cases hk : k < s.created.length
  · rw [List.getElem?_append_left hk] at h
    exact .inl h
  · rw [List.getElem?_append_right (by omega), List.getElem?_singleton] at h
    split at h
    · cases h
      exact .inr ⟨by omega, rfl⟩
    · cases h

theorem mem_of_getElem? {c : Creation ι} {k : Nat} (h : s.created[k]? = some c) : c ∈ s.created :=
  List.mem_of_getElem? h

theorem Inv.create (h : Inv P s) (hnone : s.files path = none)
    (hc : NextSlot P s ⟨path, bytes, (i, s.incarnation i)⟩) : Inv P (s.create i path bytes) := by
  have hg : Grow P s (s.create i path bytes) := grow_create hnone
  have hpath : path = walPath P.table (BitVec.ofNat 64 (s.created.length + 1)) := hc.slot.path
  have hroom : s.created.length + 1 < 2 ^ 64 := by
    have hz := hc.slot.seq_ne_zero
    have hlt := h.room
    by_contra hge
    have : s.created.length + 1 = 2 ^ 64 := by omega
    rw [this] at hz
    exact hz (by decide)
  refine ⟨?_, ?_, ?_, ?_, ?_, ?_, ?_, ?_, ?_, ?_, h.authors, h.epochs, h.held, h.lives, h.versions, ?_, ?_⟩
  · intro k d hk
    rcases getElem?_create hk with hk | ⟨rfl, rfl⟩
    · exact h.slots k d hk
    · exact hc.slot
  · intro d hd
    rcases List.mem_append.mp hd with hd | hd
    · exact hg.files _ _ (h.files d hd)
    · rw [List.mem_singleton] at hd
      subst hd
      simp only [World.create, Function.update_self]
  · intro seq b hb
    simp only [World.create, List.length_append, List.length_singleton]
    by_cases hs : walPath P.table seq = path
    · rw [hpath, walPath_inj] at hs
      rw [hs, BitVec.toNat_ofNat]
      omega
    · simp only [World.create, Function.update_of_ne hs] at hb
      obtain ⟨hpos, hle⟩ := h.onlySlots seq b hb
      exact ⟨hpos, Nat.le_succ_of_le hle⟩
  · simpa only [World.create, List.length_append, List.length_singleton] using hroom
  · intro key b hb hd
    have hne : dataPath P.table key ≠ path := by
      rw [hpath]
      exact dataPath_ne_walPath hd
    simp only [World.create, Function.update_of_ne hne] at hb
    exact h.onlyIssued key b hb hd
  · intro k l d e hk hl id hid hid'
    rcases getElem?_create hk with hk | ⟨rfl, rfl⟩ <;> rcases getElem?_create hl with hl | ⟨rfl, rfl⟩
    · exact h.disjoint k l d e hk hl id hid hid'
    · exact absurd hid (hc.disjoint d (mem_of_getElem? hk) id hid')
    · exact absurd hid' (hc.disjoint e (mem_of_getElem? hl) id hid)
    · rfl
  · intro k l d e hkl hk hl
    rcases getElem?_create hk with hk | ⟨rfl, rfl⟩ <;> rcases getElem?_create hl with hl | ⟨rfl, rfl⟩
    · exact h.sorted k l d e hkl hk hl
    · exact hc.sorted d (mem_of_getElem? hk)
    · obtain ⟨hlt, _⟩ := List.getElem?_eq_some_iff.mp hl
      omega
    · exact BitVec.le_refl _
  · intro l d hl hk
    rcases getElem?_create hl with hl | ⟨rfl, rfl⟩
    · obtain ⟨k, e, rfl, he, ha⟩ := h.blocks l d hl hk
      exact ⟨k, e, rfl, hg.slot he, ha⟩
    · obtain ⟨e, he, ha⟩ := hc.block hk
      rw [List.getLast?_eq_getElem?] at he
      obtain ⟨hlt, _⟩ := List.getElem?_eq_some_iff.mp he
      exact ⟨s.created.length - 1, e, by omega, hg.slot he, ha⟩
  · intro d hd hk
    rcases List.mem_append.mp hd with hd | hd
    · exact h.fences d hd hk
    · rw [List.mem_singleton] at hd
      subst hd
      exact hc.fence hk
  · intro ho d hd
    rcases List.mem_append.mp hd with hd | hd
    · exact h.stamps ho d hd
    · rw [List.mem_singleton] at hd
      subst hd
      exact hc.stamp ho
  · intro hn
    obtain ⟨v, st, hv, _⟩ := hc.current
    rw [show s.entries (currentKey P.table) = none from hn] at hv
    cases hv
  · intro v hv
    obtain ⟨st, hst⟩ := h.current v hv
    obtain ⟨v', st', hv', hd', hle⟩ := hc.current
    rw [show s.entries (currentKey P.table) = some v from hv] at hv'
    cases hv'
    rw [hst.decoded] at hd'
    cases hd'
    refine ⟨st, hst.decoded, hg.stateOk hst.state, ?_, hst.acquired⟩
    intro d hd
    rcases List.mem_append.mp hd with hd | hd
    · exact hst.slots d hd
    · rw [List.mem_singleton] at hd
      subst hd
      exact hle

end Log

section Files

variable {key bytes : Bytes}

theorem grow_write {path : Bytes} (hnone : s.files path = none) : Grow P s (s.write path bytes) where
  files p b hb := by
    have hp : p ≠ path := by
      rintro rfl
      rw [hnone] at hb
      cases hb
    simpa only [World.write, Function.update_of_ne hp] using hb
  created := List.prefix_rfl
  acquired := List.prefix_rfl
  objects _ _ _ h := h
  current v hv := ⟨v, hv, Later.refl v⟩
  nextVersion := Nat.le_refl _
  issued _ _ h := h

theorem quiet_write {path : Bytes} (hnone : s.files path = none) : Quiet P i s (s.write path bytes) :=
  ⟨grow_write hnone, rfl, rfl, (Quiet.refl (P := P) i s).created, fun _ ha _ => ha⟩

theorem Inv.write (h : Inv P s) (hd : key.take 5 = ascii "data/") (hk : s.issued key = some i)
    (hnone : s.files (dataPath P.table key) = none) : Inv P (s.write (dataPath P.table key) bytes) := by
  have hg : Grow P s (s.write (dataPath P.table key) bytes) := grow_write hnone
  refine { h with files := ?_, onlySlots := ?_, onlyIssued := ?_, current := ?_ }
  · exact fun c hc => hg.files _ _ (h.files c hc)
  · intro seq b hb
    simp only [World.write, Function.update_of_ne (Ne.symm (dataPath_ne_walPath hd))] at hb
    exact h.onlySlots seq b hb
  · intro key' b hb hd'
    by_cases hkey : key' = key
    · subst hkey
      rw [show (s.write _ bytes).issued key' = s.issued key' from rfl, hk]
      exact Option.some_ne_none i
    · simp only [World.write, Function.update_of_ne (fun he => hkey (dataPath_inj.mp he))] at hb
      exact h.onlyIssued key' b hb hd'
  · intro v hv
    obtain ⟨st, hc⟩ := h.current v hv
    exact ⟨st, hc.decoded, hg.stateOk hc.state, hc.slots, hc.acquired⟩

theorem guar_write (hk : s.issued key = some i) (hnone : s.files (dataPath P.table key) = none) :
    Guar P i s (s.write (dataPath P.table key) bytes) := by
  refine ⟨grow_write hnone, ?_, .same rfl, .of_eq rfl⟩
  intro j hj
  refine ⟨quiet_write hnone, ?_⟩
  intro key' _ hk'
  have hne : key' ≠ key := by
    rintro rfl
    rw [hk] at hk'
    exact hj (Option.some.inj hk').symm
  simp only [World.write, Function.update_of_ne (fun he => hne (dataPath_inj.mp he))]

theorem grow_issue (hnone : s.issued key = none) : Grow P s (s.issue i key) where
  files _ _ h := h
  created := List.prefix_rfl
  acquired := List.prefix_rfl
  objects _ _ _ h := h
  current v hv := ⟨v, hv, Later.refl v⟩
  nextVersion := Nat.le_refl _
  issued k j hj := by
    have hk : k ≠ key := by
      rintro rfl
      rw [hnone] at hj
      cases hj
    simpa only [World.issue, Function.update_of_ne hk] using hj

theorem quiet_issue (hnone : s.issued key = none) : Quiet P i s (s.issue i key) :=
  ⟨grow_issue hnone, rfl, rfl, (Quiet.refl (P := P) i s).created, fun _ ha _ => ha⟩

theorem guar_issue (hnone : s.issued key = none) : Guar P i s (s.issue i key) :=
  ⟨grow_issue hnone, fun _ _ => Rely.of_grow (grow_issue hnone) rfl rfl rfl rfl rfl, .same rfl, .of_eq rfl⟩

theorem Inv.issue (h : Inv P s) (hnone : s.issued key = none) : Inv P (s.issue i key) := by
  refine { h with onlyIssued := ?_, current := ?_ }
  · intro k b hb hd
    by_cases hk : k = key
    · subst hk
      simp [World.issue]
    · simpa only [World.issue, Function.update_of_ne hk] using h.onlyIssued k b hb hd
  · intro v hv
    obtain ⟨st, hc⟩ := h.current v hv
    exact ⟨st, hc.decoded, (grow_issue hnone).stateOk hc.state, hc.slots, hc.acquired⟩

end Files

section Objects

variable [DecidableEq ι] {x : Writer}

theorem grow_setWriter : Grow P s (s.setWriter i x) :=
  ⟨fun _ _ h => h, List.prefix_rfl, List.prefix_rfl, fun _ _ _ h => h, fun v h => ⟨v, h, Later.refl v⟩,
    Nat.le_refl _, fun _ _ h => h⟩

theorem guar_setWriter : Guar P i s (s.setWriter i x) := by
  refine ⟨grow_setWriter, ?_, .same rfl, .of_eq rfl⟩
  intro j hj
  exact Rely.of_grow grow_setWriter (by simp only [World.setWriter, Function.update_of_ne hj]) rfl rfl rfl rfl

theorem Inv.setWriter (h : Inv P s) (hx : Held P s i x) : Inv P (s.setWriter i x) := by
  refine { h with held := ?_, current := ?_ }
  · intro j
    by_cases hj : j = i
    · subst hj
      rw [World.setWriter_writers]
      exact hx
    · rw [show (s.setWriter i x).writers j = s.writers j from Function.update_of_ne hj _ _]
      exact h.held j
  · intro v hv
    obtain ⟨st, hc⟩ := h.current v hv
    exact ⟨st, hc.decoded, grow_setWriter.stateOk hc.state, hc.slots, hc.acquired⟩

theorem grow_enter {c : Call} : Grow P s (s.enter i c) := by
  unfold World.enter
  split
  · exact ⟨fun _ _ h => h, List.prefix_rfl, List.prefix_rfl, fun _ _ _ h => h,
      fun v h => ⟨v, h, Later.refl v⟩, Nat.le_refl _, fun _ _ h => h⟩
  · exact Grow.refl s

theorem guar_enter {c : Call} : Guar P i s (s.enter i c) := by
  have hsame : (s.enter i c).entries (currentKey P.table) = s.entries (currentKey P.table) := by
    unfold World.enter
    split <;> rfl
  refine ⟨grow_enter, ?_, .same hsame, .of_eq hsame⟩
  intro j hj
  refine Rely.of_grow grow_enter ?_ ?_ ?_ ?_ ?_ <;> unfold World.enter <;> split <;>
    first | rfl | exact Function.update_of_ne hj _ _

theorem Inv.enter (h : Inv P s) {c : Call} : Inv P (s.enter i c) := by
  have hg : Grow P s (s.enter i c) := grow_enter
  revert hg
  unfold World.enter
  split
  · rename_i hnone
    intro hg
    refine { h with held := ?_, lives := ?_, current := ?_ }
    · intro j
      by_cases hj : j = i
      · subst hj
        exact Held.of_none hnone
      · intro hO cs hcs
        simpa only [Function.update_of_ne hj] using h.held j hO cs hcs
    · intro a ha
      have hle := h.lives a ha
      by_cases hi : a.1.1 = i
      · simp only [hi, Function.update_self] at hle ⊢
        exact Nat.le_succ_of_le hle
      · simpa only [Function.update_of_ne hi] using hle
    · intro v hv
      obtain ⟨st, hc⟩ := h.current v hv
      exact ⟨st, hc.decoded, hg.stateOk hc.state, hc.slots, hc.acquired⟩
  · exact fun _ => h

end Objects

end DBPlayground.Invariant
