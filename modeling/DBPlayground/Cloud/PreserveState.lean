import DBPlayground.Cloud.Growth

namespace DBPlayground.Invariant

open ByteReader Table Wire Records Keys WalCodec Store StateStore TableWriter WalIndexer CloudSystem Log

variable {ι : Type} {P : Params ι} {s w : World ι} {i : ι}

section Put

variable {key value : Bytes}

theorem grow_put_object (hne : key ≠ currentKey P.table) (hnone : s.entries key = none) :
    Grow P s (s.put key value) where
  files _ _ h := h
  created := List.prefix_rfl
  acquired := List.prefix_rfl
  objects k v _ hv := by
    have hk : k ≠ key := by
      rintro rfl
      rw [hnone] at hv
      cases hv
    simpa only [World.put, Function.update_of_ne hk] using hv
  current v hv := ⟨v, by simpa only [World.put, Function.update_of_ne (Ne.symm hne)] using hv, Later.refl v⟩
  nextVersion := Nat.le_succ _
  issued _ _ h := h

theorem versions_put (h : Inv P s) (k : Bytes) (v : VersionedValue) (hv : (s.put key value).entries k = some v) :
    v.version < (s.put key value).nextVersion := by
  by_cases hk : k = key
  · subst hk
    simp only [World.put, Function.update_self, Option.some.injEq] at hv
    subst hv
    exact Nat.lt_succ_self _
  · simp only [World.put, Function.update_of_ne hk] at hv
    exact Nat.lt_succ_of_lt (h.versions k v hv)

theorem Inv.put_object (h : Inv P s) (hne : key ≠ currentKey P.table) (hnone : s.entries key = none) :
    Inv P (s.put key value) := by
  have hg : Grow P s (s.put key value) := grow_put_object hne hnone
  have hcur : (s.put key value).entries (currentKey P.table) = s.entries (currentKey P.table) := by
    simp only [World.put, Function.update_of_ne (Ne.symm hne)]
  refine { h with versions := versions_put h, absent := ?_, current := ?_ }
  · rw [hcur]
    exact h.absent
  · intro v hv
    rw [hcur] at hv
    obtain ⟨st, hc⟩ := h.current v hv
    exact ⟨st, hc.decoded, hg.stateOk hc.state, hc.slots, hc.acquired⟩

theorem guar_put_object (hne : key ≠ currentKey P.table) (hnone : s.entries key = none) :
    Guar P i s (s.put key value) :=
  ⟨grow_put_object hne hnone, fun _ _ => Rely.of_grow (grow_put_object hne hnone) rfl rfl rfl rfl rfl,
    .same (by simp only [World.put, Function.update_of_ne (Ne.symm hne)]),
    .of_eq (by simp only [World.put, Function.update_of_ne (Ne.symm hne)])⟩

theorem quiet_put_object (hne : key ≠ currentKey P.table) (hnone : s.entries key = none) :
    Quiet P i s (s.put key value) :=
  (Rely.of_grow (grow_put_object hne hnone) rfl rfl rfl rfl rfl).quiet

end Put

section First

variable {value : Bytes}

theorem grow_first (hnone : s.entries (currentKey P.table) = none) :
    Grow P s (s.put (currentKey P.table) value) where
  files _ _ h := h
  created := List.prefix_rfl
  acquired := List.prefix_rfl
  objects k v hk hv := by simpa only [World.put, Function.update_of_ne hk] using hv
  current v hv := by
    rw [hnone] at hv
    cases hv
  nextVersion := Nat.le_succ _
  issued _ _ h := h

theorem Inv.first (h : Inv P s) (hnone : s.entries (currentKey P.table) = none)
    (hd : decodeSequentialState value = .ok (initialState P.table))
    (hs : StateOk P s (initialState P.table)) : Inv P (s.put (currentKey P.table) value) := by
  obtain ⟨hc, ha⟩ := h.absent hnone
  refine { h with versions := versions_put h, absent := ?_, current := ?_ }
  · intro hn
    simp [World.put] at hn
  · intro v hv
    simp only [World.put, Function.update_self, Option.some.injEq] at hv
    subst hv
    refine ⟨initialState P.table, hd, (grow_first hnone).stateOk hs, ?_, ?_⟩
    · intro c hmem
      simp [World.put, hc] at hmem
    · intro a hmem
      simp [World.put, ha] at hmem

theorem guar_first (hnone : s.entries (currentKey P.table) = none)
    (hd : decodeSequentialState value = .ok (initialState P.table)) :
    Guar P i s (s.put (currentKey P.table) value) :=
  ⟨grow_first hnone, fun _ _ => Rely.of_grow (grow_first hnone) rfl rfl rfl rfl rfl,
    .first ⟨value, s.nextVersion⟩ hnone (by simp only [World.put, Function.update_self]) hd,
    fun v hv => absurd (hnone.symm.trans hv) nofun⟩

theorem quiet_first (hnone : s.entries (currentKey P.table) = none) :
    Quiet P i s (s.put (currentKey P.table) value) :=
  (Rely.of_grow (grow_first hnone) rfl rfl rfl rfl rfl).quiet

end First

section Swap

variable {value : Bytes} {v : VersionedValue} {st next : SequentialState}

theorem grow_swap (h : Inv P s) (hv : s.entries (currentKey P.table) = some v)
    (hd : decodeSequentialState v.value = .ok st) (hn : decodeSequentialState value = .ok next)
    (hle : Le st next) : Grow P s (s.put (currentKey P.table) value) where
  files _ _ h := h
  created := List.prefix_rfl
  acquired := List.prefix_rfl
  objects k v hk hv := by simpa only [World.put, Function.update_of_ne hk] using hv
  current u hu := by
    rw [hv] at hu
    cases hu
    have hlt := h.versions _ _ hv
    refine ⟨⟨value, s.nextVersion⟩, by simp only [World.put, Function.update_self], Nat.le_of_lt hlt, ?_, ?_⟩
    · intro he
      dsimp only at he
      omega
    · intro st' hst
      rw [hd] at hst
      cases hst
      exact ⟨next, hn, hle⟩
  nextVersion := Nat.le_succ _
  issued _ _ h := h

theorem Inv.swap (h : Inv P s) (hv : s.entries (currentKey P.table) = some v)
    (hd : decodeSequentialState v.value = .ok st) (hn : decodeSequentialState value = .ok next)
    (hle : Le st next) (hs : StateOk P s next) : Inv P (s.put (currentKey P.table) value) := by
  obtain ⟨st', hc⟩ := h.current v hv
  rw [hc.decoded] at hd
  cases hd
  refine { h with versions := versions_put h, absent := ?_, current := ?_ }
  · intro hnone
    simp [World.put] at hnone
  · intro u hu
    simp only [World.put, Function.update_self, Option.some.injEq] at hu
    subst hu
    exact ⟨next, hn, (grow_swap h hv hc.decoded hn hle).stateOk hs,
      fun c hm => BitVec.le_trans (hc.slots c hm) hle.writerEpoch,
      fun a hm => BitVec.le_trans (hc.acquired a hm) hle.writerEpoch⟩

theorem guar_swap (h : Inv P s) (hv : s.entries (currentKey P.table) = some v)
    (hd : decodeSequentialState v.value = .ok st) (hn : decodeSequentialState value = .ok next)
    (hle : Le st next) (hver : next.stateVersion = st.stateVersion + 1) (hlt : marks st < marks next) :
    Guar P i s (s.put (currentKey P.table) value) := by
  refine ⟨grow_swap h hv hd hn hle, fun _ _ => Rely.of_grow (grow_swap h hv hd hn hle) rfl rfl rfl rfl rfl,
    .next v ⟨value, s.nextVersion⟩ st next hv (by simp only [World.put, Function.update_self]) hd hn hver hle, ?_⟩
  intro u hu
  rw [hv] at hu
  cases hu
  exact ⟨⟨value, s.nextVersion⟩, by simp only [World.put, Function.update_self], .inr ⟨st, next, hd, hn, hlt⟩⟩

theorem quiet_swap (h : Inv P s) (hv : s.entries (currentKey P.table) = some v)
    (hd : decodeSequentialState v.value = .ok st) (hn : decodeSequentialState value = .ok next)
    (hle : Le st next) : Quiet P i s (s.put (currentKey P.table) value) :=
  (Rely.of_grow (grow_swap h hv hd hn hle) rfl rfl rfl rfl rfl).quiet

end Swap

section Acquire

variable {e : U64}

theorem grow_acquire : Grow P w (w.addAcquired i e) where
  files _ _ h := h
  created := List.prefix_rfl
  acquired := List.prefix_append _ _
  objects _ _ _ h := h
  current v hv := ⟨v, hv, Later.refl v⟩
  nextVersion := Nat.le_refl _
  issued _ _ h := h

theorem rely_acquire {j : ι} (hj : j ≠ i) : Rely P j w (w.addAcquired i e) := by
  refine ⟨⟨grow_acquire, rfl, rfl, (Quiet.refl (P := P) j w).created, ?_⟩, fun _ _ _ => rfl⟩
  intro a ha haj
  rcases List.mem_append.mp ha with ha | ha
  · exact ha
  · rw [List.mem_singleton] at ha
    rw [ha] at haj
    exact absurd haj.symm hj

theorem Inv.acquire (h : Inv P w) {v : VersionedValue} {st : SequentialState}
    (hv : w.entries (currentKey P.table) = some v) (hd : decodeSequentialState v.value = .ok st)
    (he : st.writerEpoch = e) (hlt : ∀ a ∈ w.acquired, a.2 < e)
    (hfresh : ∀ a ∈ w.acquired, a.1 ≠ (i, w.incarnation i)) : Inv P (w.addAcquired i e) := by
  refine { h with
    fences := ?_, stamps := ?_, authors := ?_, epochs := ?_, held := ?_, lives := ?_, absent := ?_, current := ?_ }
  · exact fun c hc hk => List.mem_append_left _ (h.fences c hc hk)
  · exact fun ho c hc => List.mem_append_left _ (h.stamps ho c hc)
  · rw [World.addAcquired, List.map_append, List.nodup_append]
    refine ⟨h.authors, by simp, ?_⟩
    intro a ha b hb
    obtain ⟨x, hx, rfl⟩ := List.mem_map.mp ha
    rw [List.map_singleton, List.mem_singleton] at hb
    rw [hb]
    exact hfresh x hx
  · rw [World.addAcquired, List.map_append, List.pairwise_append]
    refine ⟨h.epochs, by simp, ?_⟩
    intro a ha b hb
    obtain ⟨x, hx, rfl⟩ := List.mem_map.mp ha
    rw [List.map_singleton, List.mem_singleton] at hb
    rw [hb]
    exact hlt x hx
  · exact fun j hO cs hcs => List.mem_append_left _ (h.held j hO cs hcs)
  · intro a ha
    rcases List.mem_append.mp ha with ha | ha
    · exact h.lives a ha
    · rw [List.mem_singleton] at ha
      rw [ha]
      exact Nat.le_refl _
  · intro hn
    rw [show w.entries (currentKey P.table) = none from hn] at hv
    cases hv
  · intro u hu
    rw [show w.entries (currentKey P.table) = some u from hu] at hv
    cases hv
    obtain ⟨st', hc⟩ := h.current v hu
    rw [hc.decoded] at hd
    cases hd
    refine ⟨st, hc.decoded, grow_acquire.stateOk hc.state, hc.slots, ?_⟩
    intro a ha
    rcases List.mem_append.mp ha with ha | ha
    · exact hc.acquired a ha
    · rw [List.mem_singleton] at ha
      rw [ha, he]
      exact BitVec.le_refl _

end Acquire

end DBPlayground.Invariant
