import DBPlayground.Cloud.ReadSpecs
import DBPlayground.Cloud.Contract

namespace DBPlayground.WriteSpecs

open ByteReader Table Wire Records Keys WalCodec Program RelyGuarantee Session Store StateStore TableWriter
  WalIndexer CloudSystem Log Invariant Rules ReadSpecs Contract

variable {ι : Type} [DecidableEq ι]

section Effects

variable {i : ι} {c : Call} {e : Env} {w w' : World ι} {key value path bytes : Bytes}

omit [DecidableEq ι] in
theorem put_entries : (w.put key value).entries key = some ⟨value, w.nextVersion⟩ := by
  simp only [World.put, Function.update_self]

theorem perform_putIfAbsent {r : Ans (.putIfAbsent key value)}
    (h : perform i c e (.putIfAbsent key value) w = some (r, w')) :
    (w' = w ∨ w.entries key = none ∧ w' = w.put key value) ∧
      ∀ v, r = .ok (.applied v) → w'.entries key = some ⟨value, v⟩ := by
  simp only [perform] at h
  by_cases hn : w.entries key = none
  · simp only [hn, if_true] at h
    cases e with
    | answer =>
        cases h
        refine ⟨.inr ⟨hn, rfl⟩, ?_⟩
        intro v hv
        cases hv
        exact put_entries
    | conflict applied | fault what applied =>
        cases h
        refine ⟨?_, fun _ hv => by cases hv⟩
        cases applied
        · exact .inl rfl
        · exact .inr ⟨hn, rfl⟩
    | key => cases h
  · simp only [hn, if_false, ite_self] at h
    cases e with
    | answer | conflict applied | fault what applied =>
        cases h
        exact ⟨.inl rfl, fun _ hv => by cases hv⟩
    | key => cases h

/-- A compare-and-swap takes effect only on the expected version; one that
reports success did, and then counts as an acquisition. -/
theorem perform_compareExchange {expected : Nat} {r : Ans (.compareExchange key expected value)}
    (h : perform i c e (.compareExchange key expected value) w = some (r, w')) :
    ((∀ v, r ≠ .ok (.applied v)) ∧ (w' = w ∨
      (w.entries key).map (·.version) = some expected ∧ w' = w.put key value)) ∨
    ((w.entries key).map (·.version) = some expected ∧ r = .ok (.applied w.nextVersion) ∧
      w' = (w.put key value).acquire i c value) := by
  simp only [perform] at h
  by_cases hv : (w.entries key).map (·.version) = some expected
  · simp only [hv, if_true] at h
    cases e with
    | answer =>
        cases h
        exact .inr ⟨hv, rfl, rfl⟩
    | conflict applied | fault what applied =>
        cases h
        refine .inl ⟨fun _ hv => (by cases hv), ?_⟩
        cases applied
        · exact .inl rfl
        · exact .inr ⟨hv, rfl⟩
    | key => cases h
  · simp only [hv, if_false, ite_self] at h
    cases e with
    | answer | conflict applied | fault what applied =>
        cases h
        exact .inl ⟨fun _ hv => (by cases hv), .inl rfl⟩
    | key => cases h

theorem perform_createIfAbsent {r : Ans (.createIfAbsent path bytes)}
    (h : perform i c e (.createIfAbsent path bytes) w = some (r, w')) :
    (w.files path = none ∧ w' = w.create i path bytes ∧ (r = .ok .created ∨ r = .ok .retryableConflict)) ∨
    (w' = w ∧ r ≠ .ok .created ∧ (r = .ok .alreadyExists → w.files path ≠ none)) := by
  simp only [perform] at h
  by_cases hn : w.files path = none
  · simp only [hn, if_true] at h
    cases e with
    | answer =>
        cases h
        exact .inl ⟨hn, rfl, .inl rfl⟩
    | conflict applied =>
        cases h
        cases applied
        · exact .inr ⟨rfl, fun hr => (by cases hr), fun hr => by cases hr⟩
        · exact .inl ⟨hn, rfl, .inr rfl⟩
    | fault what applied =>
        cases h
        exact .inr ⟨rfl, fun hr => (by cases hr), fun hr => by cases hr⟩
    | key => cases h
  · simp only [hn, if_false, ite_self] at h
    cases e with
    | answer | conflict applied | fault what applied =>
        cases h
        exact .inr ⟨rfl, fun hr => (by cases hr), fun _ => hn⟩
    | key => cases h

end Effects

variable {P : Params ι} {i : ι} {c : Call} {α : Type} {Q : α → World ι → Prop} {E : Exn → World ι → Prop}
  {s : World ι}

section Put

variable {key value : Bytes} {f : ConditionalWriteResult → StoreMethod α}

theorem wpm_putIfAbsent (hE : Escapes P i E s)
    (hput : ∀ s', Rely P i s s' → Inv P s' → s'.entries key = none →
      Guar P i s' (s'.put key value) ∧ Inv P (s'.put key value) ∧ Quiet P i s' (s'.put key value))
    (h : ∀ u r, Quiet P i s u → Inv P u → (∀ v, r = .applied v → u.entries key = some ⟨value, v⟩) →
      wpm (ctx P i c) (f r) Q E u) :
    wpm (ctx P i c) (putIfAbsent key value >>= f) Q E s := by
  refine wpm_request ?_
  intro s' hr hi e r u hp _
  obtain ⟨hu, hv⟩ := perform_putIfAbsent hp
  have hok : Guar P i s' u ∧ Inv P u ∧ Quiet P i s u := by
    rcases hu with rfl | ⟨hn, rfl⟩
    · exact ⟨guar_refl u, hi, hr.quiet⟩
    · obtain ⟨hg, hi', hq⟩ := hput s' hr hi hn
      exact ⟨hg, hi', hr.quiet.trans hq⟩
  refine ⟨hok.1, hok.2.1, ?_⟩
  cases r with
  | ok r => exact h u r hok.2.2 hok.2.1 (fun v hr => hv v (congrArg _ hr))
  | error x => exact fun t ht hit => hE x t (hok.2.2.trans ht.quiet) hit

theorem wpm_putObject (hne : key ≠ currentKey P.table) (hE : Escapes P i E s)
    (h : ∀ u r, Quiet P i s u → Inv P u → (∀ v, r = .applied v → u.entries key = some ⟨value, v⟩) →
      wpm (ctx P i c) (f r) Q E u) :
    wpm (ctx P i c) (putIfAbsent key value >>= f) Q E s :=
  wpm_putIfAbsent hE (fun _ _ hi hn => ⟨guar_put_object hne hn, hi.put_object hne hn, quiet_put_object hne hn⟩) h

theorem wpm_writeObject {x : Except Exn Bytes} (hs : Inv P s)
    (hne : metaKey P.table key ≠ currentKey P.table) (hE : Escapes P i E s)
    (h : ∀ u r, Quiet P i s u → Inv P u → (∀ v, r = .applied v → ∃ b,
      x = .ok b ∧ u.entries (metaKey P.table key) = some ⟨b, v⟩) → wpm (ctx P i c) (f r) Q E u) :
    wpm (ctx P i c) ((Program.lift x >>= fun b => putIfAbsent (metaKey P.table key) b) >>= f) Q E s := by
  rw [bind_assoc]
  refine wpm_lift_bind hs ?_ (fun x _ u hu hiu => hE x u hu.quiet hiu)
  intro b hb
  exact wpm_putObject hne hE fun u r hq hi hv => h u r hq hi fun v hr => ⟨b, hb, hv v hr⟩

end Put

section Initialize

variable {f : ConditionalWriteResult → StoreMethod α}

omit [DecidableEq ι] in
theorem stateOk_initial {v : VersionedValue} (hv : s.entries (metaKey P.table initialKey) = some v)
    (hb : encodeSequentialManifest (initialManifest P.table) = .ok v.value) :
    StateOk P s (initialState P.table) where
  tableId := rfl
  version := rfl
  indexed := BitVec.le_refl _
  published := Nat.zero_le _
  key := show initialKey.take 9 = ascii "manifest/" by decide
  manifest := by
    refine ⟨v, initialManifest P.table, hv, hb, rfl, rfl, rfl, rfl, ⟨[], .nil, ?_, nofun⟩, fun _ => rfl, ?_, ?_⟩
    · intro k d _ hk
      exact absurd hk (Nat.not_lt_zero k)
    · intro es hes
      cases hes
      exact List.nodup_nil
    · exact ⟨.nil, nofun, nofun, fun k d _ hk => absurd hk (Nat.not_lt_zero k)⟩

theorem wpm_putInitialState (hs : Inv P s) (hst : StateOk P s (initialState P.table)) (hE : Escapes P i E s)
    (h : ∀ u r, Quiet P i s u → Inv P u → wpm (ctx P i c) (f r) Q E u) :
    wpm (ctx P i c) (putInitialState P.table >>= f) Q E s := by
  rw [putInitialState, bind_assoc]
  refine wpm_lift_bind hs ?_ (fun x _ u hu hiu => hE x u hu.quiet hiu)
  intro b hb
  have hd := decode_encode_state hb
  refine wpm_putIfAbsent hE ?_ (fun u r hq hi _ => h u r hq hi)
  intro s' hr hi hn
  exact ⟨guar_first hn hd, hi.first hn hd (hr.quiet.grow.stateOk hst), quiet_first hn⟩

theorem wpm_checkInitialManifest {f : Unit → StoreMethod α} (hE : Escapes P i E s)
    (h : ∀ u, Quiet P i s u → Inv P u → StateOk P u (initialState P.table) → wpm (ctx P i c) (f ()) Q E u) :
    wpm (ctx P i c) (checkInitialManifest P.table >>= f) Q E s := by
  rw [checkInitialManifest, bind_assoc]
  refine wpm_metaGet (hE.faults _) ?_
  intro s' hr hi _
  rw [bind_assoc]
  refine wpm_lift_bind hi ?_ (fun x _ u hu hiu => hE x u (hr.quiet.trans hu.quiet) hiu)
  intro b hb
  refine wpm_throwIf hi (fun _ u hu hiu => hE _ u (hr.quiet.trans hu.quiet) hiu) ?_
  intro hsame
  obtain ⟨v, hv, rfl⟩ := Option.map_eq_some_iff.mp (not_not.mp hsame)
  exact h s' hr.quiet hi (stateOk_initial hv hb)

theorem wpm_initializeTable (hs : Inv P s) (hE : Escapes P i E s)
    (h : ∀ u r, Quiet P i s u → Inv P u → wpm (ctx P i c) (f r) Q E u) :
    wpm (ctx P i c) (initializeTable P.table >>= f) Q E s := by
  have hne : metaKey P.table initialKey ≠ currentKey P.table := metaKey_ne_current (by decide)
  rw [initializeTable, bind_assoc]
  refine wpm_writeObject (x := encodeSequentialManifest (initialManifest P.table)) hs hne hE ?_
  intro u r hq hi hv
  cases r with
  | retryableConflict => exact h u _ hq hi
  | preconditionFailed =>
      dsimp only
      rw [bind_assoc]
      refine wpm_checkInitialManifest (hE.quiet hq) ?_
      intro u' hq' hi' hst
      exact wpm_putInitialState hi' hst (hE.quiet (hq.trans hq'))
        fun t r ht hit => h t r ((hq.trans hq').trans ht) hit
  | applied v =>
      obtain ⟨b, hb, he⟩ := hv v rfl
      exact wpm_putInitialState hi (stateOk_initial he hb) (hE.quiet hq) fun t r ht hit => h t r (hq.trans ht) hit

end Initialize

section Swap

variable {vs : VersionedSequentialState} {next : SequentialState} {value : Bytes}
  {f : ConditionalWriteResult → StoreMethod α}

omit [DecidableEq ι] in
theorem loaded_put (hi : Inv P (s.put (currentKey P.table) value)) (hn : decodeSequentialState value = .ok next) :
    Loaded P (s.put (currentKey P.table) value) ⟨next, s.nextVersion⟩ := by
  obtain ⟨st, hc⟩ := hi.current _ put_entries
  rw [hc.decoded] at hn
  cases hn
  exact ⟨_, put_entries, rfl, hc⟩

omit [DecidableEq ι] in
theorem marks_lt {st st' : SequentialState} (hle : Le st st') (h : st.writerEpoch < st'.writerEpoch ∨
    st.indexedSeq < st'.indexedSeq ∨ st.publishedSeq < st'.publishedSeq) : marks st < marks st' := by
  have h₁ : st.writerEpoch.toNat ≤ st'.writerEpoch.toNat := hle.writerEpoch
  have h₂ : st.indexedSeq.toNat ≤ st'.indexedSeq.toNat := hle.indexedSeq
  have h₃ : st.publishedSeq.toNat ≤ st'.publishedSeq.toNat := hle.publishedSeq
  unfold marks
  rcases h with h | h | h
  · have h : st.writerEpoch.toNat < st'.writerEpoch.toNat := h
    omega
  · have h : st.indexedSeq.toNat < st'.indexedSeq.toNat := h
    omega
  · have h : st.publishedSeq.toNat < st'.publishedSeq.toNat := h
    omega

theorem wpm_compareExchange (hs : Inv P s) (hseen : Seen P s vs) (hok : StateOk P s next)
    (hle : Le vs.state next) (hver : next.stateVersion = vs.state.stateVersion + 1)
    (hlt : marks vs.state < marks next) (hE : Escapes P i E s)
    (happlied : ∀ s' u value, Rely P i s s' → Inv P s' →
      (s'.entries (currentKey P.table)).map (·.version) = some vs.version →
      decodeSequentialState value = .ok next → u = s'.put (currentKey P.table) value →
      Guar P i s' u → Inv P u → Quiet P i s u → Loaded P u ⟨next, s'.nextVersion⟩ →
      Guar P i s' (u.acquire i c value) ∧ Inv P (u.acquire i c value) ∧
        wpm (ctx P i c) (f (.applied s'.nextVersion)) Q E (u.acquire i c value))
    (hother : ∀ u r, Quiet P i s u → Inv P u → (∀ v, r ≠ .applied v) → wpm (ctx P i c) (f r) Q E u) :
    wpm (ctx P i c) (StateStore.compareExchange P.table vs next >>= f) Q E s := by
  rw [StateStore.compareExchange, bind_assoc]
  refine wpm_throwIf hs (fun _ u hu hiu => hE _ u hu.quiet hiu) ?_
  intro _
  rw [bind_assoc]
  refine wpm_lift_bind hs ?_ (fun x _ u hu hiu => hE x u hu.quiet hiu)
  intro b hb
  have hn := decode_encode_state hb
  refine wpm_request ?_
  intro s' hr hi e r u hp _
  have hput : (s'.entries (currentKey P.table)).map (·.version) = some vs.version →
      Guar P i s' (s'.put (currentKey P.table) b) ∧ Inv P (s'.put (currentKey P.table) b) ∧
        Quiet P i s (s'.put (currentKey P.table) b) := by
    intro hv
    obtain ⟨v, he, hd⟩ := (hseen.grow hr.quiet.grow).unchanged hv
    exact ⟨guar_swap hi he hd hn hle hver hlt, hi.swap he hd hn hle (hr.quiet.grow.stateOk hok),
      hr.quiet.trans (quiet_swap hi he hd hn hle)⟩
  rcases perform_compareExchange hp with ⟨hr', hu⟩ | ⟨hv, rfl, rfl⟩
  · have hall : Guar P i s' u ∧ Inv P u ∧ Quiet P i s u := by
      rcases hu with rfl | ⟨hv, rfl⟩
      · exact ⟨guar_refl u, hi, hr.quiet⟩
      · exact hput hv
    refine ⟨hall.1, hall.2.1, ?_⟩
    cases r with
    | ok r => exact hother u r hall.2.2 hall.2.1 (fun v hv => hr' v (congrArg _ hv))
    | error x => exact fun t ht hit => hE x t (hall.2.2.trans ht.quiet) hit
  · obtain ⟨hg, hi', hq⟩ := hput hv
    exact happlied s' _ b hr hi hv hn rfl hg hi' hq (loaded_put hi' hn)

theorem wpm_swap (hc : c ≠ .start) (hs : Inv P s) (hseen : Seen P s vs) (hok : StateOk P s next)
    (hle : Le vs.state next) (hver : next.stateVersion = vs.state.stateVersion + 1)
    (hlt : marks vs.state < marks next) (hE : Escapes P i E s)
    (h : ∀ u r, Quiet P i s u → Inv P u → (∀ v, r = .applied v → Loaded P u ⟨next, v⟩) →
      wpm (ctx P i c) (f r) Q E u) :
    wpm (ctx P i c) (StateStore.compareExchange P.table vs next >>= f) Q E s := by
  refine wpm_compareExchange hs hseen hok hle hver hlt hE ?_ ?_
  · intro s' u value hr hi hv hn hu hg hi' hq hl
    have hacq : u.acquire i c value = u := by
      unfold World.acquire
      split
      · exact absurd rfl hc
      · rfl
    rw [hacq]
    refine ⟨hg, hi', h u _ hq hi' ?_⟩
    intro v hv
    cases hv
    exact hl
  · exact fun u r hq hi hr => h u r hq hi (fun v hv => absurd hv (hr v))

theorem wpm_acquire (hs : Inv P s) (hseen : Seen P s vs) (hok : StateOk P s next) (hle : Le vs.state next)
    (hver : next.stateVersion = vs.state.stateVersion + 1) (hlt : vs.state.writerEpoch < next.writerEpoch)
    (hfresh : ∀ a ∈ s.acquired, a.1 ≠ (i, s.incarnation i)) (hE : Escapes P i E s)
    (happlied : ∀ u v, Grow P s u → Inv P u → u.writers i = s.writers i →
      ((i, u.incarnation i), next.writerEpoch) ∈ u.acquired →
      (∀ d ∈ u.created, d.author ≠ (i, u.incarnation i)) → wpm (ctx P i .start) (f (.applied v)) Q E u)
    (hother : ∀ u r, Quiet P i s u → Inv P u → (∀ v, r ≠ .applied v) → wpm (ctx P i .start) (f r) Q E u) :
    wpm (ctx P i .start) (StateStore.compareExchange P.table vs next >>= f) Q E s := by
  refine wpm_compareExchange hs hseen hok hle hver (marks_lt hle (.inl hlt)) hE ?_ hother
  intro s' u value hr hi hv hn hu hg hi' hq hl
  have hacq : u.acquire i .start value = u.addAcquired i next.writerEpoch := by
    simp only [World.acquire, hn]
  have hsame : u.acquired = s'.acquired := by rw [hu, World.put]
  have hfresh' : ∀ a ∈ u.acquired, a.1 ≠ (i, u.incarnation i) := by
    intro a ha heq
    rw [hq.life] at heq
    exact hfresh a (hq.acquired a ha (by rw [heq])) heq
  rw [hacq]
  have hinv : Inv P (u.addAcquired i next.writerEpoch) := by
    obtain ⟨v, hcur, _, hc⟩ := hl.current
    refine hi'.acquire hcur hc.decoded rfl ?_ hfresh'
    obtain ⟨v, he, hd⟩ := (hseen.grow hr.quiet.grow).unchanged hv
    obtain ⟨st, hst⟩ := hi.current v he
    rw [hst.decoded] at hd
    cases hd
    intro a ha
    rw [hsame] at ha
    exact Nat.lt_of_le_of_lt (hst.acquired a ha) hlt
  refine ⟨⟨hg.grow.trans grow_acquire, fun j hj => (hg.others j hj).trans (rely_acquire hj), ?_, hg.advance⟩, hinv, ?_⟩
  · cases hg.tick with
    | same h => exact .same h
    | first v h₁ h₂ h₃ => exact .first v h₁ h₂ h₃
    | next v v' st st' h₁ h₂ h₃ h₄ h₅ h₆ => exact .next v v' st st' h₁ h₂ h₃ h₄ h₅ h₆
  · refine happlied _ _ (hq.grow.trans grow_acquire) hinv hq.writer ?_ ?_
    · exact List.mem_append_right _ (List.mem_singleton.mpr rfl)
    · intro d hd heq
      obtain ⟨k, hk⟩ := List.mem_iff_getElem?.mp hd
      obtain ⟨e, he⟩ := author_acquired hi' hk
      exact hfresh' _ he heq

end Swap

section Files

theorem wpm_createIfAbsent {seq : U64} {bytes : Bytes} {f : CreateFileResult → StoreMethod α}
    (hE : Escapes P i E s)
    (hnew : ∀ s', Rely P i s s' → Inv P s' → s'.files (walPath P.table seq) = none →
      NextSlot P s' ⟨walPath P.table seq, bytes, (i, s'.incarnation i)⟩)
    (hcreate : ∀ s' r, Rely P i s s' → Inv P s' → s'.files (walPath P.table seq) = none →
      Inv P (s'.create i (walPath P.table seq) bytes) → r = .created ∨ r = .retryableConflict →
      P.allow i c (.createIfAbsent (walPath P.table seq) bytes) s' (.ok r) = true →
      wpm (ctx P i c) (f r) Q E (s'.create i (walPath P.table seq) bytes))
    (hkeep : ∀ s' r, Rely P i s s' → Inv P s' → r ≠ .created →
      (r = .alreadyExists → s'.files (walPath P.table seq) ≠ none) → wpm (ctx P i c) (f r) Q E s') :
    wpm (ctx P i c) (createIfAbsent (walPath P.table seq) bytes >>= f) Q E s := by
  refine wpm_request ?_
  intro s' hr hi e r u hp ha
  rcases perform_createIfAbsent hp with ⟨hn, rfl, hr'⟩ | ⟨rfl, hr', hex⟩
  · have hi' := hi.create hn (hnew s' hr hi hn)
    refine ⟨guar_create hn, hi', ?_⟩
    rcases hr' with rfl | rfl
    · exact hcreate s' _ hr hi hn hi' (.inl rfl) ha
    · exact hcreate s' _ hr hi hn hi' (.inr rfl) ha
  · refine ⟨guar_refl u, hi, ?_⟩
    cases r with
    | ok r => exact hkeep u r hr hi (fun h => hr' (congrArg _ h)) (fun h => hex (congrArg _ h))
    | error x => exact fun t ht hit => hE x t (hr.quiet.trans ht.quiet) hit

theorem wpm_writeFile {key bytes : Bytes} {f : Unit → StoreMethod α} (hd : key.take 5 = ascii "data/")
    (hk : s.issued key = some i) (hn : s.files (dataPath P.table key) = none) (hE : Escapes P i E s)
    (h : ∀ u, Quiet P i s u → Inv P u → u.files (dataPath P.table key) = some bytes →
      wpm (ctx P i c) (f ()) Q E u) :
    wpm (ctx P i c) (writeFile (dataPath P.table key) bytes >>= f) Q E s := by
  refine wpm_request ?_
  intro s' hr hi e r u hp _
  have hk' := hr.quiet.grow.issued key i hk
  have hn' : s'.files (dataPath P.table key) = none := by rw [hr.files key hd hk, hn]
  have hq : Quiet P i s (s'.write (dataPath P.table key) bytes) := hr.quiet.trans (quiet_write hn')
  cases e with
  | answer =>
      cases hp
      exact ⟨guar_write hk' hn', hi.write hd hk' hn', h _ hq (hi.write hd hk' hn')
        (by simp only [World.write, Function.update_self])⟩
  | fault what applied =>
      cases hp
      cases applied with
      | false => exact ⟨guar_refl s', hi, fun t ht hit => hE _ t (hr.quiet.trans ht.quiet) hit⟩
      | true => exact ⟨guar_write hk' hn', hi.write hd hk' hn', fun t ht hit => hE _ t (hq.trans ht.quiet) hit⟩
  | conflict | key => cases hp

end Files

end DBPlayground.WriteSpecs
