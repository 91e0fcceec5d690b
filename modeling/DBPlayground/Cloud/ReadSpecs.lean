import DBPlayground.Cloud.Rules

namespace DBPlayground.ReadSpecs

open ByteReader Table Wire Records Keys WalCodec Program RelyGuarantee Session Store StateStore TableWriter
  WalIndexer CloudSystem Log Invariant Rules

variable {ι : Type} {P : Params ι} {i : ι} {c : Call} {α : Type} {Q : α → World ι → Prop}
  {E : Exn → World ι → Prop} {s : World ι}

structure Loaded (P : Params ι) (w : World ι) (vs : VersionedSequentialState) : Prop where
  current : ∃ v, w.entries (currentKey P.table) = some v ∧ v.version = vs.version ∧ CurrentOk P w v vs.state

theorem Loaded.seen {w : World ι} {vs : VersionedSequentialState} (h : Loaded P w vs) : Seen P w vs := by
  obtain ⟨v, hv, hver, hc⟩ := h.current
  exact ⟨hc.state, v, vs.state, hv, hc.decoded, Le.refl _, Nat.le_of_eq hver.symm, fun _ => rfl⟩

variable [DecidableEq ι]

theorem wpm_load {f : Option VersionedSequentialState → StoreMethod α} (hs : Inv P s)
    (hF : Faults P i c E s (.metaGet (currentKey P.table)))
    (hnone : ∀ s', Rely P i s s' → Inv P s' → s'.entries (currentKey P.table) = none →
      wpm (ctx P i c) (f none) Q E s')
    (hsome : ∀ s' vs, Rely P i s s' → Inv P s' → Loaded P s' vs →
      P.allow i c (.metaGet (currentKey P.table)) s' (.ok (s'.entries (currentKey P.table))) = true →
      wpm (ctx P i c) (f (some vs)) Q E s') :
    wpm (ctx P i c) (load P.table >>= f) Q E s := by
  refine wpm_bind hs (wpm_metaGet hF ?_)
  intro s' hr hi ha
  cases hv : s'.entries (currentKey P.table) with
  | none => exact wpm_pure fun u hu _ => wpm_stable (hnone s' hr hi hv) hu
  | some v =>
      obtain ⟨st, hc⟩ := hi.current v hv
      refine wpm_lift_bind hi ?_ ?_
      · intro st' hst
        rw [hc.decoded] at hst
        cases hst
        refine wpm_throwIf hi (fun hbad => absurd hc.state.tableId hbad) ?_
        intro _
        refine wpm_pure fun u hu _ => wpm_stable (hsome s' ⟨st, v.version⟩ hr hi ⟨v, hv, rfl, hc⟩ ha) hu
      · intro e he
        rw [hc.decoded] at he
        cases he

theorem wpm_loadManifest {st : SequentialState} {f : SequentialManifest → StoreMethod α} (hs : Inv P s)
    (hst : StateOk P s st) (hF : Faults P i c E s (.metaGet (metaKey P.table st.manifestKey)))
    (hX : 1024 < P.table.schema.length → Escapes P i E s)
    (h : ∀ s' m, Rely P i s s' → Inv P s' → ManifestOk P s' m st.indexedSeq → wpm (ctx P i c) (f m) Q E s') :
    wpm (ctx P i c) (loadManifest P.table st >>= f) Q E s := by
  refine wpm_bind hs (wpm_metaGet hF ?_)
  intro s' hr hi _
  obtain ⟨v, m, hv, hm, hok⟩ := (hr.quiet.grow.stateOk hst).manifest
  have hcols : P.table.schema.length ≤ 1024 ∨ ∀ x u, Rely P i s' u → Inv P u → E x u := by
    by_cases hl : P.table.schema.length ≤ 1024
    · exact .inl hl
    · exact .inr fun x u hu hiu => hX (by omega) x u (hr.quiet.trans hu.quiet) hiu
  rw [hv]
  refine wpm_lift_bind hi ?_ ?_
  · intro m' hm'
    refine wpm_throwIf hi ?_ ?_
    · intro hbad u hu hiu
      rcases hcols with hl | hE
      · rw [decode_encode_manifest hm (by rw [hok.schema]; exact hl)] at hm'
        cases hm'
        rw [hok.tableId, hok.covered, hok.version, hst.version, hok.schema, schemasEqual_iff.mpr rfl] at hbad
        simp at hbad
      · exact hE _ u hu hiu
    · intro hgood
      have hsch : m'.schema = P.table.schema := by
        rw [← schemasEqual_iff, ← Bool.not_eq_false]
        exact fun hne => hgood (.inr (.inr (.inr hne)))
      have hl : m.schema.length ≤ 1024 := by
        rw [hok.schema, ← hsch]
        exact columns_of_decode hm'
      rw [decode_encode_manifest hm hl] at hm'
      cases hm'
      exact wpm_pure fun u hu _ => wpm_stable (h s' m hr hi hok) hu
  · intro e he u hu hiu
    rcases hcols with hl | hE
    · rw [decode_encode_manifest hm (by rw [hok.schema]; exact hl)] at he
      cases he
    · exact hE e u hu hiu

theorem wpm_loadBatchIndex {keys : List Bytes} {es : List SequentialBatchEntry}
    {f : List SequentialBatchEntry → StoreMethod α} (hs : Inv P s) (hx : IndexFiles P s keys es)
    (hF : ∀ key, Faults P i c E s (.metaGet key))
    (h : ∀ s', Rely P i s s' → Inv P s' → wpm (ctx P i c) (f es) Q E s') :
    wpm (ctx P i c) (loadBatchIndex P.table keys >>= f) Q E s := by
  induction keys generalizing α Q s es f with
  | nil =>
      cases hx
      exact h s (Rely.refl i s) hs
  | cons key keys ih =>
      cases hx with
      | @cons _ _ v part rest hv hd hr hk =>
          refine wpm_bind hs (wpm_metaGet (hF _) ?_)
          intro s' hr' hi _
          have hne := metaKey_ne_current (t := P.table) (ne_current_of_take hk (by decide))
          rw [hr'.quiet.grow.objects _ _ hne hv]
          refine wpm_lift_bind hi ?_ (fun e he => by rw [hd] at he; cases he)
          intro part' hp
          rw [hd] at hp
          cases hp
          refine ih hi (hr'.quiet.grow.indexFiles hr) (fun key' => (hF key').rely hr') ?_
          intro s'' hr'' hi''
          exact wpm_pure fun u hu _ => wpm_stable (h s'' (hr'.trans hr'') hi'') hu

theorem wpm_loadWal {seq : U64} {f : Option SequentialWal → StoreMethod α} (hs : Inv P s)
    (hF : Faults P i c E s (.openInput (walPath P.table seq)))
    (hkey : ∀ x, sequentialWalKey P.table seq = .error x → ∀ u, Rely P i s u → Inv P u → E x u)
    (hlarge : ∀ s' b, Rely P i s s' → Inv P s' → s'.files (walPath P.table seq) = some b →
      P.allow i c (.openInput (walPath P.table seq)) s' (.ok (some b)) = true →
      b.length > maxWalBytes → ∀ x u, Rely P i s' u → Inv P u → E x u)
    (hnone : ∀ s', Rely P i s s' → Inv P s' → seq ≠ 0 → s'.files (walPath P.table seq) = none →
      wpm (ctx P i c) (f none) Q E s')
    (hsome : ∀ s' k d, Rely P i s s' → Inv P s' → s'.created[k]? = some d → seq.toNat = k + 1 →
      d.bytes.length ≤ maxWalBytes → wpm (ctx P i c) (f (some (walOf P d))) Q E s') :
    wpm (ctx P i c) (loadSequentialWal P.table P.hashes seq >>= f) Q E s := by
  refine wpm_bind hs (wpm_lift_bind hs ?_ hkey)
  intro path hpath
  obtain ⟨hz, rfl⟩ := sequentialWalKey_ok hpath
  refine wpm_openInput hF ?_
  intro s' hr hi ha
  cases hf : s'.files (walPath P.table seq) with
  | none => exact wpm_pure fun u hu _ => wpm_stable (hnone s' hr hi hz hf) hu
  | some b =>
      obtain ⟨k, d, hd, hseq, hn, rfl⟩ := hi.slot_of_file hz hf
      have hslot := hi.slots k d hd
      refine wpm_throwIf hi (fun hl u hu hiu => hlarge s' _ hr hi hf (by rwa [hf] at ha) hl _ u hu hiu) ?_
      intro hle
      refine wpm_lift_bind hi ?_ (fun e he => by rw [hslot.decoded] at he; cases he)
      intro w hw
      rw [hslot.decoded] at hw
      cases hw
      refine wpm_throwIf hi ?_ ?_
      · intro hbad
        rw [hslot.seq, hslot.tableId, hslot.schemaVersion, hseq] at hbad
        simp at hbad
      · intro _
        exact wpm_pure fun u hu _ => wpm_stable (hsome s' k d hr hi hd hn (by omega)) hu

end DBPlayground.ReadSpecs
