import DBPlayground.Cloud.ReadSpecs
import DBPlayground.Cloud.Contract

namespace DBPlayground.LogReads

open ByteReader Table Wire Records Keys WalCodec Program RelyGuarantee Session Store StateStore TableWriter
  WalIndexer SnapshotLoader CloudSystem Log Invariant Rules ReadSpecs Contract

variable {ι : Type} (P : Params ι)

def slice (w : World ι) (n len : Nat) : List SequentialWal := ((w.created.drop n).take len).map (walOf P)

def entriesIn (wals : List SequentialWal) : List SequentialBatchEntry := wals.flatMap fun w => entriesOf w.seq w

structure WalReads (i : ι) (c : Call) (E : Exn → World ι → Prop) (s : World ι) : Prop where
  fault : ∀ path, Faults P i c E s (.openInput path)
  located : trimSlashes P.table.filePrefix = [] → ∀ x u, Rely P i s u → Inv P u → E x u
  large : ∀ s' d x u, Rely P i s s' → Inv P s' → d ∈ s'.created → maxWalBytes < d.bytes.length →
    Rely P i s' u → Inv P u → E x u

variable {P} {i : ι} {c : Call} {α : Type} {Q : α → World ι → Prop} {E : Exn → World ι → Prop} {s w u : World ι}

theorem slice_zero (w : World ι) (n : Nat) : slice P w n 0 = [] := rfl

theorem slice_succ {n len : Nat} {d : Creation ι} (h : w.created[n]? = some d) :
    slice P w n (len + 1) = walOf P d :: slice P w (n + 1) len := by
  obtain ⟨hlt, rfl⟩ := List.getElem?_eq_some_iff.mp h
  rw [slice, List.drop_eq_getElem_cons hlt, List.take_succ_cons, List.map_cons, slice]

theorem slice_grow (h : Grow P w u) {n len : Nat} (hn : n + len ≤ w.created.length) :
    slice P u n len = slice P w n len := by
  have ht := h.take hn
  rw [List.take_add, List.take_add, h.take (by omega)] at ht
  rw [slice, slice, List.append_cancel_left ht]

theorem length_slice {n len : Nat} (hn : n + len ≤ w.created.length) : (slice P w n len).length = len := by
  rw [slice, List.length_map, List.length_take, List.length_drop]
  omega

theorem slot_of_mem_slice {n len : Nat} {wal : SequentialWal} (h : wal ∈ slice P w n len) :
    ∃ (k : Nat) (d : Creation ι), w.created[k]? = some d ∧ wal = walOf P d := by
  obtain ⟨d, hd, rfl⟩ := List.mem_map.mp h
  obtain ⟨k, hk⟩ := List.mem_iff_getElem?.mp (List.mem_of_mem_drop (List.mem_of_mem_take hd))
  exact ⟨k, d, hk, rfl⟩

theorem flatMap_appended {β : Type} (hw : Inv P w) {n len : Nat} {f : SequentialWal → List β}
    (hf : ∀ wal, wal.batchIds = [] → wal.chunks = [] → f wal = []) :
    (appended (slice P w n len)).flatMap f = (slice P w n len).flatMap f := by
  have hall : ∀ wal ∈ slice P w n len, wal.kind = .append ∨ f wal = [] := by
    intro wal hwal
    obtain ⟨k, d, hd, rfl⟩ := slot_of_mem_slice hwal
    cases hkind : (walOf P d).kind with
    | append => exact .inl rfl
    | fence =>
        obtain ⟨hi, hc⟩ := (hw.slots k d hd).fence_contents hkind
        exact .inr (hf _ hi hc)
  revert hall
  induction slice P w n len with
  | nil => exact fun _ => rfl
  | cons wal wals ih =>
      intro hall
      have hrest := ih fun v hv => hall v (List.mem_cons_of_mem _ hv)
      rcases hall wal List.mem_cons_self with hk | hk
      · simp only [appended, List.filter_cons, hk, decide_true, if_true, List.flatMap_cons] at hrest ⊢
        rw [hrest]
      · rw [List.flatMap_cons, hk, List.nil_append, ← hrest, appended, List.filter_cons]
        split
        · rw [List.flatMap_cons, hk, List.nil_append]
          rfl
        · rfl

theorem rows_slice (hw : Inv P w) {n len : Nat} :
    ((appended (slice P w n len)).flatMap (·.chunks)).flatMap Chunk.rows =
      rowsOf P ((w.created.drop n).take len) := by
  rw [flatMap_appended hw (fun _ _ h => h), slice, List.flatMap_map, List.flatMap_assoc, rowsOf]

theorem rowsOf_take (n len : Nat) :
    rowsOf P (w.created.take n) ++ rowsOf P ((w.created.drop n).take len) = rowsOf P (w.created.take (n + len)) := by
  rw [List.take_add, rowsOf, rowsOf, rowsOf, List.flatMap_append]

theorem walReads_of_escapes (h : Escapes P i E s) : WalReads P i c E s :=
  ⟨fun _ => h.faults _, fun _ x u hu hiu => h x u hu.quiet hiu,
    fun _ _ x u hr _ _ _ hu hiu => h x u (hr.quiet.trans hu.quiet) hiu⟩

theorem WalReads.rely (h : WalReads P i c E s) (hr : Rely P i s u) : WalReads P i c E u :=
  ⟨fun p => (h.fault p).rely hr, fun hp x v hv hiv => h.located hp x v (hr.trans hv) hiv,
    fun s' d x v hr' => h.large s' d x v (hr.trans hr')⟩

theorem indexOk_append (hw : Inv P w) {n len : Nat} {es : List SequentialBatchEntry} (h : IndexOk P w n es)
    (hn : n + len ≤ w.created.length) : IndexOk P w (n + len) (es ++ entriesIn (slice P w n len)) := by
  induction len generalizing n es with
  | zero => simpa [slice, entriesIn] using h
  | succ len ih =>
      obtain ⟨d, hd⟩ : ∃ d, w.created[n]? = some d := ⟨_, List.getElem?_eq_getElem (by omega)⟩
      have hslot := hw.slots n d hd
      have hnext : IndexOk P w (n + 1) (es ++ entriesOf (walOf P d).seq (walOf P d)) := by
        refine ⟨?_, ?_⟩
        · intro k c hk hlt id hid
          by_cases hkn : k < n
          · obtain ⟨e, he, heq⟩ := h.complete k c hk hkn id hid
            exact ⟨e, List.mem_append_left _ he, heq⟩
          · obtain rfl : k = n := by omega
            rw [hd] at hk
            cases hk
            exact ⟨_, List.mem_append_right _ (List.mem_map_of_mem hid), rfl⟩
        · intro e he
          rcases List.mem_append.mp he with he | he
          · obtain ⟨k, c, hk, hlt, hrest⟩ := h.sound e he
            exact ⟨k, c, hk, by omega, hrest⟩
          · obtain ⟨id, hid, rfl⟩ := List.mem_map.mp he
            exact ⟨n, d, hd, by omega, hslot.seq, hid, rfl, rfl⟩
      have hall := ih hnext (by omega)
      rw [slice_succ hd, entriesIn, List.flatMap_cons, ← List.append_assoc]
      rwa [Nat.add_right_comm] at hall

variable [DecidableEq ι]

theorem wpm_loadZero {f : Option SequentialWal → StoreMethod α} (hs : Inv P s) (hE : Escapes P i E s) :
    wpm (ctx P i c) (loadSequentialWal P.table P.hashes 0 >>= f) Q E s := by
  refine wpm_loadWal hs (hE.faults _) (fun x _ u hu hiu => hE x u hu.quiet hiu)
    (fun s' _ hr _ _ _ _ x u hu hiu => hE x u (hr.quiet.trans hu.quiet) hiu) (fun _ _ _ hz => absurd rfl hz) ?_
  intro s' k d _ _ _ hk
  cases hk

theorem wpm_loadSlot {n : Nat} {seq : U64} {f : Option SequentialWal → StoreMethod α} (hs : Inv P s)
    (hseq : seq = BitVec.ofNat 64 (n + 1)) (hn : n + 1 < 2 ^ 64) (hR : WalReads P i c E s)
    (hnone : ∀ s', Rely P i s s' → Inv P s' → s'.created.length ≤ n → wpm (ctx P i c) (f none) Q E s')
    (hsome : ∀ s' d, Rely P i s s' → Inv P s' → s'.created[n]? = some d →
      wpm (ctx P i c) (f (some (walOf P d))) Q E s') :
    wpm (ctx P i c) (loadSequentialWal P.table P.hashes seq >>= f) Q E s := by
  have hnat : seq.toNat = n + 1 := by rw [hseq, BitVec.toNat_ofNat, Nat.mod_eq_of_lt hn]
  have hz : seq ≠ 0 := by
    rintro rfl
    cases hnat
  refine wpm_loadWal hs (hR.fault _) ?_ ?_ ?_ ?_
  · intro x hx v hv hiv
    exact hR.located ((sequentialWalKey_error hx).resolve_left hz) x v hv hiv
  · intro s' b hr hi hf _ hl x v hv hiv
    obtain ⟨k, d, hd, _, _, rfl⟩ := hi.slot_of_file hz hf
    exact hR.large s' d x v hr hi (List.mem_of_getElem? hd) hl hv hiv
  · intro s' hr hi _ hf
    have hlt := hi.length_lt_of_none hz hf
    exact hnone s' hr hi (by omega)
  · intro s' k d hr hi hd hk _
    rw [hnat] at hk
    cases hk
    exact hsome s' d hr hi hd

theorem ofNat_succ (n : Nat) : BitVec.ofNat 64 n + 1 = BitVec.ofNat 64 (n + 1) := by
  rw [BitVec.ofNat_add]
  rfl

theorem toNat_succ (x : U64) : (x + 1).toNat = (x.toNat + 1) % 2 ^ 64 := BitVec.toNat_add x 1

theorem eq_ofNat_toNat (x : U64) : x = BitVec.ofNat 64 x.toNat := by
  rw [BitVec.ofNat_toNat, BitVec.setWidth_eq]

theorem wpm_scanWals {n m : Nat} {seq : U64} {f : Option (List SequentialBatchEntry) → StoreMethod α}
    (hs : Inv P s) (hseq : seq = BitVec.ofNat 64 (n + 1)) (hn : n < 2 ^ 64) (hE : Escapes P i E s)
    (hnone : ∀ s', Rely P i s s' → Inv P s' → wpm (ctx P i c) (f none) Q E s')
    (hsome : ∀ s', Rely P i s s' → Inv P s' → n + m ≤ s'.created.length ∨ m = 0 →
      wpm (ctx P i c) (f (some (entriesIn (slice P s' n m)))) Q E s') :
    wpm (ctx P i c) (scanWals P.table P.hashes seq m >>= f) Q E s := by
  induction m generalizing n seq s f with
  | zero =>
      have h := hsome s (Rely.refl i s) hs (.inr rfl)
      rw [slice_zero] at h
      exact h
  | succ m ih =>
      rw [scanWals, bind_assoc]
      by_cases hzero : n + 1 = 2 ^ 64
      · rw [hseq, hzero]
        exact wpm_loadZero hs hE
      refine wpm_loadSlot hs hseq (by omega) (walReads_of_escapes hE) (fun s' hr hi _ => hnone s' hr hi) ?_
      intro s' d hr hi hd
      dsimp only
      have hlt : n < s'.created.length := (List.getElem?_eq_some_iff.mp hd).1
      have hroom := hi.room
      rw [bind_assoc]
      refine ih hi (by rw [hseq, ofNat_succ]) (by omega) (hE.quiet hr.quiet) ?_ ?_
      · exact fun s'' hr' hi' => hnone s'' (hr.trans hr') hi'
      · intro s'' hr' hi' hlen
        have hd' := hr'.quiet.grow.slot hd
        have hlt' : n < s''.created.length := (List.getElem?_eq_some_iff.mp hd').1
        have h := hsome s'' (hr.trans hr') hi' (.inl (by omega))
        rw [slice_succ hd', entriesIn, List.flatMap_cons, (hi'.slots n d hd').seq, ← hseq] at h
        exact h

theorem wpm_collectWals {n m : Nat} {seq : U64} {f : List SequentialWal → StoreMethod α} (hs : Inv P s)
    (hseq : seq = BitVec.ofNat 64 n) (hn : n + m < 2 ^ 64) (hR : WalReads P i c E s)
    (h : ∀ s' len, Rely P i s s' → Inv P s' → len ≤ m → n + len ≤ s'.created.length ∨ len = 0 →
      wpm (ctx P i c) (f (slice P s' n len)) Q E s') :
    wpm (ctx P i c) (collectWals P.table P.hashes seq m >>= f) Q E s := by
  induction m generalizing n seq s f with
  | zero => exact h s 0 (Rely.refl i s) hs (Nat.le_refl _) (.inr rfl)
  | succ m ih =>
      rw [collectWals, bind_assoc]
      refine wpm_loadSlot hs (by rw [hseq, ofNat_succ]) (by omega) hR ?_ ?_
      · exact fun s' hr hi _ => h s' 0 hr hi (Nat.zero_le _) (.inr rfl)
      · intro s' d hr hi hd
        dsimp only
        rw [bind_assoc]
        refine ih hi (by rw [hseq, ofNat_succ]) (by omega) (hR.rely hr) ?_
        intro s'' len hr' hi' hle hlen
        have hd' := hr'.quiet.grow.slot hd
        have hlt : n < s''.created.length := (List.getElem?_eq_some_iff.mp hd').1
        have h := h s'' (len + 1) (hr.trans hr') hi' (by omega) (.inl (by omega))
        rwa [slice_succ hd'] at h

theorem wpm_requiredWals {n m : Nat} {seq : U64} {f : Option (List SequentialWal) → StoreMethod α}
    (hs : Inv P s) (hseq : seq = BitVec.ofNat 64 n) (hn : n + m ≤ s.created.length) (hR : WalReads P i c E s)
    (h : ∀ s', Rely P i s s' → Inv P s' → wpm (ctx P i c) (f (some (slice P s' n m))) Q E s') :
    wpm (ctx P i c) (requiredWals P.table P.hashes seq m >>= f) Q E s := by
  induction m generalizing n seq s f with
  | zero => exact h s (Rely.refl i s) hs
  | succ m ih =>
      have hroom := hs.room
      rw [requiredWals, bind_assoc]
      refine wpm_loadSlot hs (by rw [hseq, ofNat_succ]) (by omega) hR ?_ ?_
      · intro s' hr _ hle
        have hlen := hr.quiet.grow.length
        omega
      · intro s' d hr hi hd
        have hlen := hr.quiet.grow.length
        dsimp only
        rw [bind_assoc]
        refine ih hi (by rw [hseq, ofNat_succ]) (by omega) (hR.rely hr) ?_
        intro s'' hr' hi'
        have h := h s'' (hr.trans hr') hi'
        rwa [slice_succ (hr'.quiet.grow.slot hd)] at h

end DBPlayground.LogReads
