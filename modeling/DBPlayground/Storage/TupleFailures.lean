import DBPlayground.Storage.TupleRuns

namespace DBPlayground.Storage

open ByteReader Machine

/-- Pages in a pool that may be short of frames: `fetchable` says which pages can
be fetched during the call, and `alloc` whether a page can be allocated. -/
def PageStore.serve {α : Type} [Overlay α] (fetchable : PageId → Bool) (alloc : Bool) :
    Handler (PoolOp α) PoolOp.Ans (PageStore α)
  | .newPage, s => if alloc then PageStore.handler .newPage s else some (none, s)
  | .fetchPage p, s => some (fetchable p, s)
  | o, s => PageStore.handler o s

namespace TupleStore

open ValuePage PageStore

open PageM (ends_fetch ends_defined ends_getValuePage)

variable {K V : Type} {s t : PageStore (PageData K V)} {dir : Directory} {rid : RID} {value b : Bytes} {p : PageId}
  {F : PageId → Bool} {A : Bool} {β : Type} {r : Except Abort β} {v : ValuePage}

theorem fetch_throws {f : Unit → PageM (PageData K V) β} (hp : F p = false) :
    Ends (serve F A) (PageM.fetch p >>= f) s (.error .undefined) s := by
  unfold PageM.fetch
  rw [bind_assoc]
  refine ends_perform (x := false) (congrArg (fun x => some (x, s)) hp) ?_
  rfl

theorem ends_getValuePage_zero {f : ValuePage → PageM (PageData K V) β} (hv : s.pages p = .zero)
    (hf : Ends (serve F A) (f .zero) s r t) :
    Ends (serve F A) (PageM.getValuePage p >>= f) s r t := by
  unfold PageM.getValuePage
  rw [bind_assoc]
  refine ends_perform rfl ?_
  rw [hv]
  exact hf

/-- A page at which the walk along the chain ends: it cannot be fetched, or has
room. -/
def Stops (fetchable : PageId → Bool) (s : PageStore (PageData K V)) (need : Nat) (p : PageId) : Prop :=
  fetchable p = false ∨ ∃ v, s.pages p = .value v ∧ need ≤ v.freeSpace.toNat

section walk

variable {slots : PageId → List (Option Bytes)} {ids : List PageId} {need fuel : Nat}

theorem ends_walk_step {x : Except Abort (Option PageId)} (hp : p ≠ invalidPageId) (hv : s.pages p = .value v)
    (hstop : ¬ Stops F s need p)
    (hrest : Ends (serve F A) (findPageWithSpace need fuel v.nextPageId) s x t) :
    Ends (serve F A) (findPageWithSpace need (fuel + 1) p) s x t := by
  obtain ⟨hf, hroom⟩ := not_or.mp hstop
  rw [findPageWithSpace, if_neg hp]
  refine ends_fetch rfl (Bool.eq_true_of_not_eq_false hf) (ends_getValuePage rfl hv ?_)
  rw [if_neg fun hn => hroom ⟨v, hv, hn⟩]
  exact ends_perform rfl hrest

theorem ends_walk_none (hch : Chained s.pages slots p ids) (hr : ∀ q ∈ ids, 0 ≤ q)
    (hstop : ∀ q ∈ ids, ¬ Stops F s need q) (hf : ids.length < fuel) :
    Ends (serve F A) (findPageWithSpace need fuel p) s (.ok none) s := by
  induction ids generalizing p fuel with
  | nil =>
      obtain ⟨fuel, rfl⟩ := Nat.exists_eq_add_one_of_ne_zero (Nat.ne_of_gt hf)
      rw [findPageWithSpace, if_pos (show p = invalidPageId from hch)]
      exact ends_pure
  | cons q rest ih =>
      obtain ⟨fuel, rfl⟩ := Nat.exists_eq_add_one_of_ne_zero (Nat.ne_of_gt (Nat.zero_lt_of_lt hf))
      obtain ⟨rfl, v, hv, _, hrest⟩ := hch
      refine ends_walk_step ?_ hv (hstop p List.mem_cons_self) (ih hrest (fun q hq => hr q (List.mem_cons_of_mem p hq))
        (fun q hq => hstop q (List.mem_cons_of_mem p hq)) (Nat.lt_of_succ_lt_succ hf))
      rintro rfl
      exact absurd (hr _ List.mem_cons_self) (by decide)

theorem ends_walk_stops (hch : Chained s.pages slots p ids) (hr : ∀ q ∈ ids, 0 ≤ q)
    (hstop : ∃ q ∈ ids, Stops F s need q) (hf : ids.length < fuel) :
    Ends (serve F A) (findPageWithSpace need fuel p) s (.error .undefined) s ∨
      ∃ q ∈ ids, ∃ v, s.pages q = .value v ∧ need ≤ v.freeSpace.toNat ∧
        Ends (serve F A) (findPageWithSpace need fuel p) s (.ok (some q)) s := by
  induction ids generalizing p fuel with
  | nil =>
      obtain ⟨q, hq, _⟩ := hstop
      cases hq
  | cons q rest ih =>
      obtain ⟨fuel, rfl⟩ := Nat.exists_eq_add_one_of_ne_zero (Nat.ne_of_gt (Nat.zero_lt_of_lt hf))
      obtain ⟨rfl, v, hv, _, hrest⟩ := hch
      have hne : p ≠ invalidPageId := by
        rintro rfl
        exact absurd (hr _ List.mem_cons_self) (by decide)
      by_cases hp : Stops F s need p
      · rw [findPageWithSpace, if_neg hne]
        cases hfp : F p with
        | false => exact .inl (fetch_throws hfp)
        | true =>
            obtain hp | ⟨v', hv', hroom⟩ := hp
            · rw [hfp] at hp
              cases hp
            · refine .inr ⟨p, List.mem_cons_self, v', hv', hroom, ends_fetch rfl hfp (ends_getValuePage rfl hv' ?_)⟩
              rw [if_pos hroom]
              exact ends_pure
      · have hstop' : ∃ q ∈ rest, Stops F s need q := by
          obtain ⟨q, hq, hs⟩ := hstop
          rcases List.mem_cons.mp hq with rfl | hq
          · exact absurd hs hp
          · exact ⟨q, hq, hs⟩
        rcases ih hrest (fun q hq => hr q (List.mem_cons_of_mem p hq)) hstop' (Nat.lt_of_succ_lt_succ hf) with h | h
        · exact .inl (ends_walk_step hne hv hp h)
        · obtain ⟨q, hq, w, hw, hroom, h⟩ := h
          exact .inr ⟨q, List.mem_cons_of_mem p hq, w, hw, hroom, ends_walk_step hne hv hp h⟩

end walk

section calls

variable {fuel : Nat}

theorem Stored.nonneg (hs : Stored s dir) : ∀ q ∈ dir.ids, 0 ≤ q := fun q hq => (hs.range q hq).1

theorem ends_put_on {slots : List (Option Bytes)} (hv : s.pages p = .value v) (hslot : v.Slotted slots)
    (hfit : v.Fits value) :
    Ends (serve F A) (do
        let page ← PageM.getValuePage p
        let (idx, page) ← PageM.defined (page.put value)
        PageM.setData p (.value page)
        PageM.unpinPage p true
        pure (⟨p, idx⟩ : RID)) s (.ok ⟨p, BitVec.ofNat 32 slots.length⟩) (s.write p (.value (v.added value))) := by
  refine ends_getValuePage rfl hv (ends_defined (hslot.put hfit) ?_)
  exact ends_perform rfl (ends_perform rfl ends_pure)

variable (F A) in
theorem put_settles (hs : Stored s dir) (hv : value.length ≤ maxValueSize)
    (hroom : A = true ∨ ∃ q ∈ dir.ids, Stops F s (valueSlotSize + value.length) q) (hf : dir.ids.length < fuel) :
    Ends (serve F A) (put fuel value) s (.error .undefined) s ∨
      ∃ rid t, Ends (serve F A) (put fuel value) s (.ok rid) t := by
  rw [put, if_neg (Nat.not_lt.mpr hv), findOrCreatePageWithSpace, bind_assoc]
  by_cases hstop : ∃ q ∈ dir.ids, Stops F s (valueSlotSize + value.length) q
  · rcases ends_walk_stops (A := A) hs.chained hs.nonneg hstop hf with h | ⟨q, hq, v, hdata, hneed, h⟩
    · exact .inl (ends_perform rfl (Ends.throw (Ends.throw h)))
    · obtain ⟨v', hdata', hslot⟩ := hs.page hq
      obtain rfl : v = v' := PageData.value.inj (hdata.symm.trans hdata')
      refine .inr ⟨⟨q, BitVec.ofNat 32 (dir.slots q).length⟩, s.write q (.value (v.added value)), ends_perform rfl ?_⟩
      rw [bind_assoc]
      exact h.bind (ends_put_on hdata hslot ⟨hv, hneed⟩)
  · obtain rfl : A = true := hroom.resolve_right hstop
    have h := ends_walk_none (A := true) hs.chained hs.nonneg (fun q hq hp => hstop ⟨q, hq, hp⟩) hf
    let page := ValuePage.zero.init (s.members .firstPageId)
    have hinit : page.Slotted [] := slotted_init List.length_replicate
    let u := ((s.alloc .zero).write s.nextPageId (.value page)).setMember .firstPageId s.nextPageId
    refine .inr ⟨⟨s.nextPageId, 0⟩, u.write s.nextPageId (.value (page.added value)), ends_perform rfl ?_⟩
    rw [bind_assoc]
    refine h.bind ?_
    dsimp only
    rw [bind_assoc]
    refine ends_perform rfl ?_
    dsimp only
    rw [bind_assoc]
    refine ends_getValuePage_zero (Function.update_self ..) ?_
    rw [bind_assoc]
    refine ends_perform rfl ?_
    rw [bind_assoc]
    refine ends_perform rfl ?_
    rw [pure_bind]
    exact ends_put_on (Function.update_self ..) hinit (fits_zero hv _)

theorem put_large (hv : maxValueSize < value.length) : Ends (serve F A) (put fuel value) s
    (.error (.threw (.runtimeError "TupleStore: value too large for a single page"))) s := by
  rw [put, if_pos hv]
  rfl

theorem put_full (hs : Stored s dir) (hv : value.length ≤ maxValueSize)
    (hstop : ∀ q ∈ dir.ids, ¬ Stops F s (valueSlotSize + value.length) q) (hf : dir.ids.length < fuel) :
    Ends (serve F false) (put fuel value) s
      (.error (.threw (.runtimeError "TupleStore: buffer pool full, cannot allocate value page"))) s := by
  rw [put, if_neg (Nat.not_lt.mpr hv), findOrCreatePageWithSpace, bind_assoc]
  refine ends_perform rfl ?_
  rw [bind_assoc]
  refine (ends_walk_none hs.chained hs.nonneg hstop hf).bind ?_
  dsimp only
  rw [bind_assoc]
  exact ends_perform rfl rfl

variable (value F A) in
theorem put_throws (hs : Stored s dir)
    (h : maxValueSize < value.length ∨ A = false ∧ ∀ q ∈ dir.ids, ¬ Stops F s (valueSlotSize + value.length) q) :
    ∃ e, ∀ fuel, dir.ids.length < fuel → Ends (serve F A) (put fuel value) s (.error (.threw e)) s := by
  by_cases hv : maxValueSize < value.length
  · exact ⟨_, fun fuel _ => put_large hv⟩
  · obtain ⟨rfl, hstop⟩ := h.resolve_left hv
    exact ⟨_, fun fuel hf => put_full hs (Nat.le_of_not_lt hv) hstop hf⟩

theorem put_ends (hs : Stored s dir) (value : Bytes) (hf : dir.ids.length < fuel) :
    ∃ r t, Ends (serve F A) (put fuel value) s r t ∧ ∀ e, r = .error (.threw e) → t = s := by
  by_cases hv : value.length ≤ maxValueSize ∧ (A = true ∨ ∃ q ∈ dir.ids, Stops F s (valueSlotSize + value.length) q)
  · rcases put_settles F A hs hv.1 hv.2 hf with h | ⟨rid, t, h⟩
    · exact ⟨_, s, h, fun _ _ => rfl⟩
    · exact ⟨_, t, h, fun e => nofun⟩
  · obtain ⟨e, he⟩ := put_throws value F A hs (by
      by_cases hlen : value.length ≤ maxValueSize
      · have hno := not_or.mp fun h => hv ⟨hlen, h⟩
        exact .inr ⟨Bool.eq_false_of_not_eq_true hno.1, fun q hq hp => hno.2 ⟨q, hq, hp⟩⟩
      · exact .inl (Nat.lt_of_not_le hlen))
    exact ⟨_, s, he fuel hf, fun _ _ => rfl⟩

theorem ends_delete (hs : Stored s dir) (hb : dir.content rid = some b) (hp : F rid.pageId = true) :
    ∃ t, Ends (serve F A) (delete rid) s (.ok true) t ∧ Stored t (dir.change rid none) ∧
      ∀ q need, Stops F t need q ↔ Stops F s need q := by
  have hget := Directory.getElem_of_content hb
  obtain ⟨hi, _⟩ := List.getElem?_eq_some_iff.mp hget
  have hmem := hs.rests.issued hi
  obtain ⟨v, hdata, hslot⟩ := hs.page hmem
  have hdel : v.delete rid.slotNum = some (true, v.removed rid.slotNum.toNat) := by
    rw [hslot.delete, show ((dir.slots rid.pageId)[rid.slotNum.toNat]?).join = some b from hb]
    rfl
  refine ⟨s.write rid.pageId (.value (v.removed rid.slotNum.toNat)), ?_, ?_, ?_⟩
  · refine ends_perform (x := true) (congrArg (fun x => some (x, s)) hp) ?_
    rw [if_pos rfl]
    refine ends_getValuePage rfl hdata (ends_defined hdel ?_)
    exact ends_perform rfl (ends_perform rfl ends_pure)
  · refine hs.write hmem hdata (hslot.remove hi) rfl ?_
    rw [← List.length_pos_iff, List.length_set]
    exact Nat.zero_lt_of_lt hi
  · intro q need
    refine or_congr_right ?_
    by_cases hq : q = rid.pageId
    · subst hq
      constructor
      · rintro ⟨w, hw, hroom⟩
        obtain rfl := PageData.value.inj ((Function.update_self rid.pageId _ s.pages).symm.trans hw)
        exact ⟨v, hdata, hroom⟩
      · rintro ⟨w, hw, hroom⟩
        obtain rfl : v = w := PageData.value.inj (hdata.symm.trans hw)
        exact ⟨_, Function.update_self .., hroom⟩
    · rw [show (s.write rid.pageId (.value (v.removed rid.slotNum.toNat))).pages q = s.pages q from
        Function.update_of_ne hq ..]

theorem ends_update_unfetched {x : Except Abort RID} (hp : F rid.pageId = false)
    (hput : Ends (serve F A) (put fuel value) s x t) : Ends (serve F A) (update fuel rid value) s x t := by
  have hdel : Ends (serve F A) (delete rid) s (.ok false) s :=
    ends_perform (x := false) (congrArg (fun x => some (x, s)) hp) ends_pure
  refine ends_perform (x := false) (congrArg (fun x => some (x, s)) hp) ?_
  exact hdel.bind hput

theorem ends_update_moves {x : Except Abort RID} {u : PageStore (PageData K V)} (hs : Stored s dir)
    (hb : dir.content rid = some b) (hle : b.length < value.length) (hp : F rid.pageId = true)
    (hdel : Ends (serve F A) (delete rid) s (.ok true) u) (hput : Ends (serve F A) (put fuel value) u x t) :
    Ends (serve F A) (update fuel rid value) s x t := by
  have hget := Directory.getElem_of_content hb
  obtain ⟨v, hdata, hslot⟩ := hs.page (hs.rests.issued (List.getElem?_eq_some_iff.mp hget).1)
  have hgrows : v.update rid.slotNum value = some none := by
    refine hslot.update_grows fun c hc => ?_
    obtain rfl : b = c := Option.some.inj (hb.symm.trans hc)
    exact hle
  refine ends_perform (x := true) (congrArg (fun x => some (x, s)) hp) ?_
  rw [if_pos rfl]
  refine ends_getValuePage rfl hdata (ends_defined hgrows (ends_perform rfl ?_))
  exact hdel.bind hput

variable (A fuel) in
theorem ends_update_fits (hs : Stored s dir) (hb : dir.content rid = some b) (hle : value.length ≤ b.length)
    (hp : F rid.pageId = true) : ∃ t, Ends (serve F A) (update fuel rid value) s (.ok rid) t := by
  have hget := Directory.getElem_of_content hb
  obtain ⟨v, hdata, hslot⟩ := hs.page (hs.rests.issued (List.getElem?_eq_some_iff.mp hget).1)
  refine ⟨s.write rid.pageId (.value (v.overwritten rid.slotNum.toNat value)), ?_⟩
  refine ends_perform (x := true) (congrArg (fun x => some (x, s)) hp) ?_
  rw [if_pos rfl]
  refine ends_getValuePage rfl hdata (ends_defined (hslot.update_fits hget hle) ?_)
  exact ends_perform rfl (ends_perform rfl ends_pure)

end calls

def Fails (fetchable : PageId → Bool) (alloc : Bool) (m : Nat → PageM (PageData K V) β) (s : PageStore (PageData K V))
    (e : Table.Exn) (s' : PageStore (PageData K V)) : Prop :=
  ∃ n, ∀ fuel, n ≤ fuel → Throws (serve fetchable alloc) (m fuel) s (.threw e) s'

theorem Fails.eq {m : Nat → PageM (PageData K V) β} {e : Table.Exn} {n : Nat} (h : Fails F A m s e t)
    (hm : ∀ fuel, n ≤ fuel → ∃ r u, Ends (serve F A) (m fuel) s r u ∧ ∀ e, r = .error (.threw e) → u = s) : t = s := by
  obtain ⟨k, hk⟩ := h
  obtain ⟨r, u, hu, hs⟩ := hm (max n k) (Nat.le_max_left ..)
  obtain ⟨rfl, rfl⟩ := Prod.mk.inj (Option.some.inj ((hk (max n k) (Nat.le_max_right ..)).symm.trans hu))
  exact hs e rfl

variable {a : ByteHeap}

theorem Refines.stops_iff (h : Refines s a dir) {need : Nat} :
    (∃ q ∈ dir.ids, Stops F s need q) ↔ ∃ r ∈ a.issued, Stops F s need r.pageId := by
  constructor
  · rintro ⟨q, hq, hstop⟩
    refine ⟨⟨q, 0⟩, (h.issued _).mpr ?_, hstop⟩
    exact List.length_pos_iff.mpr (h.stored.used q hq)
  · rintro ⟨r, hr, hstop⟩
    exact ⟨r.pageId, h.stored.rests.issued ((h.issued r).mp hr), hstop⟩

theorem returns_get_deleted (hi : dir.Issued rid) (ht : Stored t (dir.change rid none)) :
    Returns PageStore.handler (get rid) t none t := by
  have hnone := returns_get ht (Directory.issued_change.mpr hi)
  rwa [Directory.content_change hi, Function.update_self] at hnone

theorem run_two_bytes : ∃ (s : PageStore (PageData Unit Unit)) (a : ByteHeap) (rid : RID), Run s a ∧
    rid ∈ a.issued ∧ a.content rid = some [1, 2] := by
  have h₀ : Run (newStore : PageStore (PageData Unit Unit)) .empty := .start _ (Int.le_refl 0) rfl
  obtain ⟨dir, hd⟩ := h₀.refines
  have hv : ([1, 2] : Bytes).length ≤ maxValueSize := by decide
  obtain ⟨p, s, hput, _⟩ := computes_put hd.stored hv
  exact ⟨s, _, _, h₀.put hv hput, List.mem_cons_self, Function.update_self ..⟩

theorem large_value : ∃ big : Bytes, List.replicate 16365 0 = big ∧ maxValueSize < big.length :=
  ⟨_, rfl, by rw [List.length_replicate]; decide⟩

/-- A failing `Update` keeps every value exactly if it threw before it deleted the
old one, or does not throw at all: the page of the RID could not be fetched, the
value fits in place, or it fits a page that is found or can be allocated. -/
theorem failing_update_keeps_iff (h : Refines s a dir) (hb : a.content rid = some b) :
    (∀ e s', Fails F A (update · rid value) s e s' → Reads s' a) ↔
      F rid.pageId = false ∨ value.length ≤ b.length ∨ value.length ≤ maxValueSize ∧
        (A = true ∨ ∃ r ∈ a.issued, Stops F s (valueSlotSize + value.length) r.pageId) := by
  rw [← h.stops_iff]
  rw [h.content] at hb
  have hi : dir.Issued rid := (List.getElem?_eq_some_iff.mp (Directory.getElem_of_content hb)).1
  constructor
  · intro hkeeps
    by_contra hcond
    obtain ⟨hfetch, hlt, hroom⟩ : F rid.pageId = true ∧ b.length < value.length ∧
        (maxValueSize < value.length ∨ A = false ∧ ∀ q ∈ dir.ids, ¬ Stops F s (valueSlotSize + value.length) q) := by
      grind
    obtain ⟨t, hdel, ht, hsame⟩ := ends_delete (A := A) h.stored hb hfetch
    have hids := Directory.change_ids (x := none) (h.stored.rests.issued hi)
    obtain ⟨e, he⟩ := put_throws value F A ht (by simpa only [hids, hsame] using hroom)
    have hfails : Fails F A (update · rid value) s e t :=
      ⟨_, fun fuel hf => ends_update_moves h.stored hb hlt hfetch hdel (he fuel hf)⟩
    have hget := hkeeps e t hfails rid ((h.issued rid).mpr hi)
    rw [h.content, hb] at hget
    cases (hget.unique (returns_get_deleted hi ht)).1
  · intro hcond e s' he
    have hs' : s' = s := by
      refine he.eq (n := dir.ids.length + 1) fun fuel hf => ?_
      cases hfetch : F rid.pageId with
      | false =>
          obtain ⟨r, u, hput, hu⟩ := put_ends (F := F) (A := A) h.stored value hf
          exact ⟨r, u, ends_update_unfetched hfetch hput, hu⟩
      | true =>
          by_cases hle : value.length ≤ b.length
          · obtain ⟨u, hu⟩ := ends_update_fits A fuel h.stored hb hle hfetch
            exact ⟨_, u, hu, fun e => nofun⟩
          · obtain ⟨hv, hroom⟩ := (hcond.resolve_left (by rw [hfetch]; nofun)).resolve_left hle
            obtain ⟨t, hdel, ht, hsame⟩ := ends_delete (A := A) h.stored hb hfetch
            have hids := Directory.change_ids (x := none) (h.stored.rests.issued hi)
            have hlen : (dir.change rid none).ids.length < fuel := hids ▸ hf
            rcases put_settles F A ht hv (by simpa only [hids, hsame] using hroom) hlen with hput | ⟨r, u, hput⟩
            · exact ⟨_, t, ends_update_moves h.stored hb (Nat.lt_of_not_le hle) hfetch hdel hput, fun e => nofun⟩
            · exact ⟨_, u, ends_update_moves h.stored hb (Nat.lt_of_not_le hle) hfetch hdel hput, fun e => nofun⟩
    rw [hs']
    exact h.reads

/-- If the page of the value cannot be fetched, the same call throws and keeps it. -/
theorem failing_update_keeps_two : ∃ (s s' : PageStore (PageData Unit Unit)) (a : ByteHeap) (rid : RID),
    rid ∈ a.issued ∧ a.content rid = some [1, 2] ∧
      Fails (fun _ => false) true (update · rid (List.replicate 16365 0)) s
        (.runtimeError "TupleStore: value too large for a single page") s' ∧ Reads s' a := by
  obtain ⟨s, a, rid, h, hi, hb⟩ := run_two_bytes
  obtain ⟨dir, hd⟩ := h.refines
  obtain ⟨big, hbig, hlarge⟩ := large_value
  rw [hbig]
  have hfails : Fails (fun _ => false) true (update · rid big) s _ s :=
    ⟨0, fun fuel _ => ends_update_unfetched rfl (put_large hlarge)⟩
  exact ⟨s, s, a, rid, hi, hb, hfails, (failing_update_keeps_iff hd hb).mpr (.inl rfl) _ s hfails⟩

variable (F A) in
theorem large_update_loses (h : Refines s a dir) (hb : a.content rid = some b) (hlt : b.length < value.length)
    (hlarge : maxValueSize < value.length) (hp : F rid.pageId = true) : ∃ t,
    Fails F A (update · rid value) s (.runtimeError "TupleStore: value too large for a single page") t ∧
      Returns PageStore.handler (get rid) t none t := by
  rw [h.content] at hb
  obtain ⟨t, hdel, ht, _⟩ := ends_delete (A := A) h.stored hb hp
  refine ⟨t, ⟨0, fun fuel _ => ends_update_moves h.stored hb hlt hp hdel (put_large hlarge)⟩, ?_⟩
  exact returns_get_deleted (List.getElem?_eq_some_iff.mp (Directory.getElem_of_content hb)).1 ht

theorem failing_update_loses : ∃ (s t : PageStore (PageData Unit Unit)) (a : ByteHeap) (rid : RID),
    Run s a ∧ rid ∈ a.issued ∧ Returns PageStore.handler (get rid) s (some [1, 2]) s ∧
      Fails (fun _ => true) true (update · rid (List.replicate 16365 0)) s
        (.runtimeError "TupleStore: value too large for a single page") t ∧
      Returns PageStore.handler (get rid) t none t := by
  obtain ⟨s, a, rid, h, hi, hb⟩ := run_two_bytes
  obtain ⟨dir, hd⟩ := h.refines
  obtain ⟨big, hbig, hlarge⟩ := large_value
  rw [hbig]
  have hlt : [1, 2].length < big.length := Nat.lt_trans (by decide) hlarge
  obtain ⟨t, hfails, hget⟩ := large_update_loses (fun _ => true) true hd hb hlt hlarge rfl
  exact ⟨s, t, a, rid, h, hi, hb ▸ hd.reads rid hi, hfails, hget⟩

end TupleStore

end DBPlayground.Storage
