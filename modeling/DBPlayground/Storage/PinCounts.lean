import DBPlayground.Storage.TreeCalls

namespace DBPlayground.Storage

open Machine Footprint Program

/-- The pages of a pool that may run out of frames, with the pins on them and the
number of calls of `NewPage` so far. -/
structure PinnedStore (α : Type) where
  store : PageStore α
  pins : Multiset PageId
  newPages : Nat

namespace PinnedStore

/-- The calls of `NewPage` are numbered, and `fails` says which of them find no frame;
every fetch succeeds. Pages have no end here. -/
def handler {α : Type} [Inhabited α] (fails : Nat → Bool) : Handler (PoolOp α) PoolOp.Ans (PinnedStore α)
  | .newPage, s =>
    if fails s.newPages then some (none, { s with newPages := s.newPages + 1 })
    else (PageStore.plain .newPage s.store).map fun y =>
      (y.1, ⟨y.2, {s.store.nextPageId} + s.pins, s.newPages + 1⟩)
  | .fetchPage p, s => some (true, { s with pins := {p} + s.pins })
  | .unpinPage p _, s => some ((), { s with pins := s.pins.erase p })
  | .deletePage p, s =>
    (PageStore.plain (.deletePage p) s.store).map fun y => (y.1, { s with store := y.2, pins := s.pins.filter (· ≠ p) })
  | o, s => (PageStore.plain o s.store).map fun y => (y.1, { s with store := y.2 })

variable {K V : Type}

def movesPins {α : Type} : PoolOp α → Bool
  | .newPage | .fetchPage _ | .unpinPage _ _ | .deletePage _ => true
  | _ => false

theorem handler_of_calm {α : Type} [Inhabited α] {fails : Nat → Bool} {o : PoolOp α} (ho : movesPins o = false)
    (s : PinnedStore α) : handler fails o s = (PageStore.plain o s.store).map fun y => (y.1, { s with store := y.2 }) := by
  cases o <;> first | rfl | cases ho

theorem heap_of_calm {α : Type} [Inhabited α] {o : PoolOp α} {h h' : Heap α} {r : o.Ans} (hc : movesPins o = false)
    (ho : Heap.handler o h = some (r, h')) : h'.pins = h.pins ∧ h'.dead = h.dead ∧ h'.nextPageId = h.nextPageId := by
  cases o with
  | newPage | fetchPage | unpinPage | deletePage => cases hc
  | unlatch | pageSetSize | pageSetUnlatch | lockRoot | unlockRoot | getMember | setMember =>
      cases ho
      exact ⟨rfl, rfl, rfl⟩
  | latch | getData | setData | newTransaction | addIntoPageSet | clearPageSet =>
      simp only [Heap.handler] at ho
      split at ho
      · cases ho
        exact ⟨rfl, rfl, rfl⟩
      · cases ho
  | pageSetPageId i =>
      obtain ⟨q, _, hq⟩ := Option.bind_eq_some_iff.mp ho
      split at hq
      · cases hq
        exact ⟨rfl, rfl, rfl⟩
      · cases hq

/-- A heap with a count of the calls of `NewPage`, and what the pool shows of it. -/
structure Mirrors (x : Heap (PageData K V) × Nat) (s : PinnedStore (PageData K V)) : Prop where
  store : s.store = x.1.erase
  newPages : s.newPages = x.2
  pins : ∀ p, x.1.dead p = false → s.pins.count p = x.1.pins p
  range : ∀ p ∈ s.pins, p < x.1.nextPageId

namespace Mirrors

variable {h : Heap (PageData K V)} {i : Nat} {store : PageStore (PageData K V)} {pins : Multiset PageId} {p : PageId}

theorem create {n : Nat} (hm : Mirrors (h, i) ⟨store, pins, n⟩) :
    Mirrors (Heap.observe h h.create .newPage (some h.nextPageId), i + 1)
      ⟨h.create.erase, {h.nextPageId} + pins, i + 1⟩ where
  store := rfl
  newPages := rfl
  pins q hq := by
    show ({h.nextPageId} + pins).count q = Function.update h.pins h.nextPageId 1 q
    rw [Multiset.count_add, Multiset.count_singleton]
    by_cases hqn : q = h.nextPageId
    · have hnot : h.nextPageId ∉ pins := fun hmem => Int.lt_irrefl _ (hm.range _ hmem)
      rw [hqn, Function.update_self, if_pos rfl, Multiset.count_eq_zero_of_notMem hnot]
    · change Function.update h.dead h.nextPageId false q = false at hq
      rw [Function.update_of_ne hqn] at hq ⊢
      rw [if_neg hqn, Nat.zero_add]
      exact hm.pins q hq
  range q hq := by
    rcases Multiset.mem_add.mp hq with hq | hq
    · obtain rfl := Multiset.mem_singleton.mp hq
      exact Int.lt_succ _
    · exact Int.lt_trans (hm.range q hq) (Int.lt_succ _)

theorem pin {n : Nat} (hm : Mirrors (h, i) ⟨store, pins, n⟩) (hp : h.Live p) :
    Mirrors (h.pin p, i) ⟨store, {p} + pins, n⟩ where
  store := hm.store
  newPages := hm.newPages
  pins q hq := by
    show ({p} + pins).count q = Function.update h.pins p (h.pins p + 1) q
    have hc : pins.count q = h.pins q := hm.pins q hq
    rw [Multiset.count_add, Multiset.count_singleton, hc]
    by_cases hqp : q = p
    · subst hqp
      rw [Function.update_self, if_pos rfl, Nat.add_comm]
    · rw [Function.update_of_ne hqp, if_neg hqp, Nat.zero_add]
  range q hq := by
    rcases Multiset.mem_add.mp hq with hq | hq
    · obtain rfl := Multiset.mem_singleton.mp hq
      exact hp.2.1
    · exact hm.range q hq

theorem unpin {n : Nat} (hm : Mirrors (h, i) ⟨store, pins, n⟩) :
    Mirrors (if h.Held p then h.unpin p else h, i) ⟨store, pins.erase p, n⟩ := by
  have hrange : ∀ q ∈ pins.erase p, q < h.nextPageId := fun q hq => hm.range q (Multiset.mem_of_mem_erase hq)
  split
  · refine ⟨hm.store, hm.newPages, fun q hq => ?_, hrange⟩
    show (pins.erase p).count q = Function.update h.pins p (h.pins p - 1) q
    have hc : pins.count q = h.pins q := hm.pins q hq
    by_cases hqp : q = p
    · subst hqp
      rw [Function.update_self, Multiset.count_erase_self, hc]
    · rw [Function.update_of_ne hqp, Multiset.count_erase_of_ne hqp, hc]
  · next hheld =>
      refine ⟨hm.store, hm.newPages, fun q hq => ?_, hrange⟩
      show (pins.erase p).count q = h.pins q
      have hc : pins.count q = h.pins q := hm.pins q hq
      by_cases hqp : q = p
      · subst hqp
        have hzero : h.pins q = 0 := Nat.eq_zero_of_not_pos fun hpos => hheld ⟨hq, hpos⟩
        rw [Multiset.count_erase_self, hc, hzero]
      · rw [Multiset.count_erase_of_ne hqp, hc]

theorem delete {n : Nat} (hm : Mirrors (h, i) ⟨store, pins, n⟩) :
    Mirrors (h.delete p, i) ⟨(h.delete p).erase, pins.filter (· ≠ p), n⟩ where
  store := rfl
  newPages := hm.newPages
  pins q hq := by
    change Function.update h.dead p true q = false at hq
    have hqp : q ≠ p := by
      rintro rfl
      rw [Function.update_self] at hq
      cases hq
    rw [Function.update_of_ne hqp] at hq
    exact (Multiset.count_filter_of_pos (p := (· ≠ p)) hqp).trans (hm.pins q hq)
  range q hq := hm.range q (Multiset.mem_of_mem_filter hq)

end Mirrors

theorem mirrors_request {o : PoolOp (PageData K V)} {h h' : Heap (PageData K V)} {i : Nat} {r : o.Ans}
    {s : PinnedStore (PageData K V)} {fails : Nat → Bool} (hne : o ≠ .newPage) (hm : Mirrors (h, i) s)
    (ho : Heap.handler o h = some (r, h')) : ∃ y, handler fails o s = some (r, y) ∧ Mirrors (h', i) y := by
  obtain ⟨store, pins, n⟩ := s
  obtain rfl : store = h.erase := hm.store
  cases o with
  | newPage => exact absurd rfl hne
  | fetchPage p =>
      simp only [Heap.handler] at ho
      split at ho
      · next hlive =>
          cases ho
          exact ⟨_, rfl, hm.pin hlive⟩
      · cases ho
  | unpinPage p d =>
      simp only [Heap.handler] at ho
      have hu := hm.unpin (p := p)
      split at ho
      · next hheld =>
          rw [if_pos hheld] at hu
          split at ho
          · cases ho
          · cases ho
            exact ⟨_, rfl, hu⟩
      · next hheld =>
          rw [if_neg hheld] at hu
          cases ho
          exact ⟨_, rfl, hu⟩
  | deletePage p =>
      simp only [Heap.handler] at ho
      split at ho
      · cases ho
        exact ⟨_, rfl, hm.delete⟩
      · cases ho
  | getData | setData | latch | unlatch | newTransaction | addIntoPageSet | pageSetSize | pageSetPageId | pageSetUnlatch
    | clearPageSet | lockRoot | unlockRoot | getMember | setMember =>
      obtain ⟨_, hs, rfl⟩ := Heap.simulates_erase _ h _ r h' rfl ho
      obtain ⟨hpins, hdead, hnext⟩ := heap_of_calm rfl ho
      refine ⟨⟨h'.erase, pins, n⟩, (handler_of_calm rfl _).trans (congrArg (Option.map _) hs), rfl, hm.newPages, ?_, ?_⟩
      · intro q hq
        exact (hm.pins q (hdead ▸ hq)).trans (congrFun hpins q).symm
      · intro q hq
        exact hnext ▸ hm.range q hq

theorem simulates_pins (F : Regime K V) : Simulates (Heap.failing F) (handler F.fails) Mirrors := by
  rintro o ⟨h, i⟩ ⟨store, pins, n⟩ r y hm ho
  obtain rfl : store = h.erase := hm.store
  obtain rfl : n = i := hm.newPages
  by_cases hne : o = .newPage
  · subst hne
    cases hi : F n with
    | true =>
        rw [Heap.failing, if_pos hi] at ho
        cases ho
        exact ⟨_, if_pos hi, rfl, rfl, hm.pins, hm.range⟩
    | false =>
        have hn : ¬ F n = true := by rw [hi]; exact Bool.false_ne_true
        rw [Heap.failing, if_neg hn] at ho
        cases ho
        exact ⟨_, if_neg hn, hm.create⟩
  · by_cases hp : F.Permits h o
    · rw [Heap.failing_of_ne hne _ hp] at ho
      obtain ⟨z, hz, hzy⟩ := Option.map_eq_some_iff.mp ho
      cases hzy
      obtain ⟨y, hy, hmy⟩ := mirrors_request hne hm hz
      exact ⟨y, hy, hmy.store, hmy.newPages, hmy.pins, hmy.range⟩
    · rw [Heap.failing_of_not hne _ hp] at ho
      cases ho

variable {f : Fanout} {s : PinnedStore (PageData K V)} {ix : Index K V}

def lift (s : PinnedStore (PageData K V)) : Heap (PageData K V) :=
  ⟨s.store.pages, fun p => s.pins.count p, fun _ => false, fun _ => false, s.store.nextPageId, s.store.members,
    s.store.pageSet, s.store.freed, s.store.waits, s.store.blocked, .start⟩

def InRange (s : PinnedStore (PageData K V)) : Prop := ∀ p ∈ s.pins, 0 ≤ p ∧ p < s.store.nextPageId

theorem InRange.mirrors (hp : s.InRange) : Mirrors (lift s, s.newPages) s :=
  ⟨rfl, rfl, fun _ _ => rfl, fun p hm => (hp p hm).2⟩

theorem InRange.owns (hp : s.InRange) (hk : Keeps f s.store ix) (hn : 0 ≤ s.store.nextPageId) :
    Heap.Owns (lift s) (ix.pages f) s.pins ∅ s.store.pageSet (.start s.store.members s.store.waits) :=
  { hk.owns hn with
    pins := fun _ _ => rfl
    held := fun p hm => ⟨(hp p hm).1, (hp p hm).2, rfl⟩
    live := fun x hx => ⟨(hk.range x hx).1, (hk.range x hx).2, rfl⟩ }

end PinnedStore

/-- No call of `NewPage` fails that the insertion of a key needs: if the leaf of a new
key is full, it needs a page for the leaf and those of `InsertIntoParent`. -/
def Index.Supplied {K V : Type} [LinearOrder K] (f : Fanout) (fails : Nat → Bool) (i : Nat) (x : K) : Index K V → Prop
  | none => True
  | some T => ∀ (path : Path K V 0 T.1) (t : Tree K V 0), path.plug t = T.2 → x ∈ path.window Set.univ →
      (∀ w, (x, w) ∉ T.2.contents) → (Leaf.entries t).length = f.leafMaxSize - 1 →
      ∀ j, i ≤ j → j < i + (path.allocs f + 1) → fails j = false

namespace BPlusTree

open PinnedStore Heap.Owns

variable {K V : Type} [LinearOrder K] [Inhabited K] {f : Fanout} {s : PinnedStore (PageData K V)} {ix : Index K V}
  {fails : Nat → Bool} {x : K} {v : V} {fuel : Nat}

variable (fails) in
/-- An insertion into a tree returns, or it throws, and then a page that it needs could
not be had and the leaf is still pinned. -/
theorem insert_ends {T : Σ n, Tree K V n} (hk : Keeps f s.store (some T)) (hw : Index.WellFormed f (some T))
    (hn : 0 ≤ s.store.nextPageId) (hp : s.InRange) (hf : T.1 < fuel) :
    (∃ (path : Path K V 0 T.1) (t : Tree K V 0) (r : Bool) (s' : PinnedStore (PageData K V)),
      Returns (handler fails) (insert f fuel x v) s r s' ∧ path.plug t = T.2 ∧ x ∈ path.window Set.univ ∧
        ((∀ w, (x, w) ∉ T.2.contents) → (Leaf.entries t).length = f.leafMaxSize - 1 →
        ∀ j, s.newPages ≤ j → j < s.newPages + (path.allocs f + 1) → fails j = false)) ∨
    ∃ (path : Path K V 0 T.1) (t : Tree K V 0) (s' : PinnedStore (PageData K V)),
      Throws (handler fails) (insert f fuel x v) s outOfMemory s' ∧ path.plug t = T.2 ∧ x ∈ path.window Set.univ ∧
      (∀ w, (x, w) ∉ T.2.contents) ∧ (Leaf.entries t).length = f.leafMaxSize - 1 ∧
      (∃ j, s.newPages ≤ j ∧ j < s.newPages + (path.allocs f + 1) ∧ fails j = true) ∧ s'.pins ≠ s.pins := by
  let F : Regime K V := ⟨fails, False, fun _ => True, False⟩
  have hs := hp.owns hk hn
  rw [← add_zero (Index.pages f _)] at hs
  have hmeets := hs.insertSome (x := x) (v := v) (F := F) (i := s.newPages)
    (X := fun e h' => e = outOfMemory ∧ ∃ (path : Path K V 0 T.1) (t : Tree K V 0), path.plug t = T.2 ∧
      x ∈ path.window Set.univ ∧ (∀ w, (x, w) ∉ T.2.contents) ∧ (Leaf.entries t).length = f.leafMaxSize - 1 ∧
      (∃ j, s.newPages ≤ j ∧ j < s.newPages + (path.allocs f + 1) ∧ fails j = true) ∧ h'.dead t.id = false ∧
      s.pins.count t.id < h'.pins t.id)
    (Q := fun r _ _ => ∃ (path : Path K V 0 T.1) (t : Tree K V 0), path.plug t = T.2 ∧
      x ∈ path.window Set.univ ∧ ((∀ w, (x, w) ∉ T.2.contents) → (Leaf.entries t).length = f.leafMaxSize - 1 →
        ∀ j, s.newPages ≤ j → j < s.newPages + (path.allocs f + 1) → fails j = false))
    (fun _ _ => trivial) hw.1 hw.2 (fun _ _ => rfl) rfl rfl hk.root hf
    (fun h' path t hT hx hno hfull hj hd hc => ⟨rfl, path, t, hT, hx, hno, hfull, hj, hd, hc⟩)
    fun h' i' r N' T' path t hT hx _ _ hr _ hF _ => ⟨path, t, hT, hx, fun hno => hF (hr.mpr hno)⟩
  obtain ⟨r, h', i', hr, hq⟩ := hmeets
  obtain ⟨s', hs', hm⟩ := (simulates_pins F).run hp.mirrors hr
  cases r with
  | ok r =>
      obtain ⟨path, t, hT, hx, hF⟩ := hq
      exact .inl ⟨path, t, r, s', hs', hT, hx, hF⟩
  | error e =>
      obtain ⟨rfl, path, t, hT, hx, hno, hfull, hj, hd, hc⟩ := hq
      refine .inr ⟨path, t, s', hs', hT, hx, hno, hfull, hj, fun he => ?_⟩
      have hcount := hm.pins t.id hd
      rw [he] at hcount
      exact absurd hcount (Nat.ne_of_lt hc)

theorem insert_empty_throws {s' : PinnedStore (PageData K V)} {e : Abort}
    (hroot : s.store.members .rootPageId = invalidPageId)
    (ht : Throws (handler fails) (insert f fuel x v) s e s') : s' = { s with newPages := s.newPages + 1 } := by
  have hstart : ∀ r t, Ends (handler fails) (startNewTree f x v >>= fun _ => do
      PageM.unlockRoot
      pure true) s r t → Ends (handler fails) (insert f fuel x v) s r t := by
    intro r t hr
    refine ends_perform rfl (ends_perform rfl ?_)
    rwa [if_pos hroot]
  cases hi : fails s.newPages with
  | true =>
      have hr := hstart (.error outOfMemory) { s with newPages := s.newPages + 1 } (ends_perform (if_pos hi) rfl)
      exact (Prod.mk.inj (Option.some.inj (ht.symm.trans hr))).2
  | false =>
      have hn : ¬ fails s.newPages = true := by rw [hi]; nofun
      have hr := hstart (.ok true) _ (ends_perform (if_neg hn) (ends_perform rfl (ends_perform rfl
        (ends_perform rfl (ends_perform rfl ends_pure)))))
      exact absurd (ht.symm.trans hr) nofun

/-- An insertion that throws for want of memory leaves the tree and the pins as they
were exactly if no page is missing that it needs once it has changed the leaf. -/
theorem insert_outOfMemory_iff (hk : Keeps f s.store ix) (hw : ix.WellFormed f) (hn : 0 ≤ s.store.nextPageId)
    (hp : s.InRange) (hf : ix.depth < fuel) :
    (∀ s', Throws (handler fails) (insert f fuel x v) s outOfMemory s' →
      ∃ ix', Keeps f s'.store ix' ∧ Index.WellFormed f ix' ∧ ix'.contents = ix.contents ∧ s'.pins = s.pins) ↔
    ix.Supplied f fails s.newPages x := by
  cases ix with
  | none =>
      refine iff_of_true (fun s' ht => ?_) trivial
      obtain rfl := insert_empty_throws hk.root ht
      exact ⟨none, hk, trivial, rfl, rfl⟩
  | some T =>
      rcases insert_ends fails (x := x) (v := v) hk hw hn hp hf with
        ⟨path, t, r, s', hr, hT, hx, hF⟩ | ⟨path, t, s', ht, hT, hx, hno, hfull, ⟨j, hij, hji, hj⟩, hpins⟩
      · refine iff_of_true (fun s'' ht => ?_) fun path' t' hT' hx' hno hfull => ?_
        · exact absurd (hr.symm.trans ht) nofun
        · obtain ⟨rfl, rfl⟩ := Path.plug_unique (hT ▸ hw.1) (hT.trans hT'.symm) hx hx'
          exact hF hno hfull
      · refine iff_of_false (fun hall => ?_) fun hsup => ?_
        · obtain ⟨_, _, _, _, he⟩ := hall s' ht
          exact hpins he
        · exact absurd (hsup path t hT hx hno hfull j hij hji) (by rw [hj]; nofun)

/-- With frames enough for the new leaf and the new root there is no such exception. Without a
frame there is one for the empty tree, which stays empty. -/
theorem insert_supplied :
    (∀ s', Throws (handler fun _ => false) (insert narrow 1 7 70) ⟨fullRoot, 0, 0⟩ outOfMemory s' →
      ∃ ix', Keeps narrow s'.store ix' ∧ Index.WellFormed narrow ix' ∧ ix'.contents = [(5, 50)] ∧ s'.pins = 0) ∧
    ∃ s', Throws (handler fun _ => true) (insert narrow 1 7 70) ⟨TupleStore.newStore, 0, 0⟩ outOfMemory s' ∧
      ∃ ix' : Index Nat Nat, Keeps narrow s'.store ix' ∧ Index.WellFormed narrow ix' ∧ ix'.contents = [] ∧ s'.pins = 0 := by
  have hempty : Keeps narrow (TupleStore.newStore : PageStore (PageData Nat Nat)) none :=
    ⟨rfl, ⟨Multiset.nodup_zero, fun x hx => by cases Multiset.notMem_zero x hx⟩,
      fun x hx => by cases Multiset.notMem_zero x hx⟩
  constructor
  · refine (insert_outOfMemory_iff (s := ⟨fullRoot, 0, 0⟩) keeps_fullRoot wellFormed_fullRoot Int.one_nonneg ?_
      Nat.zero_lt_one).mpr fun _ _ _ _ _ _ _ _ _ => rfl
    exact fun p hp => by cases Multiset.notMem_zero p hp
  · obtain ⟨s', hs'⟩ : ∃ s', Throws (handler fun _ => true) (insert narrow 1 7 70)
        ⟨TupleStore.newStore, 0, 0⟩ outOfMemory s' :=
      ⟨_, rfl⟩
    refine ⟨s', hs', (insert_outOfMemory_iff (s := ⟨TupleStore.newStore, 0, 0⟩) hempty trivial (Int.le_refl 0) ?_
      Nat.zero_lt_one).mpr trivial s' hs'⟩
    exact fun p hp => by cases Multiset.notMem_zero p hp

/-- A full leaf in a pool with no frame left: the entry is in the leaf, which is above
its size, and the leaf stays pinned. -/
theorem insert_outOfMemory_breaks :
    ∃ s', Throws (handler fun _ => true) (insert narrow 1 7 70) ⟨fullRoot, 0, 0⟩ outOfMemory s' ∧
      (∃ page, s'.store.pages 0 = .leaf page ∧ page.array = [(5, 50), (7, 70)]) ∧
      ¬ ∃ ix', Keeps narrow s'.store ix' ∧ Index.WellFormed narrow ix' ∧ ix'.contents = [(5, 50)] ∧ s'.pins = 0 := by
  refine ⟨_, rfl, ⟨_, rfl, rfl⟩, ?_⟩
  rintro ⟨_, _, _, _, hpins⟩
  exact absurd (congrArg Multiset.card hpins) (by decide)

end BPlusTree

end DBPlayground.Storage
