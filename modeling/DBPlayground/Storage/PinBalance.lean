import DBPlayground.Storage.PinCounts
import DBPlayground.Storage.RemoveCalls
import DBPlayground.Storage.SessionShows

namespace DBPlayground.Storage

open Machine BufferPool Footprint

namespace Heap

variable {K V β : Type} {F : Regime K V} {m : PageM (PageData K V) β}

theorem spotless_request {o : PoolOp (PageData K V)} {r : o.Ans} {h h' : Heap (PageData K V)}
    (hz : ∀ p, o = .deletePage p → h.pins p = 0) (hd : ∀ p, h.dead p = true → h.pins p = 0)
    (ho : handler o h = some (r, h')) : ∀ p, h'.dead p = true → h'.pins p = 0 := by
  intro q hq
  cases o with
  | newPage =>
      cases ho
      have hne : q ≠ h.nextPageId := by
        rintro rfl
        exact absurd ((Function.update_self ..).symm.trans hq) Bool.false_ne_true
      exact (Function.update_of_ne hne ..).trans (hd q ((Function.update_of_ne hne ..).symm.trans hq))
  | fetchPage p =>
      simp only [handler] at ho
      split at ho
      · next hlive =>
          cases ho
          have hne : q ≠ p := by
            rintro rfl
            exact absurd (hlive.2.2.symm.trans hq) Bool.false_ne_true
          exact (Function.update_of_ne hne ..).trans (hd q hq)
      · cases ho
  | unpinPage p d =>
      simp only [handler] at ho
      split at ho
      · next hheld =>
          split at ho
          · cases ho
          · cases ho
            have hne : q ≠ p := by
              rintro rfl
              exact absurd (hheld.1.symm.trans hq) Bool.false_ne_true
            exact (Function.update_of_ne hne ..).trans (hd q hq)
      · cases ho
        exact hd q hq
  | deletePage p =>
      simp only [handler] at ho
      split at ho
      · cases ho
        by_cases hne : q = p
        · rw [hne]
          exact hz p rfl
        · exact hd q ((Function.update_of_ne hne ..).symm.trans hq)
      · cases ho
  | getData | setData | latch | unlatch | newTransaction | addIntoPageSet | pageSetSize | pageSetPageId | pageSetUnlatch
    | clearPageSet | lockRoot | unlockRoot | getMember | setMember =>
      obtain ⟨hpins, hdead, _⟩ := PinnedStore.heap_of_calm rfl ho
      rw [hpins]
      exact hd q (hdead ▸ hq)

theorem spotless_ends {r : Except Abort β} {x y : Heap (PageData K V) × Nat} (hF : F.spotless)
    (hfails : ∀ i, F i = false) (hx : ∀ p, x.1.dead p = true → x.1.pins p = 0) (hr : Ends (failing F) m x r y) :
    ∀ p, y.1.dead p = true → y.1.pins p = 0 := by
  refine run_invariant (I := fun y : Heap (PageData K V) × Nat => ∀ p, y.1.dead p = true → y.1.pins p = 0) ?_ hx hr
  intro o x r y hx ho
  obtain ⟨z, hz, hy, hp⟩ := failing_grants hfails ho
  have hzero : ∀ p, o = .deletePage p → x.1.pins p = 0 := by
    rintro p rfl
    exact (hp.resolve_left fun he => by cases he).2 hF
  have hall := spotless_request hzero hx hz
  rw [hy]
  exact hall

end Heap

namespace BufferPool

variable {n : Nat} {α : Type} [Inhabited α] {b b' : BufferPool n (MemDisk α) α} {d : Bool} {fs : List (Fin n)}

def release (d : Bool) (b : BufferPool n (MemDisk α) α) (fs : List (Fin n)) : BufferPool n (MemDisk α) α :=
  fs.foldl (fun b f => (b.unpinPage (b.pages f).pageId d).2) b

structure Released (d : Bool) (b : BufferPool n (MemDisk α) α) (fs : List (Fin n)) (b' : BufferPool n (MemDisk α) α) :
    Prop where
  inv : Inv b'
  fresh : Fresh b'
  table : b'.pageTable = b.pageTable
  free : b'.freeList = b.freeList
  disk : b'.disk = b.disk
  pageId : ∀ g, (b'.pages g).pageId = (b.pages g).pageId
  view : ∀ q, b'.view q = b.view q
  clean : ∀ q, b.Clean q → b'.Clean q
  count : ∀ g, (b'.pages g).pinCount = (b.pages g).pinCount - if g ∈ b.freeList then 0 else fs.count g
  dirty : d = true → ∀ {p f}, b.pageTable.lookup p = some f → f ∈ fs → b'.Clean p

theorem released (hi : Inv b) (hfr : Fresh b) (hblank : ∀ g ∈ b.freeList, (b.pages g).pageId = invalidPageId)
    (hnone : b.pageTable.lookup invalidPageId = none) : Released d b fs (b.release d fs) := by
  induction fs generalizing b with
  | nil =>
      refine ⟨hi, hfr, rfl, rfl, rfl, fun _ => rfl, fun _ => rfl, fun _ hc => hc, fun g => ?_,
        fun _ _ _ _ hf => by cases hf⟩
      rw [List.count_nil, ite_self, Nat.sub_zero]
      rfl
  | cons f fs ih =>
      obtain ⟨htable, hfree, hdisk⟩ := unpinPage_frame (b := b) (b.pages f).pageId d
      have hid := unpinPage_pageId (b := b) (b.pages f).pageId d
      have hview := unpinPage_view (p := (b.pages f).pageId) hi d
      have hrest := ih (hi.unpinPage (p := (b.pages f).pageId) d) (hfr.unpinPage d)
        (fun g hg => (hid g).trans (hblank g (hfree ▸ hg))) ((congrArg (AList.lookup invalidPageId) htable).trans hnone)
      refine ⟨hrest.inv, hrest.fresh, hrest.table.trans htable, hrest.free.trans hfree, hrest.disk.trans hdisk,
        fun g => (hrest.pageId g).trans (hid g), fun q => (hrest.view q).trans (hview q).1,
        fun q hc => hrest.clean q ((hview q).2 hc), fun g => ?_, fun hd p g hl hg => ?_⟩
      · refine (hrest.count g).trans ?_
        rw [hfree]
        by_cases hmem : f ∈ b.freeList
        · have hsame : (b.unpinPage (b.pages f).pageId d).2 = b := by
            rw [hblank f hmem]
            unfold unpinPage
            rw [hnone]
          rw [hsame]
          split
          · rfl
          · next hg =>
              rw [List.count_cons_of_ne]
              rintro rfl
              exact hg hmem
        · rw [unpinPage_pinCount (hi.bound hmem)]
          by_cases hgf : g = f
          · rw [hgf, if_neg hmem, if_neg hmem, if_pos rfl, List.count_cons_self]
            omega
          · rw [if_neg hgf, List.count_cons_of_ne (Ne.symm hgf), Nat.sub_zero]
      · rcases List.mem_cons.mp hg with rfl | hg
        · rw [hi.agrees hl] at hrest
          have hclean : (b.unpinPage p d).2.Clean p := by
            rw [hd]
            exact unpinPage_dirty hl
          rw [show release d b (g :: fs) = release d (b.unpinPage (b.pages g).pageId d).2 fs from rfl, hi.agrees hl]
          exact hrest.clean p hclean
        · exact hrest.dirty hd ((congrArg (AList.lookup p) htable).trans hl) hg

end BufferPool

namespace Session

variable {n : Nat} {K V : Type} (s : Session n (PageData K V))

def store : PageStore (PageData K V) where
  pages := s.pool.view
  nextPageId := s.pool.disk.nextPageId
  members := s.members
  pageSet := []

theorem ends_unlatchAndUnpinFrom (op : OpType) {i k : Nat} (hk : i + k = s.pageSet.length) :
    ∃ latches, Ends handler (BPlusTree.unlatchAndUnpinFrom op i k : PageM (PageData K V) Unit) s (.ok ())
      { s with pool := s.pool.release (op ≠ .read) (s.pageSet.drop i), latches := latches } := by
  induction k generalizing i s with
  | zero =>
      have hdrop : s.pageSet.drop i = [] := List.drop_of_length_le (Nat.le_of_eq hk.symm)
      rw [hdrop]
      exact ⟨s.latches, rfl⟩
  | succ k ih =>
      have hi : i < s.pageSet.length := by omega
      have hget : handler (.pageSetPageId i : PoolOp (PageData K V)) s =
          some ((s.pool.pages s.pageSet[i]).pageId, s) := by
        rw [handler, List.getElem?_eq_getElem hi]
        rfl
      have hfree : handler (.pageSetUnlatch i op : PoolOp (PageData K V)) s =
          some ((), { s with latches := s.latches.erase (s.pageSet[i], op) }) := by
        rw [handler, List.getElem?_eq_getElem hi]
        rfl
      obtain ⟨latches, hrest⟩ := ih { s with
        pool := (s.pool.unpinPage (s.pool.pages s.pageSet[i]).pageId (op ≠ .read)).2
        latches := s.latches.erase (s.pageSet[i], op) } (i := i + 1) (by show i + 1 + k = s.pageSet.length; omega)
      rw [List.drop_eq_getElem_cons hi]
      exact ⟨latches, ends_perform hget (ends_perform hfree (ends_perform rfl hrest))⟩

theorem ends_finish (released : Bool) :
    ∃ latches, Ends handler (BPlusTree.unlatchAndUnpin .remove >>= fun _ =>
      (BPlusTree.leaveRoot released : PageM (PageData K V) Unit)) s
      (.ok ()) { s with pool := s.pool.release true s.pageSet, pageSet := [], latches := latches } := by
  obtain ⟨latches, hfrom⟩ := ends_unlatchAndUnpinFrom s .remove (i := 0) (Nat.zero_add _)
  have hall : Ends handler (BPlusTree.unlatchAndUnpin .remove : PageM (PageData K V) Unit) s (.ok ())
      { s with pool := s.pool.release true s.pageSet, pageSet := [], latches := latches } :=
    ends_perform rfl (hfrom.bind rfl)
  refine ⟨latches, hall.bind ?_⟩
  cases released with
  | true => rfl
  | false => rfl

end Session

section rests

variable {n : Nat} {K V : Type} {f : Fanout} {s : Session n (PageData K V)} {ix : Index K V}

/-- Between two calls: no frame has a pin, and what was written is on the disk or in a dirty
frame. -/
structure Session.Idle (s : Session n (PageData K V)) : Prop where
  inv : Inv s.pool
  fresh : Fresh s.pool
  clean : ∀ p, s.pool.Clean p
  unpinned : ∀ g, (s.pool.pages g).pinCount = 0
  blank : ∀ g ∈ s.pool.freeList, (s.pool.pages g).pageId = invalidPageId
  resident : ∀ {p g}, s.pool.pageTable.lookup p = some g → 0 ≤ p
  next : 0 ≤ s.pool.disk.nextPageId
  pageSet : s.pageSet = []

structure Rests (f : Fanout) (s : Session n (PageData K V)) (ix : Index K V) : Prop extends s.Idle where
  keeps : Keeps f s.store ix

/-- The cells `R` stand beside the tree. -/
structure Aside (f : Fanout) (s : PageStore (PageData K V)) (ix : Index K V) (R : Multiset (PageId × PageData K V)) :
    Prop where
  holds : Holds s.pages (ix.pages f + R)
  range : ∀ x ∈ R, 0 ≤ x.1 ∧ x.1 < s.nextPageId

theorem Session.Idle.isUnpinned (hs : s.Idle) : s.Unpinned := fun _ g _ => hs.unpinned g

theorem Session.Idle.shows (hs : s.Idle) : Shows (TupleStore.lift s.store) s fun _ => 0 where
  inv := hs.inv
  fresh := hs.fresh
  next := rfl
  members := rfl
  resident hp := ⟨hs.resident hp, hs.fresh.resident_lt hp, rfl⟩
  view _ := rfl
  pending hp := absurd hp Bool.false_ne_true
  clean _ := hs.clean _
  held hp := absurd hp.2 (Nat.lt_irrefl 0)
  count _ := hs.unpinned _
  free hg := ⟨hs.unpinned _, hs.blank _ hg⟩
  past hd := absurd hd Bool.false_ne_true
  nonneg := hs.next
  length := by rw [hs.pageSet]; rfl
  distinct := List.nodup_nil
  frames := by
    rw [hs.pageSet]
    exact List.nodup_nil
  paired hq := absurd hq List.not_mem_nil
  stained _ := ⟨Nat.zero_le 1, fun hne => absurd rfl hne⟩

theorem Rests.alone (hs : Rests f s ix) : Aside f s.store ix 0 where
  holds := by
    rw [add_zero]
    exact hs.keeps.holds
  range x hx := absurd hx (Multiset.notMem_zero x)

variable {h : Heap (PageData K V)} {stain : Fin n → Nat} {R : Multiset (PageId × PageData K V)} {E : Multiset PageId}
  {D : Set PageId} {l : List PageId} {M : Scope}

theorem Rests.owns (hs : Rests f s ix) (ha : Aside f s.store ix R) :
    Heap.Owns (TupleStore.lift s.store) (ix.pages f + R) 0 ∅ [] (.start s.members 0) :=
  { hs.keeps.owns hs.next with
    holds := ha.holds
    live := by
      intro x hx
      rcases Multiset.mem_add.mp hx with hx | hx
      · exact ⟨(hs.keeps.range x hx).1, (hs.keeps.range x hx).2, rfl⟩
      · exact ⟨(ha.range x hx).1, (ha.range x hx).2, rfl⟩ }

theorem Shows.idle (hs : Shows h s stain) (hpins : ∀ p, h.dead p = false → h.pins p = 0) (hnil : h.pageSet = []) :
    s.Idle := by
  have hset : s.pageSet = [] := by
    refine List.eq_nil_of_length_eq_zero (hs.length.symm.trans ?_)
    rw [hnil]
    rfl
  have hstain : ∀ g, stain g = 0 := by
    intro g
    by_contra hne
    obtain ⟨q, hq, _⟩ := (hs.stained g).2 hne
    rw [hset, List.zip_nil_right] at hq
    cases hq
  refine ⟨hs.inv, hs.fresh, fun p => hs.clean ?_, fun g => ?_, fun g hg => (hs.free hg).2, fun hp => (hs.resident hp).1,
    hs.next ▸ hs.nonneg, hset⟩
  · refine Bool.eq_false_iff.mpr fun hp => ?_
    obtain ⟨hd, hpos⟩ := hs.pending hp
    exact absurd (hpins p hd) (Nat.ne_of_gt hpos)
  · by_cases hg : g ∈ s.pool.freeList
    · exact (hs.free hg).1.trans (hstain g)
    · have hl := hs.inv.bound hg
      rw [hs.count hl, hpins _ (hs.resident hl).2.2, hstain g]

theorem Shows.cells (hs : Shows h s stain) (ho : Heap.Owns h (ix.pages f + R) E D l M)
    (hroot : M.members .rootPageId = ix.rootPageId) :
    Keeps f s.store ix ∧ Aside f s.store ix R ∧ s.members = M.members := by
  have hmembers := hs.members.trans ho.members
  have hholds : Holds s.store.pages (ix.pages f + R) :=
    ⟨ho.holds.1, fun x hx => (hs.view (ho.live x hx)).trans (ho.holds.2 x hx)⟩
  have hrange : ∀ x ∈ ix.pages f + R, 0 ≤ x.1 ∧ x.1 < s.store.nextPageId := fun x hx =>
    ⟨(ho.live x hx).1, (ho.live x hx).2.1.trans_eq hs.next.symm⟩
  exact ⟨⟨(congrFun hmembers _).trans hroot, hholds.left, fun x hx => hrange x (Multiset.mem_add.mpr (.inl hx))⟩,
    ⟨hholds, fun x hx => hrange x (Multiset.mem_add.mpr (.inr hx))⟩, hmembers⟩

theorem Shows.rests (hs : Shows h s stain) (ho : Heap.Owns h (ix.pages f + R) 0 D [] M)
    (hroot : M.members .rootPageId = ix.rootPageId) :
    Rests f s ix ∧ Aside f s.store ix R ∧ s.members = M.members := by
  obtain ⟨hkeeps, haside, hmembers⟩ := hs.cells ho hroot
  exact ⟨⟨hs.idle (fun p hp => ho.pins p hp) ho.pageSet, hkeeps⟩, haside, hmembers⟩

end rests

section remove

variable {n : Nat} {K V : Type} {f : Fanout} {s : Session n (PageData K V)} {h : Heap (PageData K V)}
    {stain : Fin n → Nat}
  {p : PageId} {g : Fin n}

theorem Shows.released (hs : Shows h s stain) : Released true s.pool s.pageSet (s.pool.release true s.pageSet) := by
  refine BufferPool.released hs.inv hs.fresh (fun g hg => (hs.free hg).2) ?_
  cases hl : s.pool.pageTable.lookup invalidPageId with
  | none => rfl
  | some g => exact absurd rfl (ne_invalidPageId (hs.resident hl).1)

theorem Shows.released_mem (hs : Shows h s stain) (hl : s.pool.pageTable.lookup p = some g) (hp : p ∈ h.pageSet) :
    ((s.pool.release true s.pageSet).pages g).pinCount = h.pins p - 1 ∧ g ∈ s.pageSet := by
  have hd := (hs.resident hl).2.2
  obtain ⟨g', hg'⟩ := hs.exists_paired hp
  obtain rfl := Option.some.inj (hl.symm.trans (hs.paired hg' hd))
  have hmem := (List.of_mem_zip hg').2
  refine ⟨?_, hmem⟩
  rw [hs.released.count g, if_neg (hs.inv.not_free hl), List.count_eq_one_of_mem hs.frames hmem, hs.count hl,
    hs.unstained_paired hg' hd]
  rfl

theorem Shows.released_stain (hs : Shows h s stain) (hl : s.pool.pageTable.lookup p = some g) (hp : h.pins p = 0) :
    ((s.pool.release true s.pageSet).pages g).pinCount = 0 := by
  obtain ⟨hone, hwhy⟩ := hs.stained g
  rw [hs.released.count g, if_neg (hs.inv.not_free hl), hs.count hl, hp, Nat.zero_add]
  by_cases hmem : g ∈ s.pageSet
  · rw [List.count_eq_one_of_mem hs.frames hmem]
    exact Nat.sub_eq_zero_of_le hone
  · have hzero : stain g = 0 := by
      by_contra hne
      obtain ⟨q, hq, _⟩ := hwhy hne
      exact hmem (List.of_mem_zip hq).2
    rw [hzero]
    exact Nat.zero_sub _

variable {l : List PageId} {E : Multiset PageId} {S : Multiset (PageId × PageData K V)} {D : Set PageId} {M : Scope}
  {latches : List (Fin n × OpType)}

theorem Shows.released_unpinned (hs : Shows h s stain) (ho : Heap.Owns h S E D l M) (hle : E ≤ ↑l)
    (hl : s.pool.pageTable.lookup p = some g) : ((s.pool.release true s.pageSet).pages g).pinCount = 0 := by
  have hpins : h.pins p ≤ h.pageSet.count p := by
    rw [ho.pins p (hs.resident hl).2.2, ho.pageSet, ← Multiset.coe_count]
    exact Multiset.count_le_of_le p hle
  by_cases hmem : p ∈ h.pageSet
  · rw [List.count_eq_one_of_mem hs.distinct hmem] at hpins
    rw [(hs.released_mem hl hmem).1]
    exact Nat.sub_eq_zero_of_le hpins
  · rw [List.count_eq_zero_of_not_mem hmem] at hpins
    exact hs.released_stain hl (Nat.le_zero.mp hpins)

theorem Shows.released_pinned (hs : Shows h s stain) (ho : Heap.Owns h S E D l M) (hp : p ∈ l) (htwo : 2 ≤ E.count p) :
    ∃ g, s.pool.pageTable.lookup p = some g ∧ ((s.pool.release true s.pageSet).pages g).pinCount ≠ 0 := by
  have hmem : p ∈ E := Multiset.count_pos.mp (by omega)
  have hpins := ho.pins p (ho.held p hmem).2.2
  obtain ⟨g, _, hl⟩ := hs.held ⟨(ho.held p hmem).2.2, by omega⟩
  refine ⟨g, hl, ?_⟩
  rw [(hs.released_mem hl (ho.pageSet ▸ hp)).1]
  omega

variable (latches) in
theorem Shows.store_released (hs : Shows h s stain) :
    ({ s with pool := s.pool.release true s.pageSet, pageSet := [], latches := latches } :
      Session n (PageData K V)).store = s.store := by
  have hr := hs.released
  unfold Session.store
  rw [show (s.pool.release true s.pageSet).view = s.pool.view from funext hr.view, hr.disk]

theorem Shows.released_idle (hs : Shows h s stain) (ho : Heap.Owns h S E D l M) (hle : E ≤ ↑l)
    (hz : ∀ p, h.dead p = true → h.pins p = 0) :
    Session.Idle { s with pool := s.pool.release true s.pageSet, pageSet := [], latches := latches } := by
  have hr := hs.released
  have hstain : ∀ g, stain g = 0 := by
    intro g
    by_contra hne
    obtain ⟨q, _, hd, hpos⟩ := (hs.stained g).2 hne
    exact absurd (hz q hd) (Nat.ne_of_gt hpos)
  have hlook : ∀ {q g}, (s.pool.release true s.pageSet).pageTable.lookup q = some g →
      s.pool.pageTable.lookup q = some g :=
    fun hq => (congrArg (AList.lookup _) hr.table).symm.trans hq
  refine ⟨hr.inv, hr.fresh, fun p => ?_, fun g => ?_, fun g hg => ?_, fun hp => (hs.resident (hlook hp)).1, ?_, rfl⟩
  · cases hp : h.pending p with
    | false => exact hr.clean p (hs.clean hp)
    | true =>
        obtain ⟨hd, hpos⟩ := hs.pending hp
        obtain ⟨g, _, hl⟩ := hs.held ⟨hd, hpos⟩
        have hmem : p ∈ E := Multiset.count_pos.mp (ho.pins p hd ▸ hpos)
        have hset : p ∈ h.pageSet := ho.pageSet ▸ Multiset.mem_coe.mp (Multiset.mem_of_le hle hmem)
        exact hr.dirty rfl hl (hs.released_mem hl hset).2
  · by_cases hg : g ∈ s.pool.freeList
    · show ((s.pool.release true s.pageSet).pages g).pinCount = 0
      rw [hr.count g, if_pos hg, (hs.free hg).1, hstain g]
    · exact hs.released_unpinned ho hle (hs.inv.bound hg)
  · exact (hr.pageId g).trans (hs.free (hr.free ▸ hg)).2
  · show 0 ≤ (s.pool.release true s.pageSet).disk.nextPageId
    rw [hr.disk, hs.next]
    exact hs.nonneg

end remove

/-- The removal of a key ends with a node that takes an entry from a sibling. -/
def Index.Borrows {K V : Type} [LinearOrder K] (f : Fanout) (x : K) : Index K V → Prop
  | none => False
  | some T => ∃ (path : Path K V 0 T.1) (t : Tree K V 0), path.plug t = T.2 ∧ x ∈ path.window Set.univ ∧
      (path.removalBorrow f t x).isSome = true

/-- The removal of a key deletes an inner page that it came down through. -/
def Index.Sheds {K V : Type} [LinearOrder K] (f : Fanout) (x : K) : Index K V → Prop
  | none => False
  | some T => ∃ (path : Path K V 0 T.1) (t : Tree K V 0), path.plug t = T.2 ∧ x ∈ path.window Set.univ ∧
      path.removalSheds f t x = true

def Index.Denotes {K V : Type} (ix : Index K V) (m : K → Option V) : Prop := ∀ x v, m x = some v ↔ (x, v) ∈ ix.contents

/-- The pool has frames enough for every request of a method. -/
def Session.HasRoom {n : Nat} {K V β : Type} (m : PageM (PageData K V) β) (s : Session n (PageData K V)) : Prop :=
  Always Session.handler (fun o s => Session.room o s = true) m.run s

section calls

variable {n : Nat} {K V : Type} {f : Fanout} {s : Session n (PageData K V)} {ix : Index K V} {fuel : Nat}
  {R : Multiset (PageId × PageData K V)}

theorem Session.Idle.run {β : Type} {m : PageM (PageData K V) β} {F : Regime K V}
    {X : Abort → Heap (PageData K V) → Prop}
    {Q : β → Heap (PageData K V) → Nat → Prop} (hs : s.Idle) (hF : ∀ i, F i = false)
    (hin : ∀ data, F.limit data → data.inside = true) (hroom : s.HasRoom m)
    (hm : Heap.Meets F X m (TupleStore.lift s.store) 0 Q) :
    ∃ r h i s' stain, Ends (Heap.failing F) m (TupleStore.lift s.store, 0) r (h, i) ∧
      Ends Session.handler m s r s' ∧ Shows h s' stain ∧
      match r with
      | .ok b => Q b h i
      | .error e => X e h := by
  obtain ⟨r, h, i, hr, hq⟩ := hm
  obtain ⟨s', hs', stain, hshows⟩ := (simulates_session hF hin).run ⟨_, hs.shows⟩ hroom hr
  exact ⟨r, h, i, s', stain, hr, hs', hshows, hq⟩

variable [LinearOrder K]

theorem getValue_rests (hs : Rests f s ix) (ha : Aside f s.store ix R) (hw : ix.WellFormed f) (hf : ix.depth < fuel)
    {x : K} (hroom : s.HasRoom (BPlusTree.getValue f fuel x : PageM (PageData K V) (Option V))) :
    ∃ out s', Returns Session.handler (BPlusTree.getValue f fuel x) s out s' ∧
      (∀ v, out = some v ↔ (x, v) ∈ ix.contents) ∧
      Rests f s' ix ∧ Aside f s'.store ix R ∧ s'.members = s.members := by
  cases ix with
  | none =>
      refine ⟨none, s, ends_perform rfl ?_, fun v => ⟨fun hv => (by cases hv), fun hv => by cases hv⟩, hs, ha, rfl⟩
      rw [if_pos (show s.members .rootPageId = invalidPageId from hs.keeps.root)]
      rfl
  | some T =>
      obtain ⟨r, h, i, s', stain, _, hr, hshows, hq⟩ := hs.run (F := .plain fun _ => False)
        (X := fun _ _ => False) (fun _ => rfl) (fun _ => False.elim) hroom
        ((hs.owns ha).getValue hw.1 (fun _ hp => by cases hp) rfl rfl hs.keeps.root hf)
      cases r with
      | error e => cases hq
      | ok out =>
          obtain ⟨_, hout, ho⟩ := hq
          have ho : Heap.Owns h (Index.pages f (some T) + R) 0 ∅ [] _ := ho
          obtain ⟨hs', ha', hmembers⟩ := hshows.rests ho hs.keeps.root
          exact ⟨out, s', hr, hout, hs', ha', hmembers⟩

variable [Inhabited K]

theorem insert_rests (hin : f.InPage 1) (hs : Rests f s ix) (ha : Aside f s.store ix R)
    (hw : ix.WellFormed f) (hf : ix.depth < fuel)
    {x : K} {v : V} (hroom : s.HasRoom (BPlusTree.insert f fuel x v)) :
    ∃ r s' ix', Returns Session.handler (BPlusTree.insert f fuel x v) s r s' ∧ Index.WellFormed f ix' ∧
      (r = true ↔ ∀ w, (x, w) ∉ ix.contents) ∧ (∀ e, e ∈ ix'.contents ↔ r = true ∧ e = (x, v) ∨ e ∈ ix.contents) ∧
      Rests f s' ix' ∧ Aside f s'.store ix' R ∧ s'.members = Function.update s.members .rootPageId ix'.rootPageId := by
  obtain ⟨r, h, i, s', stain, _, hr, hshows, hq⟩ := hs.run (F := .plain (PageData.Roomy f))
    (X := fun _ _ => False) (fun _ => rfl) (fun _ (hd : PageData.Roomy f _) => hd.inside hin) hroom
    ((hs.owns ha).insert (fun _ => id) (fun _ => rfl) hw (fun _ hp => by cases hp) rfl rfl hs.keeps.root hf)
  cases r with
  | error e => cases hq
  | ok b =>
      obtain ⟨ix', l, hl, hw', hb, hc, ho⟩ := hq
      obtain rfl : l = [] := hl.elim id id
      exact ⟨b, s', ix', hr, hw', hb, hc, hshows.rests ho (Scope.members_setMember _)⟩

/-- `Remove` from a tree returns; the pins are all given back unless it ends with a borrow,
and the pool is at rest if no inner page of the way down was deleted either. -/
theorem remove_rests {N : Nat} {T : Tree K V N} (hin : f.InPage 0) (hs : Rests f s (some ⟨N, T⟩))
    (ha : Aside f s.store (some ⟨N, T⟩) R) (hw : Index.WellFormed f (some ⟨N, T⟩)) (hf : N < fuel)
    {x : K} (hroom : s.HasRoom (BPlusTree.remove f fuel x)) :
    ∃ s', Returns Session.handler (BPlusTree.remove f fuel x) s () s' ∧
      (s'.Unpinned ↔ ¬ Index.Borrows f x (some ⟨N, T⟩)) ∧
      (¬ Index.Borrows f x (some ⟨N, T⟩) → ¬ Index.Sheds f x (some ⟨N, T⟩) → ∃ ix', Index.WellFormed f ix' ∧
        (∀ e, e ∈ ix'.contents ↔ e ∈ T.contents ∧ e.1 ≠ x) ∧ Rests f s' ix' ∧ Aside f s'.store ix' R ∧
        s'.members = Function.update s.members .rootPageId ix'.rootPageId) := by
  let F : Regime K V := ⟨fun _ => false, False, PageData.Fits f, ¬ Index.Sheds f x (some ⟨N, T⟩)⟩
  have hroot : s.members .rootPageId = T.id := hs.keeps.root
  have hvalid : ¬ s.members .rootPageId = invalidPageId := by
    rw [hroot]
    exact ne_invalidPageId (hs.keeps.range _ T.mem_pages).1
  have hshed : F.spotless → ∀ (path : Path K V 0 N) (t : Tree K V 0), path.plug t = T → x ∈ path.window Set.univ →
      path.removalSheds f t x = false := fun hF path t hT hx =>
    Bool.eq_false_iff.mpr fun hc => hF ⟨path, t, hT, hx, hc⟩
  unfold Session.HasRoom at hroom
  rw [BPlusTree.remove_eq] at hroom
  have hentry := hroom.perform rfl
  rw [if_neg hvalid] at hentry
  obtain ⟨r, h, i, y, stain, hheap, hr, hshows, hq⟩ := hs.run (F := F) (X := fun _ _ => False)
    (fun _ => rfl) (fun _ (hd : PageData.Fits f _) => hd.inside hin) hentry.left
    ((hs.owns ha).removeEntry (fun _ => id) hw.1 hw.2 (fun _ hp => by cases hp) rfl hroot hf hshed)
  cases r with
  | error e => cases hq
  | ok released =>
      obtain ⟨_, path, t, l, locked, hT, hx, hmem, S, E, D, root, hout, hleft, ho⟩ := hq
      rw [add_zero] at ho
      have hborrow : Index.Borrows f x (some ⟨N, T⟩) ↔ (path.removalBorrow f t x).isSome = true := by
        refine ⟨?_, fun hb => ⟨path, t, hT, hx, hb⟩⟩
        rintro ⟨path', t', hT', hx', hb⟩
        obtain ⟨rfl, rfl⟩ := Path.plug_unique (hT ▸ hw.1) (hT.trans hT'.symm) hx hx'
        exact hb
      obtain ⟨latches, hfin⟩ := y.ends_finish released
      refine ⟨{ y with pool := y.pool.release true y.pageSet, pageSet := [], latches := latches }, ?_, ?_, ?_⟩
      · unfold Returns
        rw [BPlusTree.remove_eq]
        refine ends_perform rfl ?_
        rw [if_neg hvalid]
        exact hr.bind hfin
      · rw [hborrow]
        have hlook : ∀ {p}, (y.pool.release true y.pageSet).pageTable.lookup p = y.pool.pageTable.lookup p :=
          congrArg (AList.lookup _) hshows.released.table
        cases he : path.removalBorrow f t x with
        | none =>
            rw [he] at hleft
            exact iff_of_true (fun p g hl => hshows.released_unpinned ho hleft (hlook.symm.trans hl)) Bool.false_ne_true
        | some b =>
            rw [he] at hleft
            have hmem := hmem b he
            have htwo : 2 ≤ E.count b.parent := by
              rw [hleft.2, Multiset.coe_count]
              exact Nat.succ_le_succ (List.count_pos_iff.mpr hmem)
            obtain ⟨g, hl, hne⟩ := hshows.released_pinned ho hmem htwo
            exact iff_of_false (fun hall => hne (hall _ g (hlook.trans hl))) (not_not.mpr rfl)
      · intro hnot hclean
        have he : path.removalBorrow f t x = none := by
          rw [hborrow] at hnot
          exact Option.not_isSome_iff_eq_none.mp hnot
        rw [he] at hout hleft
        obtain ⟨ix', rfl, hix, hc, hw'⟩ := hout
        have hz := Heap.spotless_ends (F := F) hclean (fun _ => rfl) (fun _ hd => by cases hd) hheap
        have hb : (path.plug t).Bounded Set.univ := hT.symm ▸ hw.1
        obtain ⟨hkeeps, haside, hmembers⟩ := hshows.cells ho ((Scope.members_setMember _).trans hix)
        rw [← hshows.store_released latches] at hkeeps haside
        refine ⟨ix', hw' (Path.bounded_without hb), ?_, ⟨hshows.released_idle ho hleft hz, hkeeps⟩, haside, ?_⟩
        · intro e
          rw [hc, Path.contents_without hb hx, hT, List.mem_filter, decide_eq_true_eq]
        · exact hmembers.trans (congrArg (Function.update s.members .rootPageId) hix)

end calls

end DBPlayground.Storage
