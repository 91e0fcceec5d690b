import DBPlayground.Storage.HeapRules
import DBPlayground.Storage.PoolView
import DBPlayground.Storage.Session

namespace DBPlayground.Storage

open Machine BufferPool

theorem zip_right_unique {α β : Type} {l : List α} {m : List β} {a a' : α} {b : β} (hm : m.Nodup) (h : (a, b) ∈ l.zip m)
    (h' : (a', b) ∈ l.zip m) : a = a' := by
  obtain ⟨i, hi, he⟩ := List.getElem_of_mem h
  obtain ⟨j, hj, he'⟩ := List.getElem_of_mem h'
  rw [List.getElem_zip] at he he'
  obtain ⟨rfl, rfl⟩ := Prod.mk.inj he
  obtain ⟨rfl, hb⟩ := Prod.mk.inj he'
  obtain rfl := (List.Nodup.getElem_inj_iff hm).mp hb
  rfl

variable {n : Nat} {K V : Type}

/-- The pool shows a heap. A frame may have more pins than its page: `stain` counts the pins
that a page had when it was deleted, which stay on the frame. -/
structure Shows (h : Heap (PageData K V)) (s : Session n (PageData K V)) (stain : Fin n → Nat) : Prop where
  inv : Inv s.pool
  fresh : Fresh s.pool
  next : s.pool.disk.nextPageId = h.nextPageId
  members : s.members = h.members
  resident : ∀ {p f}, s.pool.pageTable.lookup p = some f → h.Live p
  view : ∀ {p}, h.Live p → s.pool.view p = h.data p
  pending : ∀ {p}, h.pending p = true → h.Held p
  clean : ∀ {p}, h.pending p = false → s.pool.Clean p
  held : ∀ {p}, h.Held p → ∃ f, s.handle p = some f ∧ s.pool.pageTable.lookup p = some f
  count : ∀ {p f}, s.pool.pageTable.lookup p = some f → (s.pool.pages f).pinCount = h.pins p + stain f
  free : ∀ {f}, f ∈ s.pool.freeList → (s.pool.pages f).pinCount = stain f ∧ (s.pool.pages f).pageId = invalidPageId
  past : ∀ {p}, h.dead p = true → p < h.nextPageId
  nonneg : 0 ≤ h.nextPageId
  length : h.pageSet.length = s.pageSet.length
  distinct : h.pageSet.Nodup
  frames : s.pageSet.Nodup
  paired : ∀ {p f}, (p, f) ∈ h.pageSet.zip s.pageSet → h.dead p = false → s.pool.pageTable.lookup p = some f
  stained : ∀ f, stain f ≤ 1 ∧ (stain f ≠ 0 → ∃ p, (p, f) ∈ h.pageSet.zip s.pageSet ∧ h.dead p = true ∧ 0 < h.pins p)

namespace Shows

variable {h h' : Heap (PageData K V)} {s : Session n (PageData K V)} {stain : Fin n → Nat} {p q : PageId} {f g : Fin n}
  {b : BufferPool n (MemDisk (PageData K V)) (PageData K V)}

theorem evictable (hs : Shows h s stain) : Evictable s.pool := by
  intro p f hp hzero
  have hcount := hs.count hp
  refine hs.clean (Bool.eq_false_iff.mpr fun hpending => ?_)
  have hpos := (hs.pending hpending).2
  omega

theorem unstained (hs : Shows h s stain) (hf : f ∉ s.pool.freeList) (hzero : (s.pool.pages f).pinCount = 0) :
    stain f = 0 := by
  have hcount := hs.count (hs.inv.bound hf)
  omega

theorem pins_absent (hs : Shows h s stain) (hd : h.dead p = false) (hl : s.pool.pageTable.lookup p = none) :
    h.pins p = 0 := by
  by_contra hpos
  obtain ⟨g, _, hg⟩ := hs.held ⟨hd, Nat.pos_of_ne_zero hpos⟩
  rw [hl] at hg
  cases hg

theorem paired_spared (hs : Shows h s stain) (hi : Inv b) (hfree : ∀ {g}, g ∈ b.freeList → g ∈ s.pool.freeList)
    (hspare : s.spares (some (f, b)) = true) (hp : (p, g) ∈ h.pageSet.zip s.pageSet) (hd : h.dead p = false) :
    b.pageTable.lookup p = some g := by
  have hl := hs.paired hp hd
  have hnot := hs.inv.not_free hl
  have hkept := List.all_eq_true.mp hspare g (List.of_mem_zip hp).2
  have hid := eq_of_beq (((Bool.or_eq_true _ _).mp hkept).resolve_left fun hc => hnot (List.contains_iff_mem.mp hc))
  have hbound := hi.bound (fun hg => hnot (hfree hg))
  rwa [hid, hs.inv.agrees hl] at hbound

theorem taken (hs : Shows h s stain) {stain' : Fin n → Nat} (hi : Inv b) (hfr : Fresh b)
    (hhere : b.pageTable.lookup p = some f)
    (hothers : ∀ {q g}, b.pageTable.lookup q = some g → q ≠ p →
      s.pool.pageTable.lookup q = some g ∧ b.pages g = s.pool.pages g)
    (hkeeps : ∀ {q g}, s.pool.pageTable.lookup q = some g → 0 < (s.pool.pages g).pinCount →
      b.pageTable.lookup q = some g)
    (hfree : ∀ {g}, g ∈ b.freeList → g ∈ s.pool.freeList ∧ b.pages g = s.pool.pages g)
    (hspare : s.spares (some (f, b)) = true) (hnext : b.disk.nextPageId = h'.nextPageId)
    (hle : h.nextPageId ≤ h'.nextPageId)
    (hmembers : h'.members = h.members) (hset : h'.pageSet = h.pageSet) (hdead : h'.dead = h.dead) (hp : h'.Live p)
    (hpins : ∀ {q}, q ≠ p → h'.pins q = h.pins q) (hpos : 0 < h'.pins p)
    (hview : ∀ {q}, h'.Live q → b.view q = h'.data q)
    (hpending : ∀ {q}, h'.pending q = true → h.pending q = true) (hclean : ∀ {q}, h'.pending q = false → b.Clean q)
    (hcount : (b.pages f).pinCount = h'.pins p + stain' f) (hstain : ∀ {g}, g ≠ f → stain' g = stain g)
    (hself : stain' f = stain f ∨ stain' f = 0) : Shows h' (s.hand p f b) stain' where
  inv := hi
  fresh := hfr
  next := hnext
  members := hs.members.trans hmembers.symm
  resident := by
    intro q g hq
    by_cases hqp : q = p
    · rw [hqp]
      exact hp
    · obtain ⟨hnn, hlt, hd⟩ := hs.resident (hothers hq hqp).1
      exact ⟨hnn, Int.lt_of_lt_of_le hlt hle, (congrFun hdead q).trans hd⟩
  view := hview
  pending := by
    intro q hq
    obtain ⟨hd, hpos'⟩ := hs.pending (hpending hq)
    refine ⟨(congrFun hdead q).trans hd, ?_⟩
    by_cases hqp : q = p
    · rwa [hqp]
    · rwa [hpins hqp]
  clean := hclean
  held := by
    rintro q ⟨hd, hpos'⟩
    by_cases hqp : q = p
    · rw [hqp]
      exact ⟨f, Function.update_self .., hhere⟩
    · rw [hpins hqp] at hpos'
      obtain ⟨g, hg, hl⟩ := hs.held ⟨(congrFun hdead q).symm.trans hd, hpos'⟩
      have hc := hs.count hl
      exact ⟨g, (Function.update_of_ne hqp ..).trans hg, hkeeps hl (by omega)⟩
  count := by
    intro q g hq
    by_cases hqp : q = p
    · rw [hqp] at hq ⊢
      obtain rfl := Option.some.inj (hq.symm.trans hhere)
      exact hcount
    · obtain ⟨hl, hsame⟩ := hothers hq hqp
      have hgf : g ≠ f := by
        rintro rfl
        exact hqp (hi.injective hq hhere)
      rw [hpins hqp, hstain hgf]
      exact (congrArg Page.pinCount hsame).trans (hs.count hl)
  free := by
    intro g hg
    obtain ⟨hmem, hsame⟩ := hfree hg
    have hgf : g ≠ f := by
      rintro rfl
      exact hi.not_free hhere hg
    show (b.pages g).pinCount = _ ∧ (b.pages g).pageId = _
    rw [hsame, hstain hgf]
    exact hs.free hmem
  past hd := Int.lt_of_lt_of_le (hs.past (hdead ▸ hd)) hle
  nonneg := Int.le_trans hs.nonneg hle
  length := hset ▸ hs.length
  distinct := hset ▸ hs.distinct
  frames := hs.frames
  paired := by
    intro q g hq hd
    rw [hset] at hq
    exact hs.paired_spared hi (fun hg => (hfree hg).1) hspare hq (hdead ▸ hd)
  stained := by
    intro g
    have hcases : stain' g = stain g ∨ stain' g = 0 := by
      by_cases hgf : g = f
      · rwa [hgf]
      · exact .inl (hstain hgf)
    rw [hset, hdead]
    rcases hcases with hg | hg
    · rw [hg]
      refine ⟨(hs.stained g).1, fun hne => ?_⟩
      obtain ⟨q, hq, hd, hpos'⟩ := (hs.stained g).2 hne
      have hqp : q ≠ p := by
        rintro rfl
        exact Bool.false_ne_true (hp.2.2.symm.trans ((congrFun hdead q).trans hd))
      exact ⟨q, hq, hd, by rwa [hpins hqp]⟩
    · rw [hg]
      exact ⟨Nat.zero_le 1, fun hne => absurd rfl hne⟩

theorem fetchPage (hs : Shows h s stain) (hp : h.Live p) (hf : s.pool.fetchPage p = some (f, b))
    (hspare : s.spares (some (f, b)) = true) : Shows (h.pin p) (s.hand p f b) stain := by
  have hfetched := fetchPage_fetched hs.inv hs.evictable hs.fresh hf
  have hpin : (h.pin p).pins p = h.pins p + 1 := Function.update_self ..
  have hcount : (s.pool.pages f).pinCount = h.pins p + stain f := by
    rcases hfetched.was with hl | ⟨hl, hwas⟩
    · exact hs.count hl
    · rw [hs.pins_absent hp.2.2 hl, Nat.zero_add]
      by_cases hmem : f ∈ s.pool.freeList
      · exact (hs.free hmem).1
      · have hzero := hwas.resolve_left hmem
        rw [hzero, hs.unstained hmem hzero]
  refine hs.taken (hs.inv.fetchPage hf) (hs.fresh.fetchPage hs.inv (hs.next ▸ hp.2.1) hf) hfetched.here hfetched.others
    hfetched.keeps (fetchPage_free hs.inv hf) hspare (hfetched.next_eq.trans hs.next) (Int.le_refl _) rfl rfl rfl hp
    (fun hq => Function.update_of_ne hq ..) ?_ (fun hq => (hfetched.view_eq _).trans (hs.view hq)) id
    (fun hq => hfetched.clean _ (hs.clean hq)) ?_ (fun _ => rfl) (.inl rfl)
  · rw [hpin]
    exact Nat.succ_pos _
  · rw [hpin]
    refine hfetched.count.trans ?_
    omega

theorem newPage (hs : Shows h s stain) (hf : s.pool.newPage = some (f, b)) (hspare : s.spares (some (f, b)) = true) :
    (b.pages f).pageId = h.nextPageId ∧ Shows h.create (s.hand h.nextPageId f b) (Function.update stain f 0) := by
  have hcreated := newPage_created hs.inv hs.evictable hs.fresh hf
  have hhere : b.pageTable.lookup h.nextPageId = some f := hs.next ▸ hcreated.here
  have hpage : b.pages f = ⟨default, h.nextPageId, 1, false⟩ := hs.next ▸ hcreated.page
  have hpin : h.create.pins h.nextPageId = 1 := Function.update_self ..
  have hdead : h.create.dead = h.dead := by
    refine Function.update_eq_self_iff.mpr ?_
    cases hd : h.dead h.nextPageId with
    | false => rfl
    | true => exact absurd (hs.past hd) (Int.lt_irrefl _)
  refine ⟨congrArg Page.pageId hpage, hs.taken hcreated.inv hcreated.fresh hhere
    (fun hq hne => hcreated.others hq (hs.next ▸ hne)) hcreated.keeps (newPage_free hs.inv hf) hspare
    (hcreated.next_eq.trans (congrArg (· + 1) hs.next)) (Int.le_of_lt (Int.lt_succ _)) rfl rfl hdead
    ⟨hs.nonneg, Int.lt_succ _, Function.update_self ..⟩ (fun hq => Function.update_of_ne hq ..) ?_ ?_ ?_ ?_ ?_
    (fun hg => Function.update_of_ne hg ..) (.inr (Function.update_self ..))⟩
  · rw [hpin]
    exact Nat.one_pos
  · intro q hq
    show b.view q = Function.update h.data h.nextPageId default q
    by_cases hqn : q = h.nextPageId
    · rw [hqn, Function.update_self, view_resident hhere, hpage]
    · rw [Function.update_of_ne hqn, hcreated.view_eq q (hs.next ▸ hqn)]
      exact hs.view ⟨hq.1, lt_of_le_of_ne (Int.le_of_lt_add_one hq.2.1) hqn, (congrFun hdead q).symm.trans hq.2.2⟩
  · intro q hq
    have hqn : q ≠ h.nextPageId := by
      rintro rfl
      exact absurd ((Function.update_self ..).symm.trans hq) Bool.false_ne_true
    exact (Function.update_of_ne hqn ..).symm.trans hq
  · intro q hq
    refine hcreated.clean q ?_
    by_cases hqn : q = h.nextPageId
    · exact .inr (hqn.trans hs.next.symm)
    · exact .inl (hs.clean ((Function.update_of_ne hqn ..).symm.trans hq))
  · rw [hpage, hpin, Function.update_self]

/-- `UnpinPage` leaves all as it is but the pins on one frame; `stain'` has the pins that
the heap does not count. -/
theorem unpinned (hs : Shows h s stain) (d : Bool) {stain' : Fin n → Nat} (hd : h'.dead = h.dead)
    (hdata : h'.data = h.data) (hnext : h'.nextPageId = h.nextPageId) (hmembers : h'.members = h.members)
    (hset : h'.pageSet = h.pageSet) (hpending : ∀ {q}, h'.pending q = true → h'.Held q)
    (hclean : ∀ {q}, h'.pending q = false → (s.pool.unpinPage p d).2.Clean q) (hle : ∀ q, h'.pins q ≤ h.pins q)
    (hsame : ∀ {q}, h.dead q = true → h'.pins q = h.pins q)
    (hcount : ∀ {q f}, s.pool.pageTable.lookup q = some f →
      ((s.pool.unpinPage p d).2.pages f).pinCount = h'.pins q + stain' f)
    (hfree : ∀ {f}, f ∈ s.pool.freeList → ((s.pool.unpinPage p d).2.pages f).pinCount = stain' f)
    (hstain : ∀ f, stain' f ≤ stain f) : Shows h' (s.setPool (s.pool.unpinPage p d).2) stain' := by
  obtain ⟨htable, hlist, hdisk⟩ := unpinPage_frame (b := s.pool) p d
  have hlive : ∀ {q}, h'.Live q ↔ h.Live q := by
    intro q
    unfold Heap.Live
    rw [hd, hnext]
  refine ⟨hs.inv.unpinPage d, hs.fresh.unpinPage d, ?_, hs.members.trans hmembers.symm, ?_, ?_, hpending, hclean, ?_,
    ?_, ?_, ?_, ?_, ?_, ?_, hs.frames, ?_, ?_⟩
  · rw [hnext]
    exact (congrArg MemDisk.nextPageId hdisk).trans hs.next
  · intro q f hq
    exact hlive.mpr (hs.resident ((congrArg (AList.lookup q) htable).symm.trans hq))
  · intro q hq
    rw [hdata]
    exact (unpinPage_view hs.inv d q).1.trans (hs.view (hlive.mp hq))
  · rintro q ⟨hdq, hpos⟩
    obtain ⟨f, hf, hl⟩ := hs.held ⟨hd ▸ hdq, Nat.lt_of_lt_of_le hpos (hle q)⟩
    exact ⟨f, hf, (congrArg (AList.lookup q) htable).trans hl⟩
  · intro q f hq
    exact hcount ((congrArg (AList.lookup q) htable).symm.trans hq)
  · intro f hf
    have hf : f ∈ s.pool.freeList := hlist ▸ hf
    exact ⟨hfree hf, (unpinPage_pageId p d f).trans (hs.free hf).2⟩
  · intro q hq
    rw [hnext]
    exact hs.past (hd ▸ hq)
  · rw [hnext]
    exact hs.nonneg
  · rw [hset]
    exact hs.length
  · rw [hset]
    exact hs.distinct
  · intro q f hq hdq
    rw [hset] at hq
    exact (congrArg (AList.lookup q) htable).trans (hs.paired hq (hd ▸ hdq))
  · intro f
    obtain ⟨hone, hwhy⟩ := hs.stained f
    rw [hset, hd]
    refine ⟨Nat.le_trans (hstain f) hone, fun hne => ?_⟩
    obtain ⟨q, hq, hdq, hpos⟩ := hwhy (fun hz => hne (Nat.le_zero.mp (hz ▸ hstain f)))
    exact ⟨q, hq, hdq, by rwa [hsame hdq]⟩

theorem unpinPage {d : Bool} (hs : Shows h s stain) (hp : h.Held p) (hd : h.pending p = true → d = true) :
    Shows (h.unpin p) (s.setPool (s.pool.unpinPage p d).2) stain := by
  obtain ⟨f, _, hl⟩ := hs.held hp
  have hpins : ∀ {q}, q ≠ p → (h.unpin p).pins q = h.pins q := fun hq => Function.update_of_ne hq ..
  have hpin : (h.unpin p).pins p = h.pins p - 1 := Function.update_self ..
  have hpend : ∀ {q}, q ≠ p → (h.unpin p).pending q = h.pending q := fun hq => Function.update_of_ne hq ..
  refine hs.unpinned d rfl rfl rfl rfl rfl ?_ ?_ ?_ ?_ ?_ ?_ fun _ => Nat.le_refl _
  · intro q hq
    have hqp : q ≠ p := by
      rintro rfl
      exact absurd ((Function.update_self ..).symm.trans hq) Bool.false_ne_true
    obtain ⟨hdq, hpos⟩ := hs.pending ((hpend hqp).symm.trans hq)
    exact ⟨hdq, by rwa [hpins hqp]⟩
  · intro q hq
    by_cases hqp : q = p
    · rw [hqp]
      cases hdirty : h.pending p with
      | true =>
          rw [hd hdirty]
          exact unpinPage_dirty hl
      | false => exact (unpinPage_view hs.inv d p).2 (hs.clean hdirty)
    · exact (unpinPage_view hs.inv d q).2 (hs.clean ((hpend hqp).symm.trans hq))
  · intro q
    by_cases hqp : q = p
    · rw [hqp, hpin]
      exact Nat.sub_le _ _
    · rw [hpins hqp]
  · intro q hdq
    refine hpins ?_
    rintro rfl
    rw [hp.1] at hdq
    cases hdq
  · intro q g hq
    rw [unpinPage_pinCount hl, hs.count hq]
    by_cases hqp : q = p
    · rw [hqp] at hq ⊢
      have hpos := hp.2
      rw [if_pos (Option.some.inj (hq.symm.trans hl)), hpin]
      omega
    · have hgf : g ≠ f := by
        rintro rfl
        exact hqp (hs.inv.injective hq hl)
      rw [if_neg hgf, hpins hqp, Nat.sub_zero]
  · intro g hg
    have hgf : g ≠ f := by
      rintro rfl
      exact hs.inv.not_free hl hg
    rw [unpinPage_pinCount hl, if_neg hgf]
    exact (hs.free hg).1

theorem unpinPage_loose (hs : Shows h s stain) (hp : ¬ h.Held p) (d : Bool) :
    ∃ stain', Shows h (s.setPool (s.pool.unpinPage p d).2) stain' := by
  cases hl : s.pool.pageTable.lookup p with
  | none =>
      have hsame : (s.pool.unpinPage p d).2 = s.pool := by
        unfold BufferPool.unpinPage
        rw [hl]
      rw [hsame]
      exact ⟨stain, hs⟩
  | some f =>
      have hzero : h.pins p = 0 := Nat.eq_zero_of_not_pos fun hpos => hp ⟨(hs.resident hl).2.2, hpos⟩
      refine ⟨Function.update stain f (stain f - 1), hs.unpinned d rfl rfl rfl rfl rfl hs.pending
        (fun hq => (unpinPage_view hs.inv d _).2 (hs.clean hq)) (fun _ => Nat.le_refl _) (fun _ => rfl) ?_ ?_ ?_⟩
      · intro q g hq
        rw [unpinPage_pinCount hl, hs.count hq]
        by_cases hgf : g = f
        · obtain rfl : q = p := hs.inv.injective hq (hgf ▸ hl)
          rw [if_pos hgf, hgf, Function.update_self, hzero, Nat.zero_add, Nat.zero_add]
        · rw [if_neg hgf, Function.update_of_ne hgf, Nat.sub_zero]
      · intro g hg
        have hgf : g ≠ f := by
          rintro rfl
          exact hs.inv.not_free hl hg
        rw [unpinPage_pinCount hl, if_neg hgf, Function.update_of_ne hgf]
        exact (hs.free hg).1
      · intro g
        by_cases hgf : g = f
        · rw [hgf, Function.update_self]
          exact Nat.sub_le _ _
        · rw [Function.update_of_ne hgf]

theorem deleted (hs : Shows h s stain) (hp : h.Live p) {stain' : Fin n → Nat}
    (hlook : ∀ {q g}, b.pageTable.lookup q = some g ↔ q ≠ p ∧ s.pool.pageTable.lookup q = some g)
    (hb : b = (s.pool.deletePage p).2) (hdisk : b.disk = s.pool.disk)
    (hcount : ∀ {q g}, q ≠ p → s.pool.pageTable.lookup q = some g → (b.pages g).pinCount = h.pins q + stain' g)
    (hfree : ∀ {g}, g ∈ b.freeList → (b.pages g).pinCount = stain' g ∧ (b.pages g).pageId = invalidPageId)
    (hstain : ∀ g, stain' g ≤ 1 ∧ (stain' g ≠ 0 → stain g ≠ 0 ∨ (p, g) ∈ h.pageSet.zip s.pageSet ∧ 0 < h.pins p)) :
    Shows (h.delete p) (s.setPool b) stain' := by
  have hne : ∀ {q}, (h.delete p).dead q = false → q ≠ p ∧ h.dead q = false := by
    intro q hq
    have hqp : q ≠ p := by
      rintro rfl
      rw [show (h.delete q).dead q = true from Function.update_self ..] at hq
      cases hq
    exact ⟨hqp, (Function.update_of_ne hqp ..).symm.trans hq⟩
  have hdead : ∀ {q}, q ≠ p → (h.delete p).dead q = h.dead q := fun hq => Function.update_of_ne hq ..
  have hpend : ∀ {q}, q ≠ p → (h.delete p).pending q = h.pending q := fun hq => Function.update_of_ne hq ..
  have hview : ∀ {q}, q ≠ p → b.view q = s.pool.view q ∧ (s.pool.Clean q → b.Clean q) := by
    intro q hq
    rw [hb]
    exact deletePage_absent hs.inv hq
  refine { hs with
    inv := hb ▸ hs.inv.deletePage
    fresh := ?_
    next := (congrArg MemDisk.nextPageId hdisk).trans hs.next
    resident := ?_
    view := ?_
    pending := ?_
    clean := ?_
    held := ?_
    count := ?_
    free := hfree
    past := ?_
    paired := ?_
    stained := ?_ }
  · refine ⟨fun hq => ?_, fun hq => ?_⟩
    · show _ < b.disk.nextPageId
      rw [hdisk]
      exact hs.fresh.resident_lt (hlook.mp hq).2
    · change b.disk.nextPageId ≤ _ at hq
      show b.disk.content _ = _
      rw [hdisk] at hq ⊢
      exact hs.fresh.unwritten hq
  · intro q g hq
    obtain ⟨hqp, hl⟩ := hlook.mp hq
    obtain ⟨hnn, hlt, hd⟩ := hs.resident hl
    exact ⟨hnn, hlt, (hdead hqp).trans hd⟩
  · rintro q ⟨hnn, hlt, hd⟩
    obtain ⟨hqp, hd⟩ := hne hd
    exact ((hview hqp).1.trans (hs.view ⟨hnn, hlt, hd⟩)).trans (Function.update_of_ne hqp ..).symm
  · intro q hq
    have hqp : q ≠ p := by
      rintro rfl
      exact absurd ((Function.update_self ..).symm.trans hq) Bool.false_ne_true
    obtain ⟨hd, hpos⟩ := hs.pending ((hpend hqp).symm.trans hq)
    exact ⟨(hdead hqp).trans hd, hpos⟩
  · intro q hq
    by_cases hqp : q = p
    · intro g hg
      exact absurd hqp (hlook.mp hg).1
    · exact (hview hqp).2 (hs.clean ((hpend hqp).symm.trans hq))
  · rintro q ⟨hd, hpos⟩
    obtain ⟨hqp, hd⟩ := hne hd
    obtain ⟨g, hg, hl⟩ := hs.held ⟨hd, hpos⟩
    exact ⟨g, hg, hlook.mpr ⟨hqp, hl⟩⟩
  · intro q g hq
    obtain ⟨hqp, hl⟩ := hlook.mp hq
    exact hcount hqp hl
  · intro q hq
    by_cases hqp : q = p
    · rw [hqp]
      exact hp.2.1
    · exact hs.past ((hdead hqp).symm.trans hq)
  · intro q g hq hd
    obtain ⟨hqp, hd⟩ := hne hd
    exact hlook.mpr ⟨hqp, hs.paired hq hd⟩
  · intro g
    obtain ⟨hone, hwhy⟩ := hstain g
    refine ⟨hone, fun hne => ?_⟩
    rcases hwhy hne with hold | hnew
    · obtain ⟨q, hq, hd, hpos⟩ := (hs.stained g).2 hold
      refine ⟨q, hq, ?_, hpos⟩
      by_cases hqp : q = p
      · rw [hqp]
        exact Function.update_self ..
      · exact (hdead hqp).trans hd
    · exact ⟨p, hnew.1, Function.update_self .., hnew.2⟩

theorem exists_paired (hs : Shows h s stain) (hp : p ∈ h.pageSet) : ∃ f, (p, f) ∈ h.pageSet.zip s.pageSet := by
  obtain ⟨i, hi, rfl⟩ := List.getElem_of_mem hp
  have hi' : i < s.pageSet.length := hs.length ▸ hi
  exact ⟨s.pageSet[i], List.mem_of_getElem? (List.getElem?_zip_eq_some.mpr
    ⟨List.getElem?_eq_getElem hi, List.getElem?_eq_getElem hi'⟩)⟩

theorem exists_page (hs : Shows h s stain) (hf : f ∈ s.pageSet) : ∃ p, (p, f) ∈ h.pageSet.zip s.pageSet := by
  obtain ⟨i, hi, rfl⟩ := List.getElem_of_mem hf
  have hi' : i < h.pageSet.length := hs.length ▸ hi
  exact ⟨h.pageSet[i], List.mem_of_getElem? (List.getElem?_zip_eq_some.mpr
    ⟨List.getElem?_eq_getElem hi', List.getElem?_eq_getElem hi⟩)⟩

theorem unstained_paired (hs : Shows h s stain) (hp : (p, f) ∈ h.pageSet.zip s.pageSet) (hd : h.dead p = false) :
    stain f = 0 := by
  by_contra hne
  obtain ⟨q, hq, hdq, _⟩ := (hs.stained f).2 hne
  rw [zip_right_unique hs.frames hq hp, hd] at hdq
  cases hdq

theorem deletePage (hs : Shows h s stain) (hp : h.Live p) (hle : h.pins p ≤ h.pageSet.count p) :
    ∃ stain', Shows (h.delete p) (s.setPool (s.pool.deletePage p).2) stain' := by
  cases hl : s.pool.pageTable.lookup p with
  | none =>
      have hsame := deletePage_of_none hl
      refine ⟨stain, hs.deleted hp ?_ rfl ?_ ?_ ?_ fun g => ⟨(hs.stained g).1, .inl⟩⟩
      · intro q g
        rw [hsame]
        refine ⟨fun hq => ⟨?_, hq⟩, And.right⟩
        rintro rfl
        rw [hl] at hq
        cases hq
      · rw [hsame]
      · intro q g _ hq
        rw [hsame]
        exact hs.count hq
      · rw [hsame]
        exact hs.free
  | some f =>
      obtain ⟨hpages, hlist, hdisk⟩ := deletePage_pages hl
      have hcount := hs.count hl
      refine ⟨Function.update stain f (s.pool.pages f).pinCount,
        hs.deleted hp (deletePage_lookup hl) rfl hdisk ?_ ?_ ?_⟩
      · intro q g hqp hq
        have hgf : g ≠ f := by
          rintro rfl
          exact hqp (hs.inv.injective hq hl)
        rw [hpages, Function.update_of_ne hgf, Function.update_of_ne hgf]
        exact hs.count hq
      · intro g hg
        rw [hpages]
        by_cases hgf : g = f
        · rw [hgf, Function.update_self, Function.update_self]
          exact ⟨rfl, rfl⟩
        · rw [Function.update_of_ne hgf, Function.update_of_ne hgf]
          rw [hlist] at hg
          exact hs.free ((List.mem_append.mp hg).resolve_right fun hm => hgf (List.mem_singleton.mp hm))
      · intro g
        by_cases hgf : g = f
        · rw [hgf, Function.update_self, hcount]
          by_cases hmem : p ∈ h.pageSet
          · obtain ⟨f', hf'⟩ := hs.exists_paired hmem
            obtain rfl := Option.some.inj (hl.symm.trans (hs.paired hf' hp.2.2))
            rw [List.count_eq_one_of_mem hs.distinct hmem] at hle
            rw [hs.unstained_paired hf' hp.2.2]
            exact ⟨hle, fun hne => .inr ⟨hf', Nat.pos_of_ne_zero hne⟩⟩
          · rw [List.count_eq_zero_of_not_mem hmem] at hle
            rw [Nat.le_zero.mp hle, Nat.zero_add]
            exact ⟨(hs.stained f).1, .inl⟩
        · rw [Function.update_of_ne hgf]
          exact ⟨(hs.stained g).1, .inl⟩

theorem setData (hs : Shows h s stain) (hp : h.Held p) (data : PageData K V) :
    ∃ f, s.handle p = some f ∧ Shows (h.put p data) (s.setPool (s.pool.writeData f data)) stain := by
  obtain ⟨f, hf, hl⟩ := hs.held hp
  obtain ⟨hview, hclean⟩ := writeData_view hs.inv hl data
  have hpage : ∀ g, ((s.pool.writeData f data).pages g).pinCount = (s.pool.pages g).pinCount ∧
      ((s.pool.writeData f data).pages g).pageId = (s.pool.pages g).pageId := by
    intro g
    by_cases hgf : g = f
    · rw [hgf, show (s.pool.writeData f data).pages f = { s.pool.pages f with data := data }
        from Function.update_self ..]
      exact ⟨rfl, rfl⟩
    · exact ⟨congrArg Page.pinCount (Function.update_of_ne hgf ..), congrArg Page.pageId (Function.update_of_ne hgf ..)⟩
  have hpend : ∀ {q}, q ≠ p → (h.put p data).pending q = h.pending q := fun hq => Function.update_of_ne hq ..
  refine ⟨f, hf, { hs with
    inv := hs.inv.writeData hl data
    fresh := ⟨hs.fresh.resident_lt, hs.fresh.unwritten⟩
    view := ?_
    pending := ?_
    clean := ?_
    count := fun hq => (hpage _).1.trans (hs.count hq)
    free := fun hg => ⟨(hpage _).1.trans (hs.free hg).1, (hpage _).2.trans (hs.free hg).2⟩ }⟩
  · intro q hq
    show (s.pool.writeData f data).view q = Function.update h.data p data q
    rw [hview]
    by_cases hqp : q = p
    · rw [hqp, Function.update_self, Function.update_self]
    · rw [Function.update_of_ne hqp, Function.update_of_ne hqp]
      exact hs.view hq
  · intro q hq
    by_cases hqp : q = p
    · rw [hqp]
      exact hp
    · exact hs.pending ((hpend hqp).symm.trans hq)
  · intro q hq
    have hqp : q ≠ p := by
      rintro rfl
      exact absurd (hq.symm.trans (Function.update_self ..)) Bool.false_ne_true
    exact hclean q hqp (hs.clean ((hpend hqp).symm.trans hq))

theorem getData (hs : Shows h s stain) (hp : h.Held p) :
    ∃ f, s.handle p = some f ∧ (s.pool.pages f).data = h.data p := by
  obtain ⟨f, hf, hl⟩ := hs.held hp
  exact ⟨f, hf, (view_resident hl).symm.trans (hs.view (hs.resident hl))⟩

theorem setPageSet_nil (hs : Shows h s stain) (hd : ∀ p ∈ h.pageSet, h.dead p = false) :
    Shows (h.setPageSet []) { s with pageSet := [] } stain := by
  have hzero : ∀ f, stain f = 0 := by
    intro f
    by_contra hne
    obtain ⟨q, hq, hdq, _⟩ := (hs.stained f).2 hne
    rw [hd q (List.of_mem_zip hq).1] at hdq
    cases hdq
  exact { hs with
    length := rfl
    distinct := List.nodup_nil
    frames := List.nodup_nil
    paired := fun hq => absurd hq List.not_mem_nil
    stained := fun f => ⟨(hs.stained f).1, fun hne => absurd (hzero f) hne⟩ }

theorem addIntoPageSet (hs : Shows h s stain) (hp : h.Held p) (hnot : p ∉ h.pageSet)
    (hall : ∀ q ∈ h.pageSet, h.Held q) :
    ∃ f, s.handle p = some f ∧
      Shows (h.setPageSet (h.pageSet ++ [p])) { s with pageSet := s.pageSet ++ [f] } stain := by
  obtain ⟨f, hf, hl⟩ := hs.held hp
  have hzip : (h.pageSet ++ [p]).zip (s.pageSet ++ [f]) = h.pageSet.zip s.pageSet ++ [(p, f)] := by
    rw [List.zip_append hs.length]
    rfl
  have hnew : f ∉ s.pageSet := by
    intro hmem
    obtain ⟨q, hq⟩ := hs.exists_page hmem
    have hqset := (List.of_mem_zip hq).1
    have hlq := hs.paired hq (hall q hqset).1
    exact hnot (hs.inv.injective hlq hl ▸ hqset)
  refine ⟨f, hf, { hs with
    length := ?_
    distinct := ?_
    frames := ?_
    paired := ?_
    stained := ?_ }⟩
  · show (h.pageSet ++ [p]).length = (s.pageSet ++ [f]).length
    rw [List.length_append, List.length_append, hs.length]
    rfl
  · exact hs.distinct.append (List.nodup_singleton p) (List.disjoint_singleton.mpr hnot)
  · exact hs.frames.append (List.nodup_singleton f) (List.disjoint_singleton.mpr hnew)
  · intro q g hq hd
    change (q, g) ∈ (h.pageSet ++ [p]).zip (s.pageSet ++ [f]) at hq
    rw [hzip] at hq
    rcases List.mem_append.mp hq with hq | hq
    · exact hs.paired hq hd
    · obtain ⟨rfl, rfl⟩ := Prod.mk.inj (List.mem_singleton.mp hq)
      exact hl
  · intro g
    obtain ⟨hone, hwhy⟩ := hs.stained g
    refine ⟨hone, fun hne => ?_⟩
    obtain ⟨q, hq, hd, hpos⟩ := hwhy hne
    refine ⟨q, ?_, hd, hpos⟩
    show (q, g) ∈ (h.pageSet ++ [p]).zip (s.pageSet ++ [f])
    rw [hzip]
    exact List.mem_append_left _ hq

theorem pageSetPageId {i : Nat} (hs : Shows h s stain) (hi : h.pageSet[i]? = some p) (hp : h.Held p) :
    ∃ f, s.pageSet[i]? = some f ∧ (s.pool.pages f).pageId = p := by
  obtain ⟨hlt, _⟩ := List.getElem?_eq_some_iff.mp hi
  have hf := List.getElem?_eq_getElem (hs.length ▸ hlt)
  have hmem : (p, _) ∈ h.pageSet.zip s.pageSet := List.mem_of_getElem? (List.getElem?_zip_eq_some.mpr ⟨hi, hf⟩)
  exact ⟨_, hf, hs.inv.agrees (hs.paired hmem hp.1)⟩

theorem unlatch (hs : Shows h s stain) (op : OpType) (f : Option (Fin n)) : Shows h (s.unlatch op f) stain := by
  cases f with
  | none => exact hs
  | some f => exact { hs with }

theorem request {o : PoolOp (PageData K V)} {r : o.Ans} (hs : Shows h s stain) (hroom : Session.room o s = true)
    (hin : o.inside = true) (ho : Heap.handler o h = some (r, h')) :
    ∃ y stain', Session.handler o s = some (r, y) ∧ Shows h' y stain' := by
  cases o with
  | newPage =>
      cases ho
      cases hf : s.pool.newPage with
      | none =>
          rw [Session.room, hf] at hroom
          cases hroom
      | some x =>
          rw [Session.room, hf] at hroom
          obtain ⟨hid, hs'⟩ := hs.newPage hf hroom
          refine ⟨_, _, ?_, hs'⟩
          simp only [Session.handler, hf, hid]
  | fetchPage p =>
      simp only [Heap.handler] at ho
      split at ho
      · next hlive =>
          cases ho
          cases hf : s.pool.fetchPage p with
          | none =>
              rw [Session.room, hf] at hroom
              cases hroom
          | some x =>
              rw [Session.room, hf] at hroom
              refine ⟨_, _, ?_, hs.fetchPage hlive hf hroom⟩
              simp only [Session.handler, hf]
      · cases ho
  | unpinPage p d =>
      simp only [Heap.handler] at ho
      split at ho
      · next hheld =>
          split at ho
          · cases ho
          · next hdirty =>
              cases ho
              refine ⟨_, _, rfl, hs.unpinPage hheld fun hp => ?_⟩
              exact Bool.of_not_eq_false fun hd => hdirty ⟨hp, hd⟩
      · next hheld =>
          cases ho
          obtain ⟨stain', hs'⟩ := hs.unpinPage_loose hheld d
          exact ⟨_, stain', rfl, hs'⟩
  | deletePage p =>
      simp only [Heap.handler] at ho
      split at ho
      · next hp =>
          cases ho
          obtain ⟨stain', hs'⟩ := hs.deletePage hp.1 hp.2
          exact ⟨_, stain', rfl, hs'⟩
      · cases ho
  | getData p =>
      simp only [Heap.handler] at ho
      split at ho
      · next hp =>
          cases ho
          obtain ⟨f, hf, hdata⟩ := hs.getData hp
          refine ⟨s, stain, ?_, hs⟩
          rw [Session.handler, hf, ← hdata]
          rfl
      · cases ho
  | setData p data =>
      simp only [Heap.handler] at ho
      split at ho
      · next hp =>
          cases ho
          obtain ⟨f, hf, hs'⟩ := hs.setData hp data
          refine ⟨_, stain, ?_, hs'⟩
          rw [Session.handler, hf]
          exact if_pos hin
      · cases ho
  | newTransaction | clearPageSet =>
      simp only [Heap.handler] at ho
      split at ho
      · next hd =>
          cases ho
          exact ⟨_, stain, rfl, { hs.setPageSet_nil hd with }⟩
      · cases ho
  | addIntoPageSet p =>
      simp only [Heap.handler] at ho
      split at ho
      · next hp =>
          cases ho
          obtain ⟨f, hf, hs'⟩ := hs.addIntoPageSet hp.1 hp.2.1 hp.2.2
          refine ⟨_, stain, ?_, hs'⟩
          rw [Session.handler, hf]
          rfl
      · cases ho
  | pageSetPageId i =>
      obtain ⟨p, hp, hh⟩ := Option.bind_eq_some_iff.mp ho
      split at hh
      · next hheld =>
          cases hh
          obtain ⟨f, hf, hid⟩ := hs.pageSetPageId hp hheld
          refine ⟨s, stain, ?_, hs⟩
          rw [Session.handler, hf, ← hid]
          rfl
      · cases hh
  | pageSetSize =>
      cases ho
      refine ⟨s, stain, ?_, hs⟩
      rw [Session.handler, hs.length]
  | getMember m =>
      cases ho
      refine ⟨s, stain, ?_, hs⟩
      rw [Session.handler, hs.members]
  | setMember m p =>
      cases ho
      exact ⟨_, stain, rfl, { hs with members := congrArg (Function.update · m p) hs.members }⟩
  | latch p op =>
      simp only [Heap.handler] at ho
      split at ho
      · next hp =>
          cases ho
          obtain ⟨f, hf, _⟩ := hs.held hp
          rw [Session.room, hf] at hroom
          refine ⟨{ s with latches := (f, op) :: s.latches }, stain, ?_, { hs with }⟩
          rw [Session.handler, hf]
          exact if_neg fun hl => by rw [Option.all_some, hl] at hroom; cases hroom
      · cases ho
  | unlatch | pageSetUnlatch =>
      cases ho
      exact ⟨_, stain, rfl, hs.unlatch _ _⟩
  | lockRoot | unlockRoot =>
      cases ho
      exact ⟨s, stain, rfl, hs⟩

theorem observed {o : PoolOp (PageData K V)} {r : o.Ans} (hs : Shows h' s stain) :
    Shows (Heap.observe h h' o r) s stain :=
  { hs with }

end Shows

theorem simulates_session {F : Regime K V} (hF : ∀ i, F i = false) (hin : ∀ data, F.limit data → data.inside = true) :
    SimulatesWhile (fun o (s : Session n (PageData K V)) => s.room o = true) (Heap.failing F) Session.handler
      fun x s => ∃ stain, Shows x.1 s stain := by
  rintro o x s r y ⟨stain, hs⟩ hroom ho
  obtain ⟨z, hz, hy, hp⟩ := Heap.failing_grants hF ho
  obtain ⟨w, stain', hw, hs'⟩ := hs.request hroom (Heap.permits_inside hin hp) hz
  exact ⟨w, hw, stain', hy ▸ hs'.observed⟩

end DBPlayground.Storage
