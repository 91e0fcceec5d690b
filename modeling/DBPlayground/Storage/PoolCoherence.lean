import DBPlayground.Storage.PoolView

namespace DBPlayground.Storage

/-- A pin that a client holds: the page, the frame handed out for it, and
whether the client has written through it. -/
structure Pin (n : Nat) where
  page : PageId
  frame : Fin n
  wrote : Bool

/-- The pool with the history of its clients: the pins they hold, the ids they
were given, the pages they deleted and the bytes last written to each page. -/
structure Clients (n : Nat) (α : Type) where
  pool : BufferPool n (MemDisk α) α
  pins : List (Pin n)
  issued : List PageId
  deleted : List PageId
  written : PageId → α

namespace Clients

open BufferPool

variable {n : Nat} {α : Type} [Inhabited α]

def start (n : Nat) : Clients n α := ⟨.new n .empty, [], [], [], fun _ => default⟩

def Idle (c : Clients n α) (p : PageId) : Prop :=
  ∀ f, c.pool.pageTable.lookup p = some f → (c.pool.pages f).pinCount = 0

/-- One call of a client. A client gives back the pins it holds, as dirty where
it wrote; a call of `UnpinPage` on a page without pins is refused by the pool.
`NewPage` and `FetchPage` with a null result change nothing. -/
inductive Step : Clients n α → Clients n α → Prop
  | newPage {c : Clients n α} {f : Fin n} {b : BufferPool n (MemDisk α) α} (h : c.pool.newPage = some (f, b)) :
      Step c { c with
        pool := b
        pins := ⟨(b.pages f).pageId, f, false⟩ :: c.pins
        issued := (b.pages f).pageId :: c.issued }
  | fetchPage {c : Clients n α} {p : PageId} {f : Fin n} {b : BufferPool n (MemDisk α) α} (hp : p ∈ c.issued)
      (h : c.pool.fetchPage p = some (f, b)) :
      Step c { c with pool := b, pins := ⟨p, f, false⟩ :: c.pins }
  | write {c : Clients n α} {l r : List (Pin n)} {x : Pin n} (h : c.pins = l ++ x :: r) (data : α) :
      Step c { c with
        pool := c.pool.writeData x.frame data
        pins := l ++ { x with wrote := true } :: r
        written := Function.update c.written x.page data }
  | unpinPage {c : Clients n α} {l r : List (Pin n)} {x : Pin n} {isDirty : Bool} (h : c.pins = l ++ x :: r)
      (hd : x.wrote = true → isDirty = true) :
      Step c { c with pool := (c.pool.unpinPage x.page isDirty).2, pins := l ++ r }
  | unpinIdle {c : Clients n α} {p : PageId} (h : c.Idle p) (isDirty : Bool) :
      Step c { c with pool := (c.pool.unpinPage p isDirty).2 }
  | flushPage {c : Clients n α} (p : PageId) : Step c { c with pool := (c.pool.flushPage p).2 }
  | flushAllPages {c : Clients n α} : Step c { c with pool := c.pool.flushAllPages }
  | deletePage {c : Clients n α} {p : PageId} (hp : p ∈ c.issued) (h : c.Idle p) :
      Step c { c with pool := (c.pool.deletePage p).2, deleted := p :: c.deleted }

inductive Reachable : Clients n α → Prop
  | start : Reachable (start n)
  | step {c c' : Clients n α} (h : Reachable c) (hs : Step c c') : Reachable c'

structure Coherent (c : Clients n α) : Prop where
  inv : Inv c.pool
  fresh : Fresh c.pool
  free_idle : ∀ {f}, f ∈ c.pool.freeList → (c.pool.pages f).pinCount = 0
  held : ∀ x ∈ c.pins, c.pool.pageTable.lookup x.page = some x.frame
  counted : ∀ {p f}, c.pool.pageTable.lookup p = some f →
    (c.pool.pages f).pinCount = c.pins.countP (·.page = p)
  clean : ∀ p, (∀ x ∈ c.pins, x.page = p → x.wrote = false) → c.pool.Clean p
  shows : ∀ p ∉ c.deleted, c.pool.view p = c.written p
  issued_lt : ∀ p ∈ c.issued, p < c.pool.disk.nextPageId
  deleted_issued : ∀ p ∈ c.deleted, p ∈ c.issued

variable {c c' : Clients n α} {p : PageId} {f : Fin n} {b : BufferPool n (MemDisk α) α}

theorem coherent_start : Coherent (start n : Clients n α) where
  inv := inv_new _
  fresh := ⟨fun h => by simp [start, new] at h, fun _ => rfl⟩
  free_idle _ := rfl
  held x hx := absurd hx List.not_mem_nil
  counted h := by simp [start, new] at h
  clean p _ f h := by simp [start, new] at h
  shows p _ := by simp [start, new, view, MemDisk.empty]
  issued_lt p hp := absurd hp List.not_mem_nil
  deleted_issued p hp := absurd hp List.not_mem_nil

theorem Coherent.evictable (h : Coherent c) : Evictable c.pool := by
  intro p f hp hzero
  refine h.clean p fun x hx he => ?_
  rw [h.counted hp, List.countP_eq_zero] at hzero
  exact absurd (decide_eq_true he) (hzero x hx)

theorem Coherent.pinned (h : Coherent c) {x : Pin n} (hx : x ∈ c.pins) :
    0 < (c.pool.pages x.frame).pinCount := by
  rw [h.counted (h.held x hx), List.countP_pos_iff]
  exact ⟨x, hx, decide_eq_true rfl⟩

theorem Coherent.countP_absent (h : Coherent c) (hp : c.pool.pageTable.lookup p = none) :
    c.pins.countP (·.page = p) = 0 := by
  rw [List.countP_eq_zero]
  intro x hx he
  have hl := h.held x hx
  rw [of_decide_eq_true he, hp] at hl
  cases hl

theorem Coherent.absent_next (h : Coherent c) : c.pool.pageTable.lookup c.pool.disk.nextPageId = none := by
  cases hl : c.pool.pageTable.lookup c.pool.disk.nextPageId with
  | none => rfl
  | some f => exact absurd (h.fresh.resident_lt hl) (lt_irrefl _)

theorem countP_cons_ne {l : List (Pin n)} {x : Pin n} (h : p ≠ x.page) :
    (x :: l).countP (·.page = p) = l.countP (·.page = p) :=
  List.countP_cons_of_neg fun he => h (of_decide_eq_true he).symm

theorem countP_cons_self {l : List (Pin n)} {w : Bool} :
    (⟨p, f, w⟩ :: l : List (Pin n)).countP (·.page = p) = l.countP (·.page = p) + 1 :=
  List.countP_cons_of_pos (decide_eq_true rfl)

theorem Coherent.newPage (h : Coherent c) (hn : c.pool.newPage = some (f, b)) :
    Coherent { c with
      pool := b
      pins := ⟨(b.pages f).pageId, f, false⟩ :: c.pins
      issued := (b.pages f).pageId :: c.issued } := by
  have hc := newPage_created h.inv h.evictable h.fresh hn
  rw [hc.page]
  refine ⟨hc.inv, hc.fresh, ?_, ?_, ?_, ?_, ?_, ?_, ?_⟩
  · intro g hg
    obtain ⟨heq, hg | hg⟩ := hc.free hg
    · rw [heq]
      exact h.free_idle hg
    · rw [heq, hg]
  · intro x hx
    rcases List.mem_cons.mp hx with rfl | hx
    · exact hc.here
    · exact hc.keeps (h.held x hx) (h.pinned hx)
  · intro q g hq
    by_cases hne : q = c.pool.disk.nextPageId
    · subst hne
      have hgf : g = f := Option.some.inj (hq.symm.trans hc.here)
      dsimp only
      rw [countP_cons_self, h.countP_absent h.absent_next, hgf, hc.page]
    · obtain ⟨hl, hpg⟩ := hc.others hq hne
      rw [countP_cons_ne hne, hpg, h.counted hl]
  · intro q hq
    by_cases hne : q = c.pool.disk.nextPageId
    · exact hc.clean q (.inr hne)
    · exact hc.clean q (.inl (h.clean q fun x hx => hq x (List.mem_cons_of_mem _ hx)))
  · intro q hq
    by_cases hne : q = c.pool.disk.nextPageId
    · subst hne
      rw [← h.shows _ hq, view_resident hc.here, hc.page, view_absent h.absent_next]
      exact (h.fresh.unwritten le_rfl).symm
    · rw [hc.view_eq q hne]
      exact h.shows q hq
  · intro q hq
    rw [hc.next_eq]
    rcases List.mem_cons.mp hq with rfl | hq
    · exact Int.lt_succ _
    · exact (h.issued_lt q hq).trans (Int.lt_succ _)
  · intro q hq
    exact List.mem_cons_of_mem _ (h.deleted_issued q hq)

theorem Coherent.fetchPage (h : Coherent c) (hp : p ∈ c.issued) (hf : c.pool.fetchPage p = some (f, b)) :
    Coherent { c with pool := b, pins := ⟨p, f, false⟩ :: c.pins } := by
  have hc := fetchPage_fetched h.inv h.evictable h.fresh hf
  refine ⟨h.inv.fetchPage hf, h.fresh.fetchPage h.inv (h.issued_lt p hp) hf, ?_, ?_, ?_, ?_, ?_, ?_,
    h.deleted_issued⟩
  · intro g hg
    obtain ⟨heq, hg | hg⟩ := hc.free hg
    · rw [heq]
      exact h.free_idle hg
    · rw [heq, hg]
  · intro x hx
    rcases List.mem_cons.mp hx with rfl | hx
    · exact hc.here
    · exact hc.keeps (h.held x hx) (h.pinned hx)
  · intro q g hq
    by_cases hne : q = p
    · subst hne
      have hgf : g = f := Option.some.inj (hq.symm.trans hc.here)
      dsimp only
      rw [countP_cons_self, hgf, hc.count]
      obtain hl | ⟨hl, hfree | hzero⟩ := hc.was
      · rw [h.counted hl]
      · rw [h.countP_absent hl, h.free_idle hfree]
      · rw [h.countP_absent hl, hzero]
    · obtain ⟨hl, hpg⟩ := hc.others hq hne
      rw [countP_cons_ne hne, hpg, h.counted hl]
  · intro q hq
    exact hc.clean q (h.clean q fun x hx => hq x (List.mem_cons_of_mem _ hx))
  · intro q hq
    rw [hc.view_eq q]
    exact h.shows q hq
  · intro q hq
    rw [hc.next_eq]
    exact h.issued_lt q hq

theorem Coherent.write {l r : List (Pin n)} {x : Pin n} (h : Coherent c) (hx : c.pins = l ++ x :: r) (data : α) :
    Coherent { c with
      pool := c.pool.writeData x.frame data
      pins := l ++ { x with wrote := true } :: r
      written := Function.update c.written x.page data } := by
  have hmem : x ∈ c.pins := hx ▸ List.mem_append_right l List.mem_cons_self
  have hl := h.held x hmem
  obtain ⟨hview, hclean⟩ := writeData_view h.inv hl data
  have hpin : ∀ g, ((c.pool.writeData x.frame data).pages g).pinCount = (c.pool.pages g).pinCount := by
    intro g
    by_cases hg : g = x.frame
    · simp [writeData, setPage, hg]
    · simp [writeData, setPage, hg]
  refine ⟨h.inv.writeData hl data, ⟨h.fresh.resident_lt, h.fresh.unwritten⟩, ?_, ?_, ?_, ?_, ?_, h.issued_lt,
    h.deleted_issued⟩
  · intro g hg
    rw [hpin]
    exact h.free_idle hg
  · intro y hy
    rcases List.mem_append.mp hy with hy | hy
    · exact h.held y (hx ▸ List.mem_append_left _ hy)
    · rcases List.mem_cons.mp hy with rfl | hy
      · exact hl
      · exact h.held y (hx ▸ List.mem_append_right l (List.mem_cons_of_mem _ hy))
  · intro q g hq
    rw [hpin, h.counted hq, hx]
    simp only [List.countP_append, List.countP_cons]
  · intro q hq
    have hne : q ≠ x.page := by
      rintro rfl
      cases hq { x with wrote := true } (List.mem_append_right l List.mem_cons_self) rfl
    refine hclean q hne (h.clean q fun y hy he => ?_)
    rw [hx] at hy
    rcases List.mem_append.mp hy with hy | hy
    · exact hq y (List.mem_append_left _ hy) he
    · rcases List.mem_cons.mp hy with rfl | hy
      · exact absurd he.symm hne
      · exact hq y (List.mem_append_right l (List.mem_cons_of_mem _ hy)) he
  · intro q hq
    dsimp only
    rw [hview]
    by_cases hne : q = x.page
    · rw [hne, Function.update_self, Function.update_self]
    · rw [Function.update_of_ne hne, Function.update_of_ne hne]
      exact h.shows q hq

theorem Coherent.unpinPage {l r : List (Pin n)} {x : Pin n} {d : Bool} (h : Coherent c)
    (hx : c.pins = l ++ x :: r) (hd : x.wrote = true → d = true) :
    Coherent { c with pool := (c.pool.unpinPage x.page d).2, pins := l ++ r } := by
  have hmem : x ∈ c.pins := hx ▸ List.mem_append_right l List.mem_cons_self
  have hl := h.held x hmem
  have hpages := unpinPage_pages hl d
  obtain ⟨htable, hfree, hdisk⟩ := unpinPage_frame (b := c.pool) x.page d
  have hsub : ∀ y ∈ l ++ r, y ∈ c.pins := by
    intro y hy
    rw [hx]
    exact ((List.sublist_cons_self x r).append_left l).subset hy
  have hother : ∀ g, g ≠ x.frame → (c.pool.unpinPage x.page d).2.pages g = c.pool.pages g := by
    intro g hg
    rw [hpages, Function.update_of_ne hg]
  refine ⟨h.inv.unpinPage d, h.fresh.unpinPage d, ?_, ?_, ?_, ?_, ?_, ?_, h.deleted_issued⟩
  · intro g hg
    rw [hfree] at hg
    have hgf : g ≠ x.frame := by
      rintro rfl
      exact h.inv.not_free hl hg
    rw [hother g hgf]
    exact h.free_idle hg
  · intro y hy
    rw [htable]
    exact h.held y (hsub y hy)
  · intro q g hq
    rw [htable] at hq
    have hcount := h.counted hq
    rw [hx, List.countP_append, List.countP_cons] at hcount
    rw [List.countP_append]
    by_cases hne : q = x.page
    · subst hne
      have hgf : g = x.frame := Option.some.inj (hq.symm.trans hl)
      rw [hpages, hgf, Function.update_self]
      rw [hgf] at hcount
      simp only [decide_true, if_true] at hcount
      dsimp only
      omega
    · have hgf : g ≠ x.frame := by
        rintro rfl
        exact hne (h.inv.injective hq hl)
      rw [hother g hgf, hcount, if_neg, Nat.add_zero]
      simpa using Ne.symm hne
  · intro q hq
    by_cases hwrote : q = x.page ∧ d = true
    · obtain ⟨rfl, rfl⟩ := hwrote
      exact unpinPage_dirty hl
    · refine (unpinPage_view h.inv d q).2 (h.clean q fun y hy he => ?_)
      rw [hx, List.mem_append, List.mem_cons] at hy
      rcases hy with hy | rfl | hy
      · exact hq y (List.mem_append_left r hy) he
      · exact Bool.eq_false_iff.mpr fun hw => hwrote ⟨he.symm, hd hw⟩
      · exact hq y (List.mem_append_right l hy) he
  · intro q hq
    rw [(unpinPage_view h.inv d q).1]
    exact h.shows q hq
  · intro q hq
    rw [hdisk]
    exact h.issued_lt q hq

theorem Coherent.of_kept (h : Coherent c) (hi : Inv b) (hfr : Fresh b)
    (htable : b.pageTable = c.pool.pageTable) (hfree : b.freeList = c.pool.freeList)
    (hpin : ∀ g, (b.pages g).pinCount = (c.pool.pages g).pinCount)
    (hnext : b.disk.nextPageId = c.pool.disk.nextPageId) (hview : ∀ q, b.view q = c.pool.view q)
    (hclean : ∀ q, c.pool.Clean q → b.Clean q) : Coherent { c with pool := b } where
  inv := hi
  fresh := hfr
  free_idle {g} hg := (hpin g).trans (h.free_idle (hfree ▸ hg))
  held x hx := by
    rw [htable]
    exact h.held x hx
  counted {q g} hq := by
    rw [htable] at hq
    exact (hpin g).trans (h.counted hq)
  clean q hq := hclean q (h.clean q hq)
  shows q hq := (hview q).trans (h.shows q hq)
  issued_lt q hq := by
    rw [hnext]
    exact h.issued_lt q hq
  deleted_issued := h.deleted_issued

theorem Coherent.unpinIdle (h : Coherent c) (hp : c.Idle p) (d : Bool) :
    Coherent { c with pool := (c.pool.unpinPage p d).2 } := by
  obtain ⟨htable, hfree, hdisk⟩ := unpinPage_frame (b := c.pool) p d
  refine h.of_kept (h.inv.unpinPage d) (h.fresh.unpinPage d) htable hfree ?_ (congrArg _ hdisk)
    (fun q => (unpinPage_view h.inv d q).1) (fun q => (unpinPage_view h.inv d q).2)
  intro g
  cases hl : c.pool.pageTable.lookup p with
  | none =>
      unfold BufferPool.unpinPage
      rw [hl]
  | some f =>
      rw [unpinPage_pages hl]
      by_cases hg : g = f
      · rw [hg, Function.update_self, hp f hl]
      · rw [Function.update_of_ne hg]

theorem Coherent.writtenBack (h : Coherent c) (hb : WrittenBack c.pool b) : Coherent { c with pool := b } :=
  h.of_kept hb.inv hb.fresh hb.table hb.free hb.pinCount hb.next_eq hb.view_eq hb.clean

theorem Coherent.deletePage (h : Coherent c) (hp : p ∈ c.issued) (hidle : c.Idle p) :
    Coherent { c with pool := (c.pool.deletePage p).2, deleted := p :: c.deleted } := by
  have hshows : ∀ q ∉ p :: c.deleted, (c.pool.deletePage p).2.view q = c.written q := by
    intro q hq
    rw [List.mem_cons, not_or] at hq
    rw [(deletePage_absent h.inv hq.1).1]
    exact h.shows q hq.2
  have hissued : ∀ q ∈ p :: c.deleted, q ∈ c.issued := by
    intro q hq
    rcases List.mem_cons.mp hq with rfl | hq
    · exact hp
    · exact h.deleted_issued q hq
  cases hl : c.pool.pageTable.lookup p with
  | none =>
      rw [deletePage_of_none hl] at hshows ⊢
      exact ⟨h.inv, h.fresh, h.free_idle, h.held, h.counted, h.clean, hshows, h.issued_lt, hissued⟩
  | some f =>
      obtain ⟨hpages, hfree, hdisk⟩ := deletePage_pages hl
      have hother : ∀ g, g ≠ f → (c.pool.deletePage p).2.pages g = c.pool.pages g := by
        intro g hg
        rw [hpages, Function.update_of_ne hg]
      have hzero := h.counted hl
      rw [hidle f hl] at hzero
      refine ⟨h.inv.deletePage, ⟨?_, ?_⟩, ?_, ?_, ?_, ?_, hshows, ?_, hissued⟩
      · intro q g hq
        rw [hdisk]
        exact h.fresh.resident_lt ((deletePage_lookup hl).mp hq).2
      · intro q hq
        rw [hdisk] at hq ⊢
        exact h.fresh.unwritten hq
      · intro g hg
        rw [hfree, List.mem_append, List.mem_singleton] at hg
        by_cases hgf : g = f
        · rw [hgf, hpages, Function.update_self]
          exact hidle f hl
        · rw [hother g hgf]
          exact h.free_idle (hg.resolve_right hgf)
      · intro x hx
        refine (deletePage_lookup hl).mpr ⟨fun he => ?_, h.held x hx⟩
        exact List.countP_eq_zero.mp hzero.symm x hx (decide_eq_true he)
      · intro q g hq
        obtain ⟨hne, hlq⟩ := (deletePage_lookup hl).mp hq
        rw [hother g]
        · exact h.counted hlq
        · rintro rfl
          exact hne (h.inv.injective hlq hl)
      · intro q hq
        by_cases hne : q = p
        · intro g hg
          exact absurd hne ((deletePage_lookup hl).mp hg).1
        · exact (deletePage_absent h.inv hne).2 (h.clean q hq)
      · intro q hq
        rw [hdisk]
        exact h.issued_lt q hq

theorem Coherent.step (h : Coherent c) (hs : Step c c') : Coherent c' := by
  cases hs with
  | newPage hn => exact h.newPage hn
  | fetchPage hp hf => exact h.fetchPage hp hf
  | write hx data => exact h.write hx data
  | unpinPage hx hd => exact h.unpinPage hx hd
  | unpinIdle hp d => exact h.unpinIdle hp d
  | flushPage p => exact h.writtenBack (flushPage_writtenBack h.inv h.fresh)
  | flushAllPages => exact h.writtenBack (flushAllPages_writtenBack h.inv h.fresh)
  | deletePage hp hidle => exact h.deletePage hp hidle

theorem Reachable.coherent (h : Reachable c) : Coherent c := by
  induction h with
  | start => exact coherent_start
  | step _ hs ih => exact ih.step hs

theorem Coherent.bound (h : Coherent c) (hpin : 0 < (c.pool.pages f).pinCount) :
    c.pool.pageTable.lookup (c.pool.pages f).pageId = some f :=
  h.inv.bound fun hf => hpin.ne' (h.free_idle hf)

theorem Coherent.keeps (h : Coherent c) (hs : Step c c') (hl : c.pool.pageTable.lookup p = some f)
    (hpin : 0 < (c.pool.pages f).pinCount) : c'.pool.pageTable.lookup p = some f := by
  cases hs with
  | newPage hn => exact (newPage_created h.inv h.evictable h.fresh hn).keeps hl hpin
  | fetchPage hp hf => exact (fetchPage_fetched h.inv h.evictable h.fresh hf).keeps hl hpin
  | write hx data => exact hl
  | unpinPage hx hd => exact (congrArg (AList.lookup p) (unpinPage_frame _ _).1).trans hl
  | unpinIdle hp d => exact (congrArg (AList.lookup p) (unpinPage_frame _ _).1).trans hl
  | flushPage q => exact (congrArg (AList.lookup p) (flushPage_writtenBack h.inv h.fresh).table).trans hl
  | flushAllPages => exact (congrArg (AList.lookup p) (flushAllPages_writtenBack h.inv h.fresh).table).trans hl
  | @deletePage q hp hidle =>
      cases hq : c.pool.pageTable.lookup q with
      | none =>
          dsimp only
          rw [deletePage_of_none hq]
          exact hl
      | some g =>
          refine (deletePage_lookup hq).mpr ⟨?_, hl⟩
          rintro rfl
          exact hpin.ne' (hidle f hl)

/-- Over every run, the page table is injective and agrees with the frames,
free frames are outside it, a pinned frame keeps its page, and a page that was
not deleted is fetched with the bytes last written to it. -/
theorem pool_coherent (h : Reachable c) :
    (∀ p q f, c.pool.pageTable.lookup p = some f → c.pool.pageTable.lookup q = some f → p = q) ∧
    (∀ p f, c.pool.pageTable.lookup p = some f ↔ f ∉ c.pool.freeList ∧ (c.pool.pages f).pageId = p) ∧
    (∀ f ∈ c.pool.freeList, ∀ p, c.pool.pageTable.lookup p ≠ some f) ∧
    (∀ c' f, Step c c' → 0 < (c.pool.pages f).pinCount →
      c'.pool.pageTable.lookup (c.pool.pages f).pageId = some f ∧
        (c'.pool.pages f).pageId = (c.pool.pages f).pageId) ∧
    (∀ p f b, p ∉ c.deleted → c.pool.fetchPage p = some (f, b) → (b.pages f).data = c.written p) := by
  have hc := h.coherent
  refine ⟨fun p q f => hc.inv.injective, fun p f => ⟨fun hl => ⟨hc.inv.not_free hl, hc.inv.agrees hl⟩, ?_⟩,
    fun f => hc.inv.free_unbound, ?_, ?_⟩
  · rintro ⟨hf, rfl⟩
    exact hc.inv.bound hf
  · intro c' f hs hpin
    have hl := hc.keeps hs (hc.bound hpin) hpin
    exact ⟨hl, (hc.step hs).inv.agrees hl⟩
  · intro p f b hp hf
    have hfe := fetchPage_fetched hc.inv hc.evictable hc.fresh hf
    rw [← hc.shows p hp, ← hfe.view_eq p, view_resident hfe.here]

/-- In a pool of one frame, page 0 is written, given back, evicted by a second
`NewPage` and fetched again. -/
theorem pool_coherent_evicted :
    ∃ c : Clients 1 Nat, c.pool.pageTable.lookup 0 = none ∧
      ∃ f b, c.pool.fetchPage 0 = some (f, b) ∧ (b.pages f).data = 7 := by
  have h₁ : Reachable (_ : Clients 1 Nat) := .step .start (.newPage rfl)
  have h₂ := h₁.step (.write (l := []) rfl 7)
  have h₃ := h₂.step (.unpinPage (l := []) rfl fun _ => (rfl : true = true))
  have h₄ := h₃.step (.newPage rfl)
  have h₅ := h₄.step (.unpinPage (l := []) rfl fun h => (h : false = true))
  obtain ⟨c, hr, hdel, hl, hw, hf⟩ : ∃ c : Clients 1 Nat, Reachable c ∧ c.deleted = [] ∧
      c.pool.pageTable.lookup 0 = none ∧ c.written 0 = 7 ∧ (c.pool.fetchPage 0).isSome = true :=
    ⟨_, h₅, rfl, rfl, rfl, rfl⟩
  obtain ⟨⟨f, b⟩, hf⟩ := Option.isSome_iff_exists.mp hf
  refine ⟨c, hl, f, b, hf, ?_⟩
  rw [← hw]
  exact (pool_coherent hr).2.2.2.2 0 f b (hdel ▸ List.not_mem_nil) hf

end Clients

end DBPlayground.Storage
