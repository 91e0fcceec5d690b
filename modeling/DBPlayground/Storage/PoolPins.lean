import DBPlayground.Storage.PoolInvariant

namespace DBPlayground.Storage

open BufferPool

inductive PoolCall
  | newPage
  | fetchPage (p : PageId)
  | unpinPage (p : PageId) (isDirty : Bool)
  | flushPage (p : PageId)
  | flushAllPages
  | deletePage (p : PageId)

/-- The pool, and for each frame how often it was handed out and not yet
unpinned. -/
structure Pinned (n : Nat) (D α : Type) where
  pool : BufferPool n D α
  pins : Fin n → Nat

namespace Pinned

variable {n : Nat} {D α : Type}

def handOut (t : Pinned n D α) : Option (Fin n × BufferPool n D α) → Pinned n D α
  | none => t
  | some (f, b) => ⟨b, Function.update t.pins f (t.pins f + 1)⟩

def giveBack (t : Pinned n D α) : Option (Fin n) → Fin n → Nat
  | none => t.pins
  | some f => Function.update t.pins f (t.pins f - 1)

def Unpinned (b : BufferPool n D α) (p : PageId) : Prop :=
  ∀ f, b.pageTable.lookup p = some f → (b.pages f).pinCount = 0

/-- Page ids may be bound twice when clients fetch ids that were never handed
out, so that less holds than the invariant of a pool with well-behaved clients. -/
structure Sound (t : Pinned n D α) : Prop where
  agrees : ∀ {p f}, t.pool.pageTable.lookup p = some f → (t.pool.pages f).pageId = p
  not_free : ∀ {p f}, t.pool.pageTable.lookup p = some f → f ∉ t.pool.freeList
  free_nodup : t.pool.freeList.Nodup
  free_idle : ∀ {f}, f ∈ t.pool.freeList → (t.pool.pages f).pinCount = 0
  idle : ∀ {f}, f ∈ t.pool.replacer.unpinned → (t.pool.pages f).pinCount = 0
  counted : ∀ f, (t.pool.pages f).pinCount = t.pins f

/-- What a call leaves of the frames that are handed out: their page and its
bytes. -/
def Keeps (t : Pinned n D α) (b : BufferPool n D α) : Prop :=
  ∀ f, 0 < t.pins f → (b.pages f).pageId = (t.pool.pages f).pageId ∧ (b.pages f).data = (t.pool.pages f).data

variable {t : Pinned n D α} {b : BufferPool n D α} {p : PageId} {f : Fin n}

theorem Keeps.refl (t : Pinned n D α) : Keeps t t.pool := fun _ _ => ⟨rfl, rfl⟩

theorem Keeps.trans {b' : BufferPool n D α} (h : Keeps t b) (h' : Keeps { t with pool := b } b') : Keeps t b' :=
  fun f hf => ⟨(h' f hf).1.trans (h f hf).1, (h' f hf).2.trans (h f hf).2⟩

theorem Sound.congr (h : Sound t) (ht : b.pageTable = t.pool.pageTable) (hf : b.freeList = t.pool.freeList)
    (hr : b.replacer = t.pool.replacer) (hp : ∀ g, (b.pages g).pageId = (t.pool.pages g).pageId)
    (hc : ∀ g, (b.pages g).pinCount = (t.pool.pages g).pinCount) : Sound { t with pool := b } where
  agrees hl := (hp _).trans (h.agrees (ht ▸ hl))
  not_free hl := hf ▸ h.not_free (ht ▸ hl)
  free_nodup := hf ▸ h.free_nodup
  free_idle hg := (hc _).trans (h.free_idle (hf ▸ hg))
  idle hg := (hc _).trans (h.idle (hr ▸ hg))
  counted g := (hc g).trans (h.counted g)

theorem Sound.bind {page : Page α} (h : Sound t) (hf : f ∈ t.pool.freeList) (hid : page.pageId = p)
    (hpin : page.pinCount = 1) (hpages : b.pages = Function.update t.pool.pages f page)
    (hfree : ∀ g, g ∈ b.freeList ↔ g ∈ t.pool.freeList ∧ g ≠ f) (hnodup : b.freeList.Nodup)
    (htable : b.pageTable = t.pool.pageTable.insert p f) (hrep : b.replacer = t.pool.replacer.pin f) :
    Sound (t.handOut (some (f, b))) ∧ Keeps t b := by
  have hzero := h.free_idle hf
  have hother : ∀ g, g ≠ f → b.pages g = t.pool.pages g := by
    intro g hg
    rw [hpages, Function.update_of_ne hg]
  have hself : b.pages f = page := by rw [hpages, Function.update_self]
  refine ⟨⟨?_, ?_, hnodup, ?_, ?_, ?_⟩, ?_⟩
  · intro q g hl
    show (b.pages g).pageId = q
    have hl : b.pageTable.lookup q = some g := hl
    rw [htable] at hl
    by_cases hq : q = p
    · rw [hq, AList.lookup_insert] at hl
      cases hl
      rw [hself, hid, hq]
    · rw [AList.lookup_insert_ne hq] at hl
      rw [hother g (fun hg => h.not_free hl (hg ▸ hf))]
      exact h.agrees hl
  · intro q g hl hg
    have hl : b.pageTable.lookup q = some g := hl
    obtain ⟨hg, hne⟩ := (hfree g).mp hg
    rw [htable] at hl
    by_cases hq : q = p
    · rw [hq, AList.lookup_insert] at hl
      cases hl
      exact hne rfl
    · rw [AList.lookup_insert_ne hq] at hl
      exact h.not_free hl hg
  · intro g hg
    obtain ⟨hg, hne⟩ := (hfree g).mp hg
    exact (congrArg Page.pinCount (hother g hne)).trans (h.free_idle hg)
  · intro g hg
    have hg : g ∈ b.replacer.unpinned := hg
    rw [hrep, LRUReplacer.mem_pin] at hg
    exact (congrArg Page.pinCount (hother g hg.1)).trans (h.idle hg.2)
  · intro g
    show (b.pages g).pinCount = Function.update t.pins f (t.pins f + 1) g
    by_cases hg : g = f
    · rw [hg, Function.update_self, hself, hpin, ← h.counted, hzero]
    · rw [Function.update_of_ne hg, hother g hg]
      exact h.counted g
  · intro g hg
    have hne : g ≠ f := by
      rintro rfl
      rw [← h.counted, hzero] at hg
      exact absurd hg (Nat.lt_irrefl 0)
    rw [hother g hne]
    exact ⟨rfl, rfl⟩

theorem Sound.repin {page : Page α} {k : Nat} (h : Sound t) (hl : t.pool.pageTable.lookup p = some f)
    (hpages : b.pages = Function.update t.pool.pages f page) (hid : page.pageId = (t.pool.pages f).pageId)
    (hdata : page.data = (t.pool.pages f).data) (hk : page.pinCount = k) (hfree : b.freeList = t.pool.freeList)
    (htable : b.pageTable = t.pool.pageTable)
    (hrep : ∀ g ∈ b.replacer.unpinned, g ≠ f ∧ g ∈ t.pool.replacer.unpinned ∨ g = f ∧ k = 0) :
    Sound ⟨b, Function.update t.pins f k⟩ ∧ Keeps t b := by
  have hother : ∀ g, g ≠ f → b.pages g = t.pool.pages g := by
    intro g hg
    rw [hpages, Function.update_of_ne hg]
  have hself : b.pages f = page := by rw [hpages, Function.update_self]
  have hids : ∀ g, (b.pages g).pageId = (t.pool.pages g).pageId ∧ (b.pages g).data = (t.pool.pages g).data := by
    intro g
    by_cases hg : g = f
    · rw [hg, hself]
      exact ⟨hid, hdata⟩
    · rw [hother g hg]
      exact ⟨rfl, rfl⟩
  refine ⟨⟨fun hq => (hids _).1.trans (h.agrees (htable ▸ hq)), fun hq => ?_, ?_, ?_, ?_, ?_⟩, fun g _ => hids g⟩
  · show _ ∉ b.freeList
    rw [hfree]
    exact h.not_free (htable ▸ hq)
  · show b.freeList.Nodup
    rw [hfree]
    exact h.free_nodup
  · intro g hg
    have hg : g ∈ t.pool.freeList := hfree ▸ hg
    exact (congrArg Page.pinCount (hother g fun he => h.not_free hl (he ▸ hg))).trans (h.free_idle hg)
  · intro g hg
    rcases hrep g hg with ⟨hne, hg⟩ | ⟨rfl, hz⟩
    · exact (congrArg Page.pinCount (hother g hne)).trans (h.idle hg)
    · exact (congrArg Page.pinCount hself).trans (hk.trans hz)
  · intro g
    show (b.pages g).pinCount = Function.update t.pins f k g
    by_cases hg : g = f
    · rw [hg, Function.update_self, hself, hk]
    · rw [Function.update_of_ne hg, hother g hg]
      exact h.counted g

theorem Sound.unpinPage (h : Sound t) (p : PageId) (d : Bool) :
    Sound ⟨(t.pool.unpinPage p d).2, if (t.pool.unpinPage p d).1 then t.giveBack (t.pool.pageTable.lookup p) else t.pins⟩ ∧
      Keeps t (t.pool.unpinPage p d).2 := by
  unfold BufferPool.unpinPage
  cases hl : t.pool.pageTable.lookup p with
  | none => exact ⟨h, Keeps.refl t⟩
  | some f =>
      have hcount := h.counted f
      dsimp only
      split
      · have hrep := h.repin (b := t.pool.setPage f { t.pool.pages f with isDirty := (t.pool.pages f).isDirty || d })
          hl rfl rfl rfl hcount rfl rfl
        rw [Function.update_eq_self] at hrep
        refine hrep fun g hg => ?_
        by_cases hgf : g = f
        · subst hgf
          exact .inr ⟨rfl, hcount.symm.trans (h.idle hg)⟩
        · exact .inl ⟨hgf, hg⟩
      · next hpos =>
          split
          · next hz =>
              refine h.repin hl rfl rfl rfl (congrArg (· - 1) hcount) rfl rfl fun g hg => ?_
              by_cases hgf : g = f
              · exact .inr ⟨hgf, hcount ▸ hz⟩
              · exact .inl ⟨hgf, (LRUReplacer.mem_unpin.mp hg).resolve_left hgf⟩
          · refine h.repin hl rfl rfl rfl (congrArg (· - 1) hcount) rfl rfl fun g hg => ?_
            refine .inl ⟨?_, hg⟩
            rintro rfl
            exact hpos (Nat.le_of_eq (h.idle hg))

section

variable [Inhabited α]

theorem sound_start (disk : D) : Sound (⟨.new n disk, fun _ => 0⟩ : Pinned n D α) where
  agrees h := by simp [new] at h
  not_free h := by simp [new] at h
  free_nodup := List.nodup_finRange n
  free_idle _ := rfl
  idle _ := rfl
  counted _ := rfl

theorem Sound.release (h : Sound t) (hzero : (t.pool.pages f).pinCount = 0) (hfree : f ∉ t.pool.freeList)
    (hpages : b.pages = Function.update t.pool.pages f (Page.reset (t.pool.pages f)))
    (hfl : b.freeList = t.pool.freeList ++ [f]) (htable : b.pageTable = t.pool.pageTable.erase (t.pool.pages f).pageId)
    (hrep : ∀ g ∈ b.replacer.unpinned, g = f ∨ g ∈ t.pool.replacer.unpinned) :
    Sound { t with pool := b } ∧ Keeps t b := by
  have hpin : ∀ g, (b.pages g).pinCount = (t.pool.pages g).pinCount := by
    intro g
    rw [hpages]
    by_cases hg : g = f
    · rw [hg, Function.update_self]
      rfl
    · rw [Function.update_of_ne hg]
  have hold : ∀ {q g}, b.pageTable.lookup q = some g → t.pool.pageTable.lookup q = some g ∧ g ≠ f := by
    intro q g hl
    rw [htable] at hl
    by_cases hq : q = (t.pool.pages f).pageId
    · rw [hq, AList.lookup_erase] at hl
      cases hl
    · rw [AList.lookup_erase_ne hq] at hl
      refine ⟨hl, ?_⟩
      rintro rfl
      exact hq (h.agrees hl).symm
  refine ⟨⟨?_, ?_, ?_, ?_, ?_, fun g => (hpin g).trans (h.counted g)⟩, ?_⟩
  · intro q g hl
    obtain ⟨hl, hg⟩ := hold hl
    show (b.pages g).pageId = q
    rw [hpages, Function.update_of_ne hg]
    exact h.agrees hl
  · intro q g hl
    obtain ⟨hl, hg⟩ := hold hl
    show g ∉ b.freeList
    rw [hfl, List.mem_append, List.mem_singleton]
    exact not_or.mpr ⟨h.not_free hl, hg⟩
  · show b.freeList.Nodup
    rw [hfl]
    refine List.nodup_append.mpr ⟨h.free_nodup, List.nodup_singleton f, ?_⟩
    rintro a ha _ hb rfl
    rw [List.mem_singleton.mp hb] at ha
    exact hfree ha
  · intro g hg
    refine (hpin g).trans ?_
    rw [show ({ t with pool := b } : Pinned n D α).pool.freeList = _ from hfl, List.mem_append, List.mem_singleton] at hg
    rcases hg with hg | rfl
    · exact h.free_idle hg
    · exact hzero
  · intro g hg
    refine (hpin g).trans ?_
    rcases hrep g hg with rfl | hg
    · exact hzero
    · exact h.idle hg
  · intro g hg
    have hne : g ≠ f := by
      rintro rfl
      rw [← h.counted, hzero] at hg
      exact absurd hg (Nat.lt_irrefl 0)
    rw [hpages, Function.update_of_ne hne]
    exact ⟨rfl, rfl⟩

theorem Sound.deletePage (h : Sound t) (hp : Unpinned t.pool p) :
    Sound { t with pool := (t.pool.deletePage p).2 } ∧ Keeps t (t.pool.deletePage p).2 := by
  unfold BufferPool.deletePage
  split
  · exact ⟨h, Keeps.refl t⟩
  · next f hl =>
      refine h.release (hp f hl) (h.not_free hl) rfl rfl ?_ ?_
      · rw [h.agrees hl]
      · intro g hg
        exact LRUReplacer.mem_unpin.mp hg

end

variable [Inhabited α] [Disk D α]

def call (t : Pinned n D α) : PoolCall → Pinned n D α
  | .newPage => t.handOut t.pool.newPage
  | .fetchPage p => t.handOut (t.pool.fetchPage p)
  | .unpinPage p isDirty =>
    let (ok, b) := t.pool.unpinPage p isDirty
    ⟨b, if ok then t.giveBack (t.pool.pageTable.lookup p) else t.pins⟩
  | .flushPage p => { t with pool := (t.pool.flushPage p).2 }
  | .flushAllPages => { t with pool := t.pool.flushAllPages }
  | .deletePage p => { t with pool := (t.pool.deletePage p).2 }

def Respects (t : Pinned n D α) : PoolCall → Prop
  | .deletePage p => Unpinned t.pool p
  | _ => True

/-- The states of a pool over any disk, under calls with any arguments and
writes through any frame, in which only pages without pins are deleted. -/
inductive Reachable : Pinned n D α → Prop
  | start (disk : D) : Reachable ⟨.new n disk, fun _ => 0⟩
  | call {t : Pinned n D α} (h : Reachable t) (c : PoolCall) (hc : Respects t c) : Reachable (t.call c)
  | write {t : Pinned n D α} (h : Reachable t) (f : Fin n) (data : α) :
      Reachable { t with pool := t.pool.writeData f data }

theorem Sound.makeRoom (h : Sound t) (hr : t.pool.makeRoom = some b) : Sound { t with pool := b } ∧ Keeps t b := by
  unfold BufferPool.makeRoom at hr
  split at hr
  · next hfree =>
      unfold evict at hr
      split at hr
      · cases hr
      · next f r hv =>
          have hu := LRUReplacer.victim_eq_some hv
          cases hr
          refine h.release (h.idle (hu ▸ List.mem_cons_self)) (by rw [hfree]; exact List.not_mem_nil) rfl rfl rfl ?_
          intro g hg
          exact .inr (hu ▸ List.mem_cons_of_mem f hg)
  · cases hr
    exact ⟨h, Keeps.refl t⟩

theorem Sound.newPage (h : Sound t) : Sound (t.call .newPage) ∧ Keeps t (t.call .newPage).pool := by
  show Sound (t.handOut t.pool.newPage) ∧ Keeps t (t.handOut t.pool.newPage).pool
  cases hn : t.pool.newPage with
  | none => exact ⟨h, Keeps.refl t⟩
  | some x =>
      obtain ⟨f, b⟩ := x
      obtain ⟨b₁, hr, hf, rfl⟩ := newPage_cases hn
      obtain ⟨h₁, hk₁⟩ := h.makeRoom hr
      obtain ⟨h₂, hk₂⟩ := h₁.bind (List.mem_of_head? hf) rfl rfl rfl (fun _ => mem_tail_iff h₁.free_nodup hf)
        (h₁.free_nodup.sublist (List.tail_sublist _)) rfl rfl (b := b₁.create f)
      exact ⟨h₂, hk₁.trans hk₂⟩

theorem Sound.fetchPage (h : Sound t) (p : PageId) :
    Sound (t.call (.fetchPage p)) ∧ Keeps t (t.call (.fetchPage p)).pool := by
  show Sound (t.handOut (t.pool.fetchPage p)) ∧ Keeps t (t.handOut (t.pool.fetchPage p)).pool
  cases hn : t.pool.fetchPage p with
  | none => exact ⟨h, Keeps.refl t⟩
  | some x =>
      obtain ⟨f, b⟩ := x
      obtain ⟨hl, rfl⟩ | ⟨hl, b₁, hr, hf, rfl⟩ := fetchPage_cases hn
      · refine h.repin hl rfl rfl rfl (congrArg (· + 1) (h.counted f)) rfl rfl ?_
        intro g hg
        exact .inl (LRUReplacer.mem_pin.mp hg)
      · obtain ⟨h₁, hk₁⟩ := h.makeRoom hr
        have hmem := List.mem_of_getLast? hf
        obtain ⟨h₂, hk₂⟩ := h₁.bind hmem rfl (congrArg (· + 1) (h₁.free_idle hmem)) rfl
          (fun _ => mem_dropLast_iff h₁.free_nodup hf) (h₁.free_nodup.sublist (List.dropLast_sublist _)) rfl rfl
          (b := b₁.load p f)
        exact ⟨h₂, hk₁.trans hk₂⟩

omit [Inhabited α] in
theorem Sound.writeBack (h : Sound t) (p : PageId) (f : Fin n) :
    Sound { t with pool := t.pool.writeBack p f } ∧ Keeps t (t.pool.writeBack p f) := by
  have hg : ∀ g, (t.pool.writeBack p f).pages g = t.pool.pages g ∨
      (t.pool.writeBack p f).pages g = { t.pool.pages g with isDirty := false } := by
    intro g
    by_cases hgf : g = f
    · subst hgf
      exact .inr (Function.update_self ..)
    · exact .inl (Function.update_of_ne hgf ..)
  refine ⟨h.congr rfl rfl rfl ?_ ?_, ?_⟩
  · intro g
    rcases hg g with h | h <;> rw [h]
  · intro g
    rcases hg g with h | h <;> rw [h]
  · intro g _
    rcases hg g with h | h <;> rw [h] <;> exact ⟨rfl, rfl⟩

omit [Inhabited α] in
theorem Sound.flushAllPages (h : Sound t) :
    Sound { t with pool := t.pool.flushAllPages } ∧ Keeps t t.pool.flushAllPages := by
  unfold BufferPool.flushAllPages
  generalize t.pool.pageTable.entries = l
  induction l generalizing t with
  | nil => exact ⟨h, Keeps.refl t⟩
  | cons x l ih =>
      obtain ⟨h₁, hk₁⟩ := h.writeBack x.1 x.2
      obtain ⟨h₂, hk₂⟩ := ih h₁
      exact ⟨h₂, hk₁.trans hk₂⟩

theorem Sound.call (h : Sound t) {c : PoolCall} (hc : Respects t c) : Sound (t.call c) ∧ Keeps t (t.call c).pool := by
  cases c with
  | newPage => exact h.newPage
  | fetchPage p => exact h.fetchPage p
  | unpinPage p d => exact h.unpinPage p d
  | flushPage p =>
      show Sound { t with pool := (t.pool.flushPage p).2 } ∧ Keeps t (t.pool.flushPage p).2
      unfold BufferPool.flushPage
      split
      · exact ⟨h, Keeps.refl t⟩
      · exact h.writeBack p _
  | flushAllPages => exact h.flushAllPages
  | deletePage p => exact h.deletePage hc

omit [Inhabited α] [Disk D α] in
theorem Sound.write (h : Sound t) (f : Fin n) (data : α) : Sound { t with pool := t.pool.writeData f data } := by
  have hg : ∀ g, ((t.pool.writeData f data).pages g).pageId = (t.pool.pages g).pageId ∧
      ((t.pool.writeData f data).pages g).pinCount = (t.pool.pages g).pinCount := by
    intro g
    by_cases hgf : g = f
    · simp [writeData, setPage, hgf]
    · simp [writeData, setPage, hgf]
  exact h.congr rfl rfl rfl (fun g => (hg g).1) fun g => (hg g).2

theorem Reachable.sound (h : Reachable t) : Sound t := by
  induction h with
  | start disk => exact sound_start disk
  | call _ c hc ih => exact (ih.call hc).1
  | write _ f data ih => exact ih.write f data

variable (n D α) in
/-- `DeletePage` leaves a pinned page alone exactly where there is none to
delete. In runs that delete only pages without pins, the pin count of a frame is
the number of its outstanding pins, and no call changes page or bytes of a frame
with such pins. -/
theorem delete_respects_pins :
    (∀ (b : BufferPool n D α) p,
      (∀ f, b.pageTable.lookup p = some f → (b.pages f).pinCount ≠ 0 → b.deletePage p = (false, b)) ↔ Unpinned b p) ∧
    ∀ t : Pinned n D α, Reachable t →
      (∀ f, (t.pool.pages f).pinCount = t.pins f) ∧ ∀ c, Respects t c → Keeps t (t.call c).pool := by
  refine ⟨fun b p => ⟨fun h f hl => ?_, fun h f hl hpin => absurd (h f hl) hpin⟩, fun t ht => ⟨ht.sound.counted, ?_⟩⟩
  · by_contra hpin
    have hfalse := congrArg Prod.fst (h f hl hpin)
    simp [BufferPool.deletePage, hl] at hfalse
  · exact fun c hc => (ht.sound.call hc).2

/-- In a pool of one frame, page 0 is given back and deleted, and the frame
handed out again with the one pin that it has. -/
theorem delete_respects_unpinned :
    ∃ t : Pinned 1 (MemDisk Nat) Nat, (t.pool.pages 0).pageId = 1 ∧ t.pins 0 = 1 ∧ (t.pool.pages 0).pinCount = t.pins 0 := by
  have h₁ : Reachable (_ : Pinned 1 (MemDisk Nat) Nat) := .call (.start .empty) .newPage trivial
  have h₂ := h₁.call (.unpinPage 0 false) trivial
  have h₃ := h₂.call (.deletePage 0) (fun f _ => by
    obtain rfl : f = 0 := Subsingleton.elim _ _
    rfl)
  exact ⟨_, rfl, rfl, ((delete_respects_pins 1 (MemDisk Nat) Nat).2 _ (h₃.call .newPage trivial)).1 0⟩

/-- A client writes 7 to page 0 and still holds it when the page is deleted: the
call succeeds, the frame is zeroed, and `NewPage` binds it to page 1 with a pin
count of one for two pins. -/
theorem delete_pinned_page :
    ∃ t : Pinned 1 (MemDisk Nat) Nat, Reachable t ∧ t.pool.pageTable.lookup 0 = some 0 ∧
      (t.pool.pages 0).pinCount = 1 ∧ t.pins 0 = 1 ∧ (t.pool.pages 0).data = 7 ∧
      (t.pool.deletePage 0).1 = true ∧ ((t.call (.deletePage 0)).pool.pages 0).data = 0 ∧
      ∃ u, u = (t.call (.deletePage 0)).call .newPage ∧ (u.pool.pages 0).pageId = 1 ∧
        (u.pool.pages 0).pinCount = 1 ∧ u.pins 0 = 2 := by
  have h₁ : Reachable (_ : Pinned 1 (MemDisk Nat) Nat) := .call (.start .empty) .newPage trivial
  exact ⟨_, h₁.write 0 7, rfl, rfl, rfl, rfl, rfl, rfl, _, rfl, rfl, rfl, rfl⟩

end Pinned

end DBPlayground.Storage
