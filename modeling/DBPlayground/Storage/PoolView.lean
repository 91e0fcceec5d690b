import DBPlayground.Storage.PoolInvariant

namespace DBPlayground.Storage.BufferPool

section

variable {n : Nat} {α : Type} {b b' : BufferPool n (MemDisk α) α} {p q : PageId} {f : Fin n}

/-- The bytes that a page has for the clients of the pool. -/
def view (b : BufferPool n (MemDisk α) α) (p : PageId) : α :=
  match b.pageTable.lookup p with
  | some f => (b.pages f).data
  | none => b.disk.content p

/-- The page's frame can be given up: its data are on the disk, or will be
written there. -/
def Clean (b : BufferPool n (MemDisk α) α) (p : PageId) : Prop :=
  ∀ f, b.pageTable.lookup p = some f → (b.pages f).isDirty = true ∨ (b.pages f).data = b.disk.content p

theorem view_resident (h : b.pageTable.lookup p = some f) : b.view p = (b.pages f).data := by
  simp [view, h]

theorem view_absent (h : b.pageTable.lookup p = none) : b.view p = b.disk.content p := by
  simp [view, h]

theorem clean_of_absent (h : b.pageTable.lookup p = none) : b.Clean p := by
  intro f hf
  rw [h] at hf
  cases hf

def Evictable (b : BufferPool n (MemDisk α) α) : Prop :=
  ∀ p f, b.pageTable.lookup p = some f → (b.pages f).pinCount = 0 → b.Clean p

theorem view_congr (ht : b'.pageTable.lookup q = b.pageTable.lookup q)
    (hp : ∀ g, b.pageTable.lookup q = some g → b'.pages g = b.pages g)
    (hd : b'.disk.content q = b.disk.content q) :
    b'.view q = b.view q ∧ (b.Clean q → b'.Clean q) := by
  refine ⟨?_, fun hc g hg => ?_⟩
  · cases hl : b.pageTable.lookup q with
    | none => rw [view_absent hl, view_absent (ht.trans hl), hd]
    | some g => rw [view_resident hl, view_resident (ht.trans hl), hp g hl]
  · rw [ht] at hg
    rw [hp g hg, hd]
    exact hc g hg

theorem unpinPage_pages {D : Type} {b : BufferPool n D α} (hl : b.pageTable.lookup p = some f) (d : Bool) :
    (b.unpinPage p d).2.pages = Function.update b.pages f
      { b.pages f with pinCount := (b.pages f).pinCount - 1, isDirty := (b.pages f).isDirty || d } := by
  unfold unpinPage
  rw [hl]
  dsimp only
  split
  · next hz => simp [setPage, Nat.le_zero.mp hz]
  · split <;> rfl

theorem unpinPage_pinCount {D : Type} {b : BufferPool n D α} (hl : b.pageTable.lookup p = some f) (d : Bool) (g : Fin n) :
    ((b.unpinPage p d).2.pages g).pinCount = (b.pages g).pinCount - if g = f then 1 else 0 := by
  rw [unpinPage_pages hl d]
  by_cases hgf : g = f
  · rw [hgf, Function.update_self, if_pos rfl]
  · rw [Function.update_of_ne hgf, if_neg hgf, Nat.sub_zero]

theorem unpinPage_pageId {D : Type} {b : BufferPool n D α} (p : PageId) (d : Bool) (g : Fin n) :
    ((b.unpinPage p d).2.pages g).pageId = (b.pages g).pageId := by
  cases hl : b.pageTable.lookup p with
  | none =>
      unfold unpinPage
      rw [hl]
  | some f =>
      rw [unpinPage_pages hl d]
      by_cases hgf : g = f
      · rw [hgf, Function.update_self]
      · rw [Function.update_of_ne hgf]

theorem unpinPage_frame {D : Type} {b : BufferPool n D α} (p : PageId) (d : Bool) :
    (b.unpinPage p d).2.pageTable = b.pageTable ∧ (b.unpinPage p d).2.freeList = b.freeList ∧
      (b.unpinPage p d).2.disk = b.disk := by
  unfold unpinPage
  split
  · exact ⟨rfl, rfl, rfl⟩
  · dsimp only
    split
    · exact ⟨rfl, rfl, rfl⟩
    · split <;> exact ⟨rfl, rfl, rfl⟩

theorem unpinPage_dirty (hl : b.pageTable.lookup p = some f) : (b.unpinPage p true).2.Clean p := by
  intro g hg
  rw [(unpinPage_frame (b := b) p true).1, hl] at hg
  cases hg
  rw [unpinPage_pages hl, Function.update_self]
  exact .inl (Bool.or_true _)

end

variable {n : Nat} {α : Type} [Inhabited α] {b b' : BufferPool n (MemDisk α) α} {p q : PageId} {f g : Fin n}

structure Fresh (b : BufferPool n (MemDisk α) α) : Prop where
  resident_lt : ∀ {p f}, b.pageTable.lookup p = some f → p < b.disk.nextPageId
  unwritten : ∀ {p}, b.disk.nextPageId ≤ p → b.disk.content p = default

theorem bind_other (b' : BufferPool n (MemDisk α) α) {page : Page α} (hi : Inv b) (hf : f ∈ b.freeList)
    (hpages : b'.pages = Function.update b.pages f page) (htable : b'.pageTable = b.pageTable.insert p f)
    (hdisk : b'.disk.content = b.disk.content) (hq : q ≠ p) :
    b'.view q = b.view q ∧ (b.Clean q → b'.Clean q) := by
  refine view_congr ?_ ?_ (congrFun hdisk q)
  · rw [htable, AList.lookup_insert_ne hq]
  · intro g hg
    have hgf : g ≠ f := by
      rintro rfl
      exact hi.free_unbound hf q hg
    rw [hpages, Function.update_of_ne hgf]

theorem change_other (b' : BufferPool n (MemDisk α) α) {page : Page α} (hi : Inv b)
    (hp : b.pageTable.lookup p = some f) (hpages : b'.pages = Function.update b.pages f page)
    (htable : b'.pageTable = b.pageTable) (hdisk : b'.disk.content q = b.disk.content q) (hq : q ≠ p) :
    b'.view q = b.view q ∧ (b.Clean q → b'.Clean q) := by
  refine view_congr (by rw [htable]) ?_ hdisk
  intro g hg
  have hgf : g ≠ f := by
    rintro rfl
    exact hq (hi.injective hg hp)
  rw [hpages, Function.update_of_ne hgf]

theorem makeRoom_view (hi : Inv b) (he : Evictable b) (h : b.makeRoom = some b') (q : PageId) :
    b'.view q = b.view q ∧ (b.Clean q → b'.Clean q) := by
  unfold makeRoom at h
  split at h
  · next hfree =>
      obtain ⟨p, f, hp, hzero, hpages, _, htable, _, hdisk⟩ := evict_cases hi hfree h
      by_cases hq : q = p
      · have hl : b'.pageTable.lookup q = none := by rw [htable, hq, AList.lookup_erase]
        refine ⟨?_, fun _ => clean_of_absent hl⟩
        rw [view_absent hl, hq, view_resident hp, hdisk]
        rcases he p f hp hzero f hp with hd | hd
        · rw [if_pos hd]
          exact Function.update_self ..
        · split
          · exact Function.update_self ..
          · exact hd.symm
      · refine view_congr ?_ ?_ ?_
        · rw [htable, AList.lookup_erase_ne hq]
        · intro g hg
          have hgf : g ≠ f := by
            rintro rfl
            exact hq (hi.injective hg hp)
          rw [hpages, Function.update_of_ne hgf]
        · rw [hdisk]
          split
          · exact Function.update_of_ne hq ..
          · rfl
  · cases h
    exact ⟨rfl, id⟩

theorem Fresh.makeRoom (hf : Fresh b) (hi : Inv b) (h : b.makeRoom = some b') :
    Fresh b' ∧ b'.disk.nextPageId = b.disk.nextPageId := by
  have hnext : b'.disk.nextPageId = b.disk.nextPageId ∧
      ∀ q, b.disk.nextPageId ≤ q → b'.disk.content q = b.disk.content q := by
    unfold BufferPool.makeRoom at h
    split at h
    · next hfree =>
        obtain ⟨p, f, hp, _, _, _, _, _, hdisk⟩ := evict_cases hi hfree h
        have hlt := hf.resident_lt hp
        rw [hdisk]
        split
        · exact ⟨rfl, fun q hq => Function.update_of_ne (hlt.trans_le hq).ne' ..⟩
        · exact ⟨rfl, fun _ _ => rfl⟩
    · cases h
      exact ⟨rfl, fun _ _ => rfl⟩
  refine ⟨⟨fun hq => ?_, fun hq => ?_⟩, hnext.1⟩
  · rw [hnext.1]
    exact hf.resident_lt (makeRoom_lookup hi h hq).1
  · rw [hnext.1] at hq
    rw [hnext.2 _ hq]
    exact hf.unwritten hq

/-- What a successful `FetchPage` does: the page is resident in the frame
returned, with one more pin, and no page changes its bytes. -/
structure Fetched (b : BufferPool n (MemDisk α) α) (p : PageId) (f : Fin n) (b' : BufferPool n (MemDisk α) α) :
    Prop where
  here : b'.pageTable.lookup p = some f
  pinned : 0 < (b'.pages f).pinCount
  view_eq : ∀ q, b'.view q = b.view q
  clean : ∀ q, b.Clean q → b'.Clean q
  others : ∀ {q g}, b'.pageTable.lookup q = some g → q ≠ p →
    b.pageTable.lookup q = some g ∧ b'.pages g = b.pages g
  keeps : ∀ {q g}, b.pageTable.lookup q = some g → 0 < (b.pages g).pinCount → b'.pageTable.lookup q = some g
  count : (b'.pages f).pinCount = (b.pages f).pinCount + 1
  was : b.pageTable.lookup p = some f ∨
    b.pageTable.lookup p = none ∧ (f ∈ b.freeList ∨ (b.pages f).pinCount = 0)
  free : ∀ {g}, g ∈ b'.freeList →
    (b'.pages g).pinCount = (b.pages g).pinCount ∧ (g ∈ b.freeList ∨ (b.pages g).pinCount = 0)
  next_eq : b'.disk.nextPageId = b.disk.nextPageId

theorem pinAgain_fetched (hi : Inv b) (hl : b.pageTable.lookup p = some f) : Fetched b p f (b.pinAgain f) := by
  have hpage : (b.pinAgain f).pages f = { b.pages f with pinCount := (b.pages f).pinCount + 1 } :=
    Function.update_self ..
  have hother : ∀ g, g ≠ f → (b.pinAgain f).pages g = b.pages g := fun g hg => Function.update_of_ne hg ..
  have hpool : ∀ q, q ≠ p → _ := fun q hq => change_other (b.pinAgain f) hi hl rfl rfl rfl hq
  refine ⟨hl, ?_, ?_, ?_, ?_, fun hq _ => hq, ?_, .inl hl, ?_, rfl⟩
  · rw [hpage]
    exact Nat.succ_pos _
  · intro q
    by_cases hq : q = p
    · rw [hq, view_resident hl, view_resident (show (b.pinAgain f).pageTable.lookup p = some f from hl), hpage]
    · exact (hpool q hq).1
  · intro q hc
    by_cases hq : q = p
    · intro g hg
      rw [hq] at hg hc ⊢
      have hgf : g = f := Option.some.inj (hg.symm.trans hl)
      rw [hgf, hpage]
      exact hc f hl
    · exact (hpool q hq).2 hc
  · intro q g hq hne
    refine ⟨hq, hother g ?_⟩
    rintro rfl
    exact hne (hi.injective hq hl)
  · rw [hpage]
  · intro g hg
    have hgf : g ≠ f := by
      rintro rfl
      exact hi.not_free hl hg
    rw [hother g hgf]
    exact ⟨rfl, .inl hg⟩

theorem load_fetched {b₁ : BufferPool n (MemDisk α) α} (hi : Inv b) (he : Evictable b) (hfr : Fresh b)
    (hl : b.pageTable.lookup p = none) (hr : b.makeRoom = some b₁) (hf : b₁.freeList.getLast? = some f) :
    Fetched b p f (b₁.load p f) := by
  have hi₁ := hi.makeRoom hr
  have hmem := List.mem_of_getLast? hf
  have hl₁ := makeRoom_nonresident hi hr hl
  have hhere : (b₁.load p f).pageTable.lookup p = some f := AList.lookup_insert ..
  have hpage : (b₁.load p f).pages f = ⟨b₁.disk.content p, p, (b₁.pages f).pinCount + 1, false⟩ :=
    Function.update_self ..
  have hother : ∀ g, g ≠ f → (b₁.load p f).pages g = b₁.pages g := fun g hg => Function.update_of_ne hg ..
  have hpool : ∀ q, q ≠ p → _ := fun q hq => bind_other (b₁.load p f) hi₁ hmem rfl rfl rfl hq
  have hview := makeRoom_view hi he hr
  have hfree := makeRoom_free hi hr hmem
  refine ⟨hhere, ?_, ?_, ?_, ?_, ?_, ?_, .inr ⟨hl, hfree.2⟩, ?_, (hfr.makeRoom hi hr).2⟩
  · rw [hpage]
    exact Nat.succ_pos _
  · intro q
    by_cases hq : q = p
    · rw [hq, view_resident hhere, hpage, ← (hview p).1, view_absent hl₁]
    · rw [(hpool q hq).1, (hview q).1]
  · intro q hc
    by_cases hq : q = p
    · intro g hg
      rw [hq] at hg ⊢
      have hgf : g = f := Option.some.inj (hg.symm.trans hhere)
      rw [hgf, hpage]
      exact .inr rfl
    · exact (hpool q hq).2 ((hview q).2 hc)
  · intro q g hq hne
    have hq₁ : b₁.pageTable.lookup q = some g := (AList.lookup_insert_ne hne).symm.trans hq
    obtain ⟨hlq, hpg⟩ := makeRoom_lookup hi hr hq₁
    refine ⟨hlq, (hother g ?_).trans hpg⟩
    rintro rfl
    exact hi₁.free_unbound hmem q hq₁
  · intro q g hq hpin
    have hne : q ≠ p := by
      rintro rfl
      rw [hl] at hq
      cases hq
    exact (AList.lookup_insert_ne hne).trans (makeRoom_pinned hi hr hq hpin)
  · rw [hpage, hfree.1]
  · intro g hg
    obtain ⟨hg₁, hgf⟩ := (mem_dropLast_iff hi₁.free_nodup hf).mp hg
    rw [hother g hgf]
    exact makeRoom_free hi hr hg₁

theorem fetchPage_fetched (hi : Inv b) (he : Evictable b) (hfr : Fresh b) (h : b.fetchPage p = some (f, b')) :
    Fetched b p f b' := by
  obtain ⟨hl, rfl⟩ | ⟨hl, b₁, hr, hf, rfl⟩ := fetchPage_cases h
  · exact pinAgain_fetched hi hl
  · exact load_fetched hi he hfr hl hr hf

theorem Fresh.fetchPage (hfr : Fresh b) (hi : Inv b) (hp : p < b.disk.nextPageId)
    (h : b.fetchPage p = some (f, b')) : Fresh b' := by
  obtain ⟨hl, rfl⟩ | ⟨hl, b₁, hr, hf, rfl⟩ := fetchPage_cases h
  · exact ⟨hfr.resident_lt, hfr.unwritten⟩
  · obtain ⟨hfr₁, hnext⟩ := hfr.makeRoom hi hr
    refine ⟨fun hq => ?_, hfr₁.unwritten⟩
    rename_i q g
    by_cases hne : q = p
    · rw [hne]
      exact hp.trans_eq hnext.symm
    · exact hfr₁.resident_lt ((AList.lookup_insert_ne hne).symm.trans hq)

/-- What a successful `NewPage` does: the next id is resident in the frame
returned, zeroed and with one pin, and no other page changes its bytes. -/
structure Created (b : BufferPool n (MemDisk α) α) (f : Fin n) (b' : BufferPool n (MemDisk α) α) : Prop where
  here : b'.pageTable.lookup b.disk.nextPageId = some f
  page : b'.pages f = ⟨default, b.disk.nextPageId, 1, false⟩
  view_eq : ∀ q, q ≠ b.disk.nextPageId → b'.view q = b.view q
  clean : ∀ q, b.Clean q ∨ q = b.disk.nextPageId → b'.Clean q
  others : ∀ {q g}, b'.pageTable.lookup q = some g → q ≠ b.disk.nextPageId →
    b.pageTable.lookup q = some g ∧ b'.pages g = b.pages g
  keeps : ∀ {q g}, b.pageTable.lookup q = some g → 0 < (b.pages g).pinCount → b'.pageTable.lookup q = some g
  was : f ∈ b.freeList ∨ (b.pages f).pinCount = 0
  free : ∀ {g}, g ∈ b'.freeList →
    (b'.pages g).pinCount = (b.pages g).pinCount ∧ (g ∈ b.freeList ∨ (b.pages g).pinCount = 0)
  next_eq : b'.disk.nextPageId = b.disk.nextPageId + 1
  inv : Inv b'
  fresh : Fresh b'

theorem newPage_created (hi : Inv b) (he : Evictable b) (hfr : Fresh b) (h : b.newPage = some (f, b')) :
    Created b f b' := by
  obtain ⟨b₁, hr, hf, rfl⟩ := newPage_cases h
  have hi₁ := hi.makeRoom hr
  obtain ⟨hfr₁, hnext⟩ := hfr.makeRoom hi hr
  have hmem := List.mem_of_head? hf
  have hl₁ : b₁.pageTable.lookup b₁.disk.nextPageId = none := by
    cases hl : b₁.pageTable.lookup b₁.disk.nextPageId with
    | none => rfl
    | some g => exact absurd (hfr₁.resident_lt hl) (lt_irrefl _)
  have hhere : (b₁.create f).pageTable.lookup b₁.disk.nextPageId = some f := AList.lookup_insert ..
  have hpage : (b₁.create f).pages f = ⟨default, b₁.disk.nextPageId, 1, false⟩ := by
    rw [← hi₁.free_blank hmem]
    exact Function.update_self ..
  have hother : ∀ g, g ≠ f → (b₁.create f).pages g = b₁.pages g := fun g hg => Function.update_of_ne hg ..
  have hpool : ∀ q, q ≠ b₁.disk.nextPageId → _ := fun q hq => bind_other (b₁.create f) hi₁ hmem rfl rfl rfl hq
  have hview := makeRoom_view hi he hr
  rw [hnext] at hhere hpage hpool
  have hlook : ∀ {q g}, (b₁.create f).pageTable.lookup q = some g → q ≠ b.disk.nextPageId →
      b₁.pageTable.lookup q = some g :=
    fun hq hne => (AList.lookup_insert_ne (hnext ▸ hne)).symm.trans hq
  refine ⟨hhere, hpage, ?_, ?_, ?_, ?_, (makeRoom_free hi hr hmem).2, ?_, ?_, ?_, ?_⟩
  · intro q hq
    rw [(hpool q hq).1, (hview q).1]
  · intro q hc
    by_cases hq : q = b.disk.nextPageId
    · intro g hg
      rw [hq] at hg ⊢
      have hgf : g = f := Option.some.inj (hg.symm.trans hhere)
      rw [hgf, hpage]
      exact .inr (hfr₁.unwritten hnext.le).symm
    · exact (hpool q hq).2 ((hview q).2 (hc.resolve_right hq))
  · intro q g hq hne
    have hq₁ := hlook hq hne
    obtain ⟨hlq, hpg⟩ := makeRoom_lookup hi hr hq₁
    refine ⟨hlq, (hother g ?_).trans hpg⟩
    rintro rfl
    exact hi₁.free_unbound hmem q hq₁
  · intro q g hq hpin
    have hq₁ := makeRoom_pinned hi hr hq hpin
    have hne : q ≠ b₁.disk.nextPageId := (hfr₁.resident_lt hq₁).ne
    exact (AList.lookup_insert_ne hne).trans hq₁
  · intro g hg
    obtain ⟨hg₁, hgf⟩ := (mem_tail_iff hi₁.free_nodup hf).mp hg
    rw [hother g hgf]
    exact makeRoom_free hi hr hg₁
  · exact congrArg (· + 1) hnext
  · exact hi₁.create hl₁ hf
  · refine ⟨fun hq => ?_, fun hq => hfr₁.unwritten ((Int.le_add_one le_rfl).trans hq)⟩
    rename_i q g
    show q < b₁.disk.nextPageId + 1
    by_cases hne : q = b.disk.nextPageId
    · rw [hne, hnext]
      exact Int.lt_succ _
    · exact (hfr₁.resident_lt (hlook hq hne)).trans (Int.lt_succ _)

theorem unpinPage_view (hi : Inv b) (d : Bool) (q : PageId) :
    (b.unpinPage p d).2.view q = b.view q ∧ (b.Clean q → (b.unpinPage p d).2.Clean q) := by
  obtain ⟨htable, _, hdisk⟩ := unpinPage_frame (b := b) p d
  cases hl : b.pageTable.lookup p with
  | none =>
      unfold unpinPage
      rw [hl]
      exact ⟨rfl, id⟩
  | some f =>
      have hpages := unpinPage_pages hl d
      by_cases hq : q = p
      · subst hq
        have hl' := (congrArg (AList.lookup q) htable).trans hl
        have hpage := (congrFun hpages f).trans (Function.update_self ..)
        refine ⟨?_, fun hc g hg => ?_⟩
        · rw [view_resident hl', view_resident hl, hpage]
        · have hgf : g = f := Option.some.inj (hg.symm.trans hl')
          rw [hgf, hpage, hdisk, Bool.or_eq_true]
          rcases hc f hl with h | h
          · exact .inl (.inl h)
          · exact .inr h
      · exact change_other _ hi hl hpages htable (by rw [hdisk]) hq

theorem Fresh.unpinPage (hfr : Fresh b) (d : Bool) : Fresh (b.unpinPage p d).2 := by
  obtain ⟨htable, _, hdisk⟩ := unpinPage_frame (b := b) p d
  refine ⟨fun hq => ?_, fun hq => ?_⟩
  · rw [hdisk]
    rw [htable] at hq
    exact hfr.resident_lt hq
  · rw [hdisk] at hq ⊢
    exact hfr.unwritten hq

theorem writeData_view (hi : Inv b) (hl : b.pageTable.lookup p = some f) (data : α) :
    (b.writeData f data).view = Function.update b.view p data ∧
      ∀ q, q ≠ p → b.Clean q → (b.writeData f data).Clean q := by
  have hpool : ∀ q, q ≠ p → _ := fun q hq => change_other (b.writeData f data) hi hl rfl rfl rfl hq
  refine ⟨funext fun q => ?_, fun q hq => (hpool q hq).2⟩
  by_cases hq : q = p
  · subst hq
    rw [Function.update_self, view_resident (show (b.writeData f data).pageTable.lookup q = some f from hl)]
    simp [writeData, setPage]
  · rw [Function.update_of_ne hq]
    exact (hpool q hq).1

theorem writeBack_view (hi : Inv b) (hl : b.pageTable.lookup p = some f) (q : PageId) :
    (b.writeBack p f).view q = b.view q ∧ (b.Clean q → (b.writeBack p f).Clean q) := by
  by_cases hq : q = p
  · subst hq
    have hl' : (b.writeBack q f).pageTable.lookup q = some f := hl
    have hpage : (b.writeBack q f).pages f = { b.pages f with isDirty := false } := Function.update_self ..
    refine ⟨?_, fun _ g hg => ?_⟩
    · rw [view_resident hl', view_resident hl, hpage]
    · have hgf : g = f := Option.some.inj (hg.symm.trans hl')
      have hdisk : (b.writeBack q f).disk.content q = (b.pages f).data := Function.update_self ..
      rw [hgf, hpage, hdisk]
      exact .inr rfl
  · have hdisk : (b.writeBack p f).disk.content q = b.disk.content q := Function.update_of_ne hq ..
    exact change_other _ hi hl rfl rfl hdisk hq

theorem Fresh.writeBack (hfr : Fresh b) (hl : b.pageTable.lookup p = some f) : Fresh (b.writeBack p f) := by
  refine ⟨hfr.resident_lt, fun {q} hq => ?_⟩
  have hne : q ≠ p := ((hfr.resident_lt hl).trans_le hq).ne'
  have hdisk : (b.writeBack p f).disk.content q = b.disk.content q := Function.update_of_ne hne ..
  exact hdisk.trans (hfr.unwritten hq)

structure WrittenBack (b b' : BufferPool n (MemDisk α) α) : Prop where
  table : b'.pageTable = b.pageTable
  free : b'.freeList = b.freeList
  pinCount : ∀ g, (b'.pages g).pinCount = (b.pages g).pinCount
  next_eq : b'.disk.nextPageId = b.disk.nextPageId
  view_eq : ∀ q, b'.view q = b.view q
  clean : ∀ q, b.Clean q → b'.Clean q
  inv : Inv b'
  fresh : Fresh b'

theorem WrittenBack.refl (hi : Inv b) (hfr : Fresh b) : WrittenBack b b :=
  ⟨rfl, rfl, fun _ => rfl, rfl, fun _ => rfl, fun _ => id, hi, hfr⟩

theorem writeBack_writtenBack (hi : Inv b) (hfr : Fresh b) (hl : b.pageTable.lookup p = some f) :
    WrittenBack b (b.writeBack p f) where
  table := rfl
  free := rfl
  pinCount g := by
    by_cases hg : g = f
    · subst hg
      simp [writeBack, setPage]
    · simp [writeBack, setPage, hg]
  next_eq := rfl
  view_eq q := (writeBack_view hi hl q).1
  clean q := (writeBack_view hi hl q).2
  inv := hi.writeBack
  fresh := hfr.writeBack hl

theorem WrittenBack.trans {b₁ : BufferPool n (MemDisk α) α} (h : WrittenBack b b₁) (h' : WrittenBack b₁ b') :
    WrittenBack b b' where
  table := h'.table.trans h.table
  free := h'.free.trans h.free
  pinCount g := (h'.pinCount g).trans (h.pinCount g)
  next_eq := h'.next_eq.trans h.next_eq
  view_eq q := (h'.view_eq q).trans (h.view_eq q)
  clean q hc := h'.clean q (h.clean q hc)
  inv := h'.inv
  fresh := h'.fresh

theorem flushPage_writtenBack (hi : Inv b) (hfr : Fresh b) : WrittenBack b (b.flushPage p).2 := by
  unfold flushPage
  split
  · exact .refl hi hfr
  · next hl => exact writeBack_writtenBack hi hfr hl

theorem foldl_writeBack {l : List (Sigma fun _ : PageId => Fin n)} (hi : Inv b) (hfr : Fresh b)
    (hl : ∀ x ∈ l, b.pageTable.lookup x.1 = some x.2) :
    WrittenBack b (l.foldl (fun b item => b.writeBack item.1 item.2) b) := by
  induction l generalizing b with
  | nil => exact .refl hi hfr
  | cons x l ih =>
      have h := writeBack_writtenBack hi hfr (hl x List.mem_cons_self)
      exact h.trans (ih h.inv h.fresh fun y hy => hl y (List.mem_cons_of_mem _ hy))

theorem flushAllPages_writtenBack (hi : Inv b) (hfr : Fresh b) : WrittenBack b b.flushAllPages :=
  foldl_writeBack hi hfr fun _ hx => AList.mem_lookup_iff.mpr hx

theorem deletePage_absent (hi : Inv b) (hq : q ≠ p) :
    (b.deletePage p).2.view q = b.view q ∧ (b.Clean q → (b.deletePage p).2.Clean q) := by
  unfold deletePage
  split
  · exact ⟨rfl, id⟩
  · next f hl =>
      refine view_congr (AList.lookup_erase_ne hq) ?_ rfl
      intro g hg
      have hgf : g ≠ f := by
        rintro rfl
        exact hq (hi.injective hg hl)
      exact Function.update_of_ne hgf ..

theorem deletePage_of_none {D : Type} {b : BufferPool n D α} (hl : b.pageTable.lookup p = none) :
    (b.deletePage p).2 = b := by
  unfold deletePage
  rw [hl]

theorem deletePage_lookup {D : Type} {b : BufferPool n D α} (hl : b.pageTable.lookup p = some f) :
    (b.deletePage p).2.pageTable.lookup q = some g ↔ q ≠ p ∧ b.pageTable.lookup q = some g := by
  unfold deletePage
  rw [hl]
  by_cases hq : q = p
  · subst hq
    simp
  · simp [hq, AList.lookup_erase_ne hq]

theorem deletePage_pages {D : Type} {b : BufferPool n D α} (hl : b.pageTable.lookup p = some f) :
    (b.deletePage p).2.pages = Function.update b.pages f (Page.reset (b.pages f)) ∧
      (b.deletePage p).2.freeList = b.freeList ++ [f] ∧ (b.deletePage p).2.disk = b.disk := by
  unfold deletePage
  rw [hl]
  exact ⟨rfl, rfl, rfl⟩

end DBPlayground.Storage.BufferPool
