import DBPlayground.Storage.BufferPool

namespace DBPlayground.Storage.BufferPool

variable {n : Nat} {D α : Type} [Inhabited α] {b b' : BufferPool n D α} {p q : PageId} {f g : Fin n}

theorem mem_dropLast_iff {l : List (Fin n)} (hn : l.Nodup) (hf : l.getLast? = some f) :
    g ∈ l.dropLast ↔ g ∈ l ∧ g ≠ f := by
  obtain ⟨l, rfl⟩ := List.getLast?_eq_some_iff.mp hf
  have hfl : f ∉ l := fun h => (List.nodup_append.mp hn).2.2 f h f (List.mem_singleton_self f) rfl
  rw [List.dropLast_concat, List.mem_append, List.mem_singleton]
  refine ⟨fun h => ⟨.inl h, ?_⟩, fun h => h.1.resolve_right h.2⟩
  rintro rfl
  exact hfl h

theorem mem_tail_iff {l : List (Fin n)} (hn : l.Nodup) (hf : l.head? = some f) :
    g ∈ l.tail ↔ g ∈ l ∧ g ≠ f := by
  obtain ⟨l, rfl⟩ := List.head?_eq_some_iff.mp hf
  rw [List.tail_cons, List.mem_cons]
  refine ⟨fun h => ⟨.inr h, ?_⟩, fun h => h.1.resolve_left h.2⟩
  rintro rfl
  exact (List.nodup_cons.mp hn).1 h

/-- What holds of the pool between two calls, whatever the calls were. -/
structure Inv (b : BufferPool n D α) : Prop where
  agrees : ∀ {p f}, b.pageTable.lookup p = some f → (b.pages f).pageId = p
  free_unbound : ∀ {f}, f ∈ b.freeList → ∀ p, b.pageTable.lookup p ≠ some f
  free_nodup : b.freeList.Nodup
  free_blank : ∀ {f}, f ∈ b.freeList → (b.pages f).data = default
  bound : ∀ {f}, f ∉ b.freeList → b.pageTable.lookup (b.pages f).pageId = some f
  idle : ∀ {f}, f ∉ b.freeList → (f ∈ b.replacer.unpinned ↔ (b.pages f).pinCount = 0)

theorem Inv.injective (hi : Inv b) (hp : b.pageTable.lookup p = some f) (hq : b.pageTable.lookup q = some f) :
    p = q :=
  (hi.agrees hp).symm.trans (hi.agrees hq)

theorem Inv.not_free (hi : Inv b) (hp : b.pageTable.lookup p = some f) : f ∉ b.freeList := fun hf =>
  hi.free_unbound hf p hp

theorem inv_new (disk : D) : Inv (new n disk : BufferPool n D α) where
  agrees h := by simp [new] at h
  free_unbound _ p h := by simp [new] at h
  free_nodup := List.nodup_finRange n
  free_blank _ := rfl
  bound h := absurd (List.mem_finRange _) h
  idle h := absurd (List.mem_finRange _) h

/-- A change of data, dirty flags or disk keeps the invariant, as long as the
frames in the free list stay zeroed. -/
theorem Inv.congr (hi : Inv b) (ht : b'.pageTable = b.pageTable) (hf : b'.freeList = b.freeList)
    (hr : b'.replacer = b.replacer) (hp : ∀ g, (b'.pages g).pageId = (b.pages g).pageId)
    (hc : ∀ g, (b'.pages g).pinCount = (b.pages g).pinCount)
    (hd : ∀ g ∈ b.freeList, (b'.pages g).data = (b.pages g).data) : Inv b' where
  agrees {p f} h := by
    rw [hp]
    exact hi.agrees (ht ▸ h)
  free_unbound {f} h p := by
    rw [ht]
    exact hi.free_unbound (hf ▸ h) p
  free_nodup := hf ▸ hi.free_nodup
  free_blank {f} h := (hd f (hf ▸ h)).trans (hi.free_blank (hf ▸ h))
  bound {f} h := by
    rw [ht, hp]
    exact hi.bound (hf ▸ h)
  idle {f} h := by
    rw [hr, hc]
    exact hi.idle (hf ▸ h)

theorem Inv.bind {page : Page α} (hi : Inv b) (hp : b.pageTable.lookup p = none)
    (hid : page.pageId = p) (hpin : 0 < page.pinCount)
    (hpages : b'.pages = Function.update b.pages f page)
    (hfree : ∀ g, g ∈ b'.freeList ↔ g ∈ b.freeList ∧ g ≠ f) (hnodup : b'.freeList.Nodup)
    (htable : b'.pageTable = b.pageTable.insert p f) (hrep : b'.replacer = b.replacer.pin f)
    (hf : f ∈ b.freeList) : Inv b' where
  agrees {q g} h := by
    rw [htable] at h
    rw [hpages]
    by_cases hq : q = p
    · rw [hq, AList.lookup_insert] at h
      cases h
      rw [Function.update_self, hid, hq]
    · rw [AList.lookup_insert_ne hq] at h
      have hg : g ≠ f := by
        rintro rfl
        exact hi.free_unbound hf q h
      rw [Function.update_of_ne hg]
      exact hi.agrees h
  free_unbound {g} hg q h := by
    obtain ⟨hg, hgf⟩ := (hfree g).mp hg
    rw [htable] at h
    by_cases hq : q = p
    · rw [hq, AList.lookup_insert] at h
      cases h
      exact hgf rfl
    · rw [AList.lookup_insert_ne hq] at h
      exact hi.free_unbound hg q h
  free_nodup := hnodup
  free_blank {g} hg := by
    obtain ⟨hg, hgf⟩ := (hfree g).mp hg
    rw [hpages, Function.update_of_ne hgf]
    exact hi.free_blank hg
  bound {g} hg := by
    rw [htable, hpages]
    by_cases hgf : g = f
    · rw [hgf, Function.update_self, hid, AList.lookup_insert]
    · rw [Function.update_of_ne hgf]
      have hb := hi.bound fun h => hg ((hfree g).mpr ⟨h, hgf⟩)
      rwa [AList.lookup_insert_ne]
      intro he
      rw [he, hp] at hb
      cases hb
  idle {g} hg := by
    rw [hrep, LRUReplacer.mem_pin, hpages]
    by_cases hgf : g = f
    · rw [hgf, Function.update_self]
      exact ⟨fun h => absurd rfl h.1, fun h => absurd h hpin.ne'⟩
    · rw [Function.update_of_ne hgf, ← hi.idle fun h => hg ((hfree g).mpr ⟨h, hgf⟩)]
      exact ⟨And.right, fun h => ⟨hgf, h⟩⟩

theorem Inv.release (hi : Inv b) (hp : b.pageTable.lookup p = some f)
    (hpages : b'.pages = Function.update b.pages f (Page.reset (b.pages f)))
    (hfree : b'.freeList = b.freeList ++ [f]) (htable : b'.pageTable = b.pageTable.erase p)
    (hrep : ∀ g, g ≠ f → (g ∈ b'.replacer.unpinned ↔ g ∈ b.replacer.unpinned)) : Inv b' where
  agrees {q g} h := by
    rw [htable] at h
    by_cases hq : q = p
    · rw [hq, AList.lookup_erase] at h
      cases h
    · rw [AList.lookup_erase_ne hq] at h
      have hg : g ≠ f := by
        rintro rfl
        exact hq (hi.injective h hp)
      rw [hpages, Function.update_of_ne hg]
      exact hi.agrees h
  free_unbound {g} hg q h := by
    rw [htable] at h
    by_cases hq : q = p
    · rw [hq, AList.lookup_erase] at h
      cases h
    · rw [AList.lookup_erase_ne hq] at h
      rw [hfree, List.mem_append, List.mem_singleton] at hg
      rcases hg with hg | rfl
      · exact hi.free_unbound hg q h
      · exact hq (hi.injective h hp)
  free_nodup := by
    rw [hfree]
    refine List.nodup_append.mpr ⟨hi.free_nodup, List.nodup_singleton f, ?_⟩
    rintro a ha _ hb rfl
    rw [List.mem_singleton.mp hb] at ha
    exact hi.not_free hp ha
  free_blank {g} hg := by
    rw [hpages]
    by_cases hgf : g = f
    · rw [hgf, Function.update_self]
      rfl
    · rw [Function.update_of_ne hgf]
      rw [hfree, List.mem_append, List.mem_singleton] at hg
      exact hi.free_blank (hg.resolve_right hgf)
  bound {g} hg := by
    rw [hfree, List.mem_append, List.mem_singleton, not_or] at hg
    have hb := hi.bound hg.1
    rw [hpages, htable, Function.update_of_ne hg.2]
    rwa [AList.lookup_erase_ne]
    intro he
    rw [he, hp] at hb
    exact hg.2 (Option.some.inj hb).symm
  idle {g} hg := by
    rw [hfree, List.mem_append, List.mem_singleton, not_or] at hg
    rw [hpages, Function.update_of_ne hg.2, hrep g hg.2]
    exact hi.idle hg.1

theorem Inv.repin {page : Page α} (hi : Inv b) (hp : b.pageTable.lookup p = some f)
    (hpages : b'.pages = Function.update b.pages f page) (hid : page.pageId = p)
    (hfree : b'.freeList = b.freeList) (htable : b'.pageTable = b.pageTable)
    (hrep : ∀ g, g ≠ f → (g ∈ b'.replacer.unpinned ↔ g ∈ b.replacer.unpinned))
    (hself : f ∈ b'.replacer.unpinned ↔ page.pinCount = 0) : Inv b' where
  agrees {q g} h := by
    rw [htable] at h
    rw [hpages]
    by_cases hgf : g = f
    · rw [hgf] at h ⊢
      rw [Function.update_self, hid]
      exact hi.injective hp h
    · rw [Function.update_of_ne hgf]
      exact hi.agrees h
  free_unbound {g} hg q := by
    rw [htable]
    exact hi.free_unbound (hfree ▸ hg) q
  free_nodup := hfree ▸ hi.free_nodup
  free_blank {g} hg := by
    rw [hfree] at hg
    have hgf : g ≠ f := by
      rintro rfl
      exact hi.not_free hp hg
    rw [hpages, Function.update_of_ne hgf]
    exact hi.free_blank hg
  bound {g} hg := by
    rw [htable, hpages]
    by_cases hgf : g = f
    · rw [hgf, Function.update_self, hid]
      exact hp
    · rw [Function.update_of_ne hgf]
      exact hi.bound (hfree ▸ hg)
  idle {g} hg := by
    rw [hpages]
    by_cases hgf : g = f
    · rw [hgf, Function.update_self]
      exact hself
    · rw [Function.update_of_ne hgf, hrep g hgf]
      exact hi.idle (hfree ▸ hg)

section

variable [Disk D α]

theorem evict_cases (hi : Inv b) (hfree : b.freeList = []) (h : b.evict = some b') :
    ∃ p f, b.pageTable.lookup p = some f ∧ (b.pages f).pinCount = 0 ∧
      b'.pages = Function.update b.pages f (Page.reset (b.pages f)) ∧
      b'.freeList = b.freeList ++ [f] ∧ b'.pageTable = b.pageTable.erase p ∧
      b.replacer.unpinned = f :: b'.replacer.unpinned ∧
      b'.disk = if (b.pages f).isDirty then Disk.writePage b.disk p (b.pages f).data else b.disk := by
  unfold evict at h
  split at h
  · cases h
  · next f r hv =>
      have hu := LRUReplacer.victim_eq_some hv
      have hf : f ∉ b.freeList := by
        rw [hfree]
        exact List.not_mem_nil
      have hpin : (b.pages f).pinCount = 0 := (hi.idle hf).mp (hu ▸ List.mem_cons_self)
      cases h
      exact ⟨(b.pages f).pageId, f, hi.bound hf, hpin, rfl, rfl, rfl, hu, rfl⟩

theorem Inv.evict (hi : Inv b) (hfree : b.freeList = []) (h : b.evict = some b') : Inv b' := by
  obtain ⟨p, f, hp, _, hpages, hfl, htable, hu, _⟩ := evict_cases hi hfree h
  refine hi.release hp hpages hfl htable ?_
  intro g hgf
  rw [hu, List.mem_cons]
  exact ⟨.inr, fun h => h.resolve_left hgf⟩

theorem Inv.makeRoom (hi : Inv b) (h : b.makeRoom = some b') : Inv b' := by
  unfold BufferPool.makeRoom at h
  split at h
  · next hfree => exact hi.evict hfree h
  · cases h
    exact hi

theorem makeRoom_lookup (hi : Inv b) (h : b.makeRoom = some b') (hq : b'.pageTable.lookup q = some g) :
    b.pageTable.lookup q = some g ∧ b'.pages g = b.pages g := by
  unfold BufferPool.makeRoom at h
  split at h
  · next hfree =>
      obtain ⟨p, f, hp, _, hpages, _, htable, _⟩ := evict_cases hi hfree h
      rw [htable] at hq
      by_cases he : q = p
      · rw [he, AList.lookup_erase] at hq
        cases hq
      · rw [AList.lookup_erase_ne he] at hq
        have hg : g ≠ f := by
          rintro rfl
          exact he (hi.injective hq hp)
        rw [hpages, Function.update_of_ne hg]
        exact ⟨hq, rfl⟩
  · cases h
    exact ⟨hq, rfl⟩

theorem makeRoom_pinned (hi : Inv b) (h : b.makeRoom = some b') (hq : b.pageTable.lookup q = some g)
    (hpin : 0 < (b.pages g).pinCount) : b'.pageTable.lookup q = some g := by
  unfold BufferPool.makeRoom at h
  split at h
  · next hfree =>
      obtain ⟨p, f, hp, hzero, _, _, htable, _⟩ := evict_cases hi hfree h
      rw [htable, AList.lookup_erase_ne]
      · exact hq
      · rintro rfl
        rw [hp] at hq
        cases hq
        exact hpin.ne' hzero
  · cases h
    exact hq

theorem makeRoom_nonresident (hi : Inv b) (h : b.makeRoom = some b') (hq : b.pageTable.lookup q = none) :
    b'.pageTable.lookup q = none := by
  cases hq' : b'.pageTable.lookup q with
  | none => rfl
  | some g =>
      rw [(makeRoom_lookup hi h hq').1] at hq
      cases hq

theorem makeRoom_free (hi : Inv b) (h : b.makeRoom = some b') (hg : g ∈ b'.freeList) :
    (b'.pages g).pinCount = (b.pages g).pinCount ∧ (g ∈ b.freeList ∨ (b.pages g).pinCount = 0) := by
  unfold BufferPool.makeRoom at h
  split at h
  · next hfree =>
      obtain ⟨p, f, hp, hzero, hpages, hfl, _⟩ := evict_cases hi hfree h
      rw [hfl, hfree, List.nil_append, List.mem_singleton] at hg
      rw [hg, hpages, Function.update_self]
      exact ⟨rfl, .inr hzero⟩
  · cases h
    exact ⟨rfl, .inl hg⟩

theorem fetchPage_cases (h : b.fetchPage p = some (f, b')) :
    (b.pageTable.lookup p = some f ∧ b' = b.pinAgain f) ∨
    (b.pageTable.lookup p = none ∧
      ∃ b₁, b.makeRoom = some b₁ ∧ b₁.freeList.getLast? = some f ∧ b' = b₁.load p f) := by
  unfold fetchPage at h
  split at h
  · next hl =>
      cases h
      exact .inl ⟨hl, rfl⟩
  · next hl =>
      simp only [Option.bind_eq_bind, Option.bind_eq_some_iff, Option.pure_def, Option.some.injEq,
        Prod.mk.injEq] at h
      obtain ⟨b₁, hr, f', hf, rfl, rfl⟩ := h
      exact .inr ⟨hl, b₁, hr, hf, rfl⟩

theorem Inv.load (hi : Inv b) (hp : b.pageTable.lookup p = none) (hf : b.freeList.getLast? = some f) :
    Inv (b.load p f) :=
  Inv.bind hi hp rfl (Nat.succ_pos _) rfl (fun _ => mem_dropLast_iff hi.free_nodup hf)
    (hi.free_nodup.sublist (List.dropLast_sublist _)) rfl rfl (List.mem_of_getLast? hf)

theorem Inv.fetchPage (hi : Inv b) (h : b.fetchPage p = some (f, b')) : Inv b' := by
  obtain ⟨hl, rfl⟩ | ⟨hl, b₁, hr, hf, rfl⟩ := fetchPage_cases h
  · refine hi.repin hl rfl (hi.agrees hl) rfl rfl ?_ ?_
    · intro g hgf
      exact LRUReplacer.mem_pin.trans ⟨And.right, fun h => ⟨hgf, h⟩⟩
    · exact ⟨fun h => absurd rfl (LRUReplacer.mem_pin.mp h).1, fun h => absurd h (Nat.succ_ne_zero _)⟩
  · exact (hi.makeRoom hr).load (makeRoom_nonresident hi hr hl) hf

theorem newPage_cases (h : b.newPage = some (f, b')) :
    ∃ b₁, b.makeRoom = some b₁ ∧ b₁.freeList.head? = some f ∧ b' = b₁.create f := by
  unfold newPage at h
  split at h
  · cases h
  · simp only [Option.bind_eq_bind, Option.bind_eq_some_iff, Option.pure_def, Option.some.injEq,
      Prod.mk.injEq] at h
    obtain ⟨b₁, hr, f', hf, rfl, rfl⟩ := h
    exact ⟨b₁, hr, hf, rfl⟩

theorem Inv.create (hi : Inv b) (hp : b.pageTable.lookup (Disk.allocatePage b.disk).1 = none)
    (hf : b.freeList.head? = some f) : Inv (b.create f) :=
  Inv.bind hi hp rfl Nat.one_pos rfl (fun _ => mem_tail_iff hi.free_nodup hf)
    (hi.free_nodup.sublist (List.tail_sublist _)) rfl rfl (List.mem_of_head? hf)

theorem makeRoom_rest {b₁ : BufferPool n D α} {rest : List (Fin n)} (hi : Inv b) (hr : b.makeRoom = some b₁)
    (hrest : ∀ g, g ∈ rest ↔ g ∈ b₁.freeList ∧ g ≠ f) (hf : f ∈ b₁.freeList) (hg : g ∈ rest) :
    g ∈ b.freeList ∧ b₁.pages g = b.pages g := by
  obtain ⟨hg, hgf⟩ := (hrest g).mp hg
  unfold makeRoom at hr
  split at hr
  · next hfree =>
      obtain ⟨_, f', _, _, _, hfl, _⟩ := evict_cases hi hfree hr
      rw [hfl, hfree, List.nil_append, List.mem_singleton] at hg hf
      exact absurd (hg.trans hf.symm) hgf
  · cases hr
    exact ⟨hg, rfl⟩

theorem fetchPage_free (hi : Inv b) (h : b.fetchPage p = some (f, b')) (hg : g ∈ b'.freeList) :
    g ∈ b.freeList ∧ b'.pages g = b.pages g := by
  obtain ⟨hl, rfl⟩ | ⟨_, b₁, hr, hf, rfl⟩ := fetchPage_cases h
  · have hgf : g ≠ f := by
      rintro rfl
      exact hi.not_free hl hg
    exact ⟨hg, Function.update_of_ne hgf ..⟩
  · have hrest := fun g => mem_dropLast_iff (g := g) (hi.makeRoom hr).free_nodup hf
    obtain ⟨hgb, hpage⟩ := makeRoom_rest hi hr hrest (List.mem_of_getLast? hf) hg
    exact ⟨hgb, (Function.update_of_ne ((hrest g).mp hg).2 ..).trans hpage⟩

theorem newPage_free (hi : Inv b) (h : b.newPage = some (f, b')) (hg : g ∈ b'.freeList) :
    g ∈ b.freeList ∧ b'.pages g = b.pages g := by
  obtain ⟨b₁, hr, hf, rfl⟩ := newPage_cases h
  have hrest := fun g => mem_tail_iff (g := g) (hi.makeRoom hr).free_nodup hf
  obtain ⟨hgb, hpage⟩ := makeRoom_rest hi hr hrest (List.mem_of_head? hf) hg
  exact ⟨hgb, (Function.update_of_ne ((hrest g).mp hg).2 ..).trans hpage⟩

theorem Inv.writeBack (hi : Inv b) : Inv (b.writeBack p f) := by
  have hg : ∀ g, (b.writeBack p f).pages g = b.pages g ∨
      (b.writeBack p f).pages g = { b.pages g with isDirty := false } := by
    intro g
    by_cases hgf : g = f
    · subst hgf
      exact .inr (Function.update_self ..)
    · exact .inl (Function.update_of_ne hgf ..)
  refine hi.congr rfl rfl rfl ?_ ?_ ?_
  · intro g
    rcases hg g with h | h <;> rw [h]
  · intro g
    rcases hg g with h | h <;> rw [h]
  · intro g _
    rcases hg g with h | h <;> rw [h]

theorem Inv.flushPage (hi : Inv b) : Inv (b.flushPage p).2 := by
  unfold BufferPool.flushPage
  split
  · exact hi
  · exact hi.writeBack

theorem Inv.flushAllPages (hi : Inv b) : Inv b.flushAllPages := by
  unfold BufferPool.flushAllPages
  generalize b.pageTable.entries = l
  induction l generalizing b with
  | nil => exact hi
  | cons x l ih => exact ih hi.writeBack

end

theorem Inv.writeData (hi : Inv b) (hp : b.pageTable.lookup p = some f) (data : α) :
    Inv (b.writeData f data) := by
  refine hi.repin hp rfl (hi.agrees hp) rfl rfl (fun _ _ => Iff.rfl) ?_
  exact hi.idle (hi.not_free hp)

theorem Inv.unpinPage (hi : Inv b) (d : Bool) : Inv (b.unpinPage p d).2 := by
  unfold BufferPool.unpinPage
  split
  · exact hi
  · next f hl =>
      have hself := hi.idle (hi.not_free hl)
      dsimp only
      split
      · exact hi.repin hl rfl (hi.agrees hl) rfl rfl (fun _ _ => Iff.rfl) hself
      · next hpos =>
          split
          · next hz =>
              refine hi.repin hl rfl (hi.agrees hl) rfl rfl ?_ ?_
              · intro g hgf
                exact LRUReplacer.mem_unpin.trans ⟨fun h => h.resolve_left hgf, .inr⟩
              · exact ⟨fun _ => hz, fun _ => LRUReplacer.mem_unpin.mpr (.inl rfl)⟩
          · next hz =>
              refine hi.repin hl rfl (hi.agrees hl) rfl rfl (fun _ _ => Iff.rfl) ?_
              refine ⟨fun h => ?_, fun h => absurd h hz⟩
              have := hself.mp h
              omega

theorem Inv.deletePage (hi : Inv b) : Inv (b.deletePage p).2 := by
  unfold BufferPool.deletePage
  split
  · exact hi
  · next f hl =>
      refine hi.release hl rfl rfl rfl ?_
      intro g hgf
      exact LRUReplacer.mem_unpin.trans ⟨fun h => h.resolve_left hgf, .inr⟩

end DBPlayground.Storage.BufferPool
