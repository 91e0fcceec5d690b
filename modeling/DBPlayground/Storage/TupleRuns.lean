import DBPlayground.Storage.TupleHeap

namespace DBPlayground.Storage.TupleStore

open ByteReader Machine ValuePage

variable {K V : Type} {s s' : PageStore (PageData K V)} {dir : Directory} {rid r : RID} {value : Bytes} {p : PageId}

/-- A loop of the source returns: with enough fuel the result is this one. -/
def Computes {β : Type} (m : Nat → PageM (PageData K V) β) (s : PageStore (PageData K V)) (b : β)
    (s' : PageStore (PageData K V)) : Prop :=
  ∃ n, ∀ fuel, n ≤ fuel → Returns PageStore.handler (m fuel) s b s'

theorem Computes.unique {β : Type} {m : Nat → PageM (PageData K V) β} {b b' : β} {t t' : PageStore (PageData K V)}
    (h : Computes m s b t) (h' : Computes m s b' t') : b = b' ∧ t = t' := by
  obtain ⟨n, hn⟩ := h
  obtain ⟨n', hn'⟩ := h'
  exact (hn (max n n') (Nat.le_max_left _ _)).unique (hn' (max n n') (Nat.le_max_right _ _))

section directory

theorem RID.ext_toNat (h : r.pageId = rid.pageId) (hn : r.slotNum.toNat = rid.slotNum.toNat) : r = rid := by
  cases r
  cases rid
  cases h
  exact congrArg _ (BitVec.eq_of_toNat_eq hn)

theorem Stored.frame (hs : Stored s dir) (hp : ∀ p ∈ dir.ids, s'.pages p = s.pages p)
    (hfirst : s'.members .firstPageId = s.members .firstPageId) (hnext : s.nextPageId ≤ s'.nextPageId) : Stored s' dir where
  chained := by
    rw [hfirst]
    exact hs.chained.congr fun q hq => ⟨hp q hq, rfl⟩
  nodup := hs.nodup
  range p hp := ⟨(hs.range p hp).1, Int.lt_of_lt_of_le (hs.range p hp).2 hnext⟩
  outside := hs.outside
  used := hs.used
  next := Int.le_trans hs.next hnext

theorem Stored.length_lt (hs : Stored s dir) (p : PageId) : (dir.slots p).length < 2 ^ 32 := by
  by_cases hp : p ∈ dir.ids
  · obtain ⟨v, _, hslot⟩ := hs.page hp
    have hd := hslot.dir_le
    have hle := hslot.ptr_le
    rw [slotOffset_eq] at hd
    rw [pageSize_eq] at hle
    omega
  · rw [hs.outside p hp]
    decide

theorem Stored.toNat_nextRid (hs : Stored s dir) (p : PageId) : (dir.nextRid p).slotNum.toNat = (dir.slots p).length := by
  have hlt := hs.length_lt p
  show (BitVec.ofNat 32 _).toNat = _
  rw [BitVec.toNat_ofNat, Nat.mod_eq_of_lt hlt]

theorem Stored.not_issued (hs : Stored s dir) (p : PageId) : ¬ dir.Issued (dir.nextRid p) := by
  rw [Directory.Issued, hs.toNat_nextRid]
  exact Nat.lt_irrefl _

theorem Stored.issued_add (hs : Stored s dir) : (dir.add p value).Issued r ↔ r = dir.nextRid p ∨ dir.Issued r := by
  have hnat := hs.toNat_nextRid p
  unfold Directory.Issued Directory.add Directory.set
  by_cases hr : r.pageId = p
  · dsimp only
    rw [hr, Function.update_self, List.length_append, List.length_singleton, Nat.lt_succ_iff_lt_or_eq, or_comm]
    refine or_congr_left ⟨fun he => RID.ext_toNat hr (he.trans hnat.symm), ?_⟩
    rintro rfl
    exact hnat
  · dsimp only
    rw [Function.update_of_ne hr]
    refine (or_iff_right ?_).symm
    rintro rfl
    exact hr rfl

theorem Stored.content_add (hs : Stored s dir) :
    (dir.add p value).content = Function.update dir.content (dir.nextRid p) (some value) := by
  have hnat := hs.toNat_nextRid p
  funext r
  unfold Directory.content Directory.add Directory.set
  by_cases hr : r.pageId = p
  · dsimp only
    rw [hr, Function.update_self]
    by_cases he : r = dir.nextRid p
    · rw [he, Function.update_self, hnat, List.getElem?_concat_length, Option.join_some]
    · have hne : r.slotNum.toNat ≠ (dir.slots p).length := fun hn => he (RID.ext_toNat hr (hn.trans hnat.symm))
      rw [Function.update_of_ne he, hr]
      by_cases hlt : r.slotNum.toNat < (dir.slots p).length
      · rw [List.getElem?_append_left hlt]
      · rw [List.getElem?_eq_none (by rw [List.length_append, List.length_singleton]; omega),
          List.getElem?_eq_none (by omega)]
  · dsimp only
    have he : r ≠ dir.nextRid p := by
      rintro rfl
      exact hr rfl
    rw [Function.update_of_ne hr, Function.update_of_ne he]

theorem Directory.change_ids {x : Option Bytes} (hp : rid.pageId ∈ dir.ids) : (dir.change rid x).ids = dir.ids :=
  if_pos hp

theorem Directory.issued_change {x : Option Bytes} : (dir.change rid x).Issued r ↔ dir.Issued r := by
  unfold Directory.Issued Directory.change Directory.set
  by_cases hr : r.pageId = rid.pageId
  · dsimp only
    rw [hr, Function.update_self, List.length_set]
  · dsimp only
    rw [Function.update_of_ne hr]

theorem Directory.content_change {x : Option Bytes} (hi : dir.Issued rid) :
    (dir.change rid x).content = Function.update dir.content rid x := by
  funext r
  unfold Directory.content Directory.change Directory.set
  by_cases hr : r.pageId = rid.pageId
  · dsimp only
    rw [hr, Function.update_self]
    by_cases he : r = rid
    · rw [he, Function.update_self, List.getElem?_set_self hi, Option.join_some]
    · have hne : rid.slotNum.toNat ≠ r.slotNum.toNat := fun hn => he (RID.ext_toNat hr hn.symm)
      rw [Function.update_of_ne he, List.getElem?_set_ne hne, hr]
  · dsimp only
    have he : r ≠ rid := by
      rintro rfl
      exact hr rfl
    rw [Function.update_of_ne hr, Function.update_of_ne he]

end directory

section calls

/-- A page store as a heap in which nobody holds a page. -/
def lift (s : PageStore (PageData K V)) : Heap (PageData K V) :=
  ⟨s.pages, fun _ => 0, fun _ => false, fun _ => false, s.nextPageId, s.members,
    s.pageSet, s.freed, s.waits, s.blocked, .start⟩

theorem Stored.rests (hs : Stored s dir) : Rests (lift s) dir :=
  ⟨⟨fun _ => rfl, fun _ => rfl, fun _ _ => rfl⟩, hs, fun _ _ => rfl⟩

theorem computes_put (hs : Stored s dir) (hv : value.length ≤ maxValueSize) :
    ∃ p s', Computes (put · value) s (dir.nextRid p) s' ∧ Stored s' (dir.add p value) :=
  ⟨_, _, ⟨dir.ids.length + 1, fun _ hf => (yields_put hs.rests hv hf).returns⟩, (hs.rests.put hv).stored⟩

theorem returns_get (hs : Stored s dir) (hi : dir.Issued rid) :
    Returns PageStore.handler (get rid) s (dir.content rid) s :=
  (yields_get hs.rests hi).returns

theorem returns_delete (hs : Stored s dir) (hi : dir.Issued rid) :
    ∃ s', Returns PageStore.handler (delete rid) s (dir.content rid).isSome s' ∧ Stored s' (dir.change rid none) :=
  ⟨_, (yields_delete hs.rests hi).returns, (hs.rests.delete hi).stored⟩

theorem computes_update_fits (hs : Stored s dir) (hf : dir.FitsInPlace rid value) :
    ∃ s', Computes (update · rid value) s rid s' ∧ Stored s' (dir.change rid (some value)) :=
  ⟨_, ⟨0, fun fuel _ => (yields_update_fits hs.rests hf fuel).returns⟩, (hs.rests.replace hf).stored⟩

theorem computes_update_moves (hs : Stored s dir) (hi : dir.Issued rid) (hf : ¬ dir.FitsInPlace rid value)
    (hv : value.length ≤ maxValueSize) :
    ∃ p s', Computes (update · rid value) s ((dir.change rid none).nextRid p) s' ∧
      Stored s' ((dir.change rid none).add p value) :=
  have hr := hs.rests.delete hi
  ⟨_, _, ⟨(dir.change rid none).ids.length + 1, fun fuel hfuel =>
    (yields_update_moves hs.rests hi hf fuel (yields_put hr hv hfuel)).returns⟩, (hr.put hv).stored⟩

end calls

/-- A heap of byte strings: the RIDs handed out, and what was stored last under
each, unless it was deleted or moved. -/
structure ByteHeap where
  issued : List RID
  content : RID → Option Bytes

namespace ByteHeap

def empty : ByteHeap := ⟨[], fun _ => none⟩

def put (a : ByteHeap) (rid : RID) (value : Bytes) : ByteHeap :=
  ⟨rid :: a.issued, Function.update a.content rid (some value)⟩

def delete (a : ByteHeap) (rid : RID) : ByteHeap := { a with content := Function.update a.content rid none }

def update (a : ByteHeap) (rid rid' : RID) (value : Bytes) : ByteHeap := (a.delete rid).put rid' value

end ByteHeap

/-- A store, and the history of the calls that led to it. -/
inductive Run : PageStore (PageData K V) → ByteHeap → Prop
  | start (s : PageStore (PageData K V)) (hnext : 0 ≤ s.nextPageId) (hfirst : s.members .firstPageId = invalidPageId) :
      Run s .empty
  | put {s s' : PageStore (PageData K V)} {a : ByteHeap} {value : Bytes} {rid : RID} (h : Run s a)
      (hv : value.length ≤ maxValueSize) (hr : Computes (put · value) s rid s') : Run s' (a.put rid value)
  | get {s s' : PageStore (PageData K V)} {a : ByteHeap} {rid : RID} {out : Option Bytes} (h : Run s a)
      (hi : rid ∈ a.issued) (hr : Returns PageStore.handler (get rid) s out s') : Run s' a
  | update {s s' : PageStore (PageData K V)} {a : ByteHeap} {rid rid' : RID} {value : Bytes} (h : Run s a)
      (hi : rid ∈ a.issued) (hv : value.length ≤ maxValueSize) (hr : Computes (update · rid value) s rid' s') :
      Run s' (a.update rid rid' value)
  | delete {s s' : PageStore (PageData K V)} {a : ByteHeap} {rid : RID} {out : Bool} (h : Run s a)
      (hi : rid ∈ a.issued) (hr : Returns PageStore.handler (delete rid) s out s') : Run s' (a.delete rid)

structure Refines (s : PageStore (PageData K V)) (a : ByteHeap) (dir : Directory) : Prop where
  stored : Stored s dir
  issued : ∀ r, r ∈ a.issued ↔ dir.Issued r
  content : a.content = dir.content

theorem refines_start (hnext : 0 ≤ s.nextPageId) (hfirst : s.members .firstPageId = invalidPageId) :
    Refines s .empty .empty where
  stored := ⟨hfirst, List.nodup_nil, nofun, fun _ _ => rfl, nofun, hnext⟩
  issued _ := ⟨nofun, fun h => absurd h (Nat.not_lt_zero _)⟩
  content := rfl

variable {a : ByteHeap}

theorem Refines.put (h : Refines s a dir) (hs' : Stored s' (dir.add p value)) :
    Refines s' (a.put (dir.nextRid p) value) (dir.add p value) where
  stored := hs'
  issued r := by
    rw [h.stored.issued_add, ← h.issued]
    exact List.mem_cons
  content := by
    rw [h.stored.content_add, ← h.content]
    rfl

theorem Refines.delete (h : Refines s a dir) (hi : dir.Issued rid) (hs' : Stored s' (dir.change rid none)) :
    Refines s' (a.delete rid) (dir.change rid none) where
  stored := hs'
  issued r := by
    rw [Directory.issued_change]
    exact h.issued r
  content := by
    rw [Directory.content_change hi, ← h.content]
    rfl

theorem Refines.replace (h : Refines s a dir) (hi : dir.Issued rid) (hs' : Stored s' (dir.change rid (some value))) :
    ∃ dir', Refines s' (a.update rid rid value) dir' := by
  refine ⟨_, hs', fun r => ?_, ?_⟩
  · rw [Directory.issued_change, ← h.issued]
    show r ∈ rid :: a.issued ↔ _
    rw [List.mem_cons, or_iff_right_of_imp]
    rintro rfl
    exact (h.issued r).mpr hi
  · rw [Directory.content_change hi, ← h.content]
    show Function.update (Function.update a.content rid none) rid (some value) = _
    rw [Function.update_idem]

theorem Refines.move (h : Refines s a dir) (hi : dir.Issued rid) (hs' : Stored s' ((dir.change rid none).add p value)) :
    Refines s' (a.update rid ((dir.change rid none).nextRid p) value) ((dir.change rid none).add p value) :=
  (h.delete hi (h.stored.rests.delete hi).stored).put hs'

theorem Refines.update (h : Refines s a dir) (hi : dir.Issued rid) (hv : value.length ≤ maxValueSize) :
    ∃ rid' s' dir', Computes (TupleStore.update · rid value) s rid' s' ∧ Refines s' (a.update rid rid' value) dir' ∧
      (rid' = rid ↔ dir.FitsInPlace rid value) ∧ (rid' ≠ rid → ¬ dir.Issued rid') := by
  by_cases hf : dir.FitsInPlace rid value
  · obtain ⟨s', hr, hs'⟩ := computes_update_fits h.stored hf
    obtain ⟨dir', hdir'⟩ := h.replace hi hs'
    exact ⟨rid, s', dir', hr, hdir', iff_of_true rfl hf, fun hne => absurd rfl hne⟩
  · obtain ⟨p, s', hr, hs'⟩ := computes_update_moves h.stored hi hf hv
    have hnew := (h.stored.rests.delete hi).stored.not_issued p
    rw [Directory.issued_change] at hnew
    refine ⟨_, s', _, hr, h.move hi hs', iff_of_false ?_ hf, fun _ => hnew⟩
    rintro he
    rw [he] at hnew
    exact hnew hi

theorem Run.refines (h : Run s a) : ∃ dir, Refines s a dir := by
  induction h with
  | start s hnext hfirst => exact ⟨_, refines_start hnext hfirst⟩
  | put _ hv hr ih =>
      obtain ⟨dir, hd⟩ := ih
      obtain ⟨p, t, hput, ht⟩ := computes_put hd.stored hv
      obtain ⟨rfl, rfl⟩ := hr.unique hput
      exact ⟨_, hd.put ht⟩
  | get _ hi hr ih =>
      obtain ⟨dir, hd⟩ := ih
      obtain ⟨_, rfl⟩ := hr.unique (returns_get hd.stored ((hd.issued _).mp hi))
      exact ⟨dir, hd⟩
  | update _ hi hv hr ih =>
      obtain ⟨dir, hd⟩ := ih
      obtain ⟨rid', t, dir', hup, hd', _⟩ := hd.update ((hd.issued _).mp hi) hv
      obtain ⟨rfl, rfl⟩ := hr.unique hup
      exact ⟨dir', hd'⟩
  | delete _ hi hr ih =>
      obtain ⟨dir, hd⟩ := ih
      have hi := (hd.issued _).mp hi
      obtain ⟨t, hdel, ht⟩ := returns_delete hd.stored hi
      obtain ⟨_, rfl⟩ := hr.unique hdel
      exact ⟨_, hd.delete hi ht⟩

/-- `Get` answers every RID as the history says, and changes nothing. -/
def Reads (s : PageStore (PageData K V)) (a : ByteHeap) : Prop :=
  ∀ r ∈ a.issued, Returns PageStore.handler (get r) s (a.content r) s

theorem Refines.reads (h : Refines s a dir) : Reads s a := by
  intro r hr
  rw [h.content]
  exact returns_get h.stored ((h.issued r).mp hr)

/-- The slot directory and the values of the live slots lie inside the page,
apart from each other. -/
structure LaidOut (v : ValuePage) : Prop where
  directory : slotOffset v.numSlots.toNat ≤ v.freePtr.toNat
  ptr_le : v.freePtr.toNat ≤ pageSize
  inside : ∀ i < v.numSlots.toNat, v.slotLength i ≠ kTombstone →
    v.freePtr.toNat ≤ v.slotStart i ∧ v.slotStart i + (v.slotLength i).toNat ≤ pageSize
  apart : ∀ i < v.numSlots.toNat, ∀ j < v.numSlots.toNat, i ≠ j → v.slotLength i ≠ kTombstone →
    v.slotLength j ≠ kTombstone → v.slotStart i + (v.slotLength i).toNat ≤ v.slotStart j ∨
      v.slotStart j + (v.slotLength j).toNat ≤ v.slotStart i

theorem laidOut_of_slotted {v : ValuePage} {slots : List (Option Bytes)} (h : v.Slotted slots) : LaidOut v := by
  have hlive : ∀ i < v.numSlots.toNat, v.slotLength i ≠ kTombstone →
      ∃ b, slots[i]? = some (some b) ∧ (v.slotLength i).toNat = b.length := by
    intro i hi hne
    rw [h.count] at hi
    cases hs : slots[i]? with
    | none => exact absurd (List.getElem?_eq_none_iff.mp hs) (by omega)
    | some x =>
        cases x with
        | none => exact absurd (h.holds hs) hne
        | some b =>
            obtain ⟨hb, hlen, _⟩ := h.holds hs
            exact ⟨b, rfl, by rw [hlen, toNat_length hb]⟩
  refine ⟨?_, h.ptr_le, ?_, ?_⟩
  · rw [h.count]
    exact h.dir_le
  · intro i hi hne
    obtain ⟨b, hb, hlen⟩ := hlive i hi hne
    obtain ⟨_, _, hlo, hhi, _⟩ := h.holds hb
    rw [hlen]
    exact ⟨hlo, hhi⟩
  · intro i hi j hj hij hni hnj
    obtain ⟨b, hb, hlen⟩ := hlive i hi hni
    obtain ⟨c, hc, hlen'⟩ := hlive j hj hnj
    rw [hlen, hlen']
    exact h.apart hij hb hc

/-- A tuple store is a heap of byte strings, on pages that are laid out without
overlap. -/
theorem store_refines_heap (h : Run s a) :
    (∀ value : Bytes, value.length ≤ maxValueSize → ∃ rid s', Computes (put · value) s rid s' ∧ rid ∉ a.issued ∧
      Reads s' (a.put rid value)) ∧
    Reads s a ∧
    (∀ rid ∈ a.issued, ∀ value : Bytes, value.length ≤ maxValueSize → ∃ rid' s',
      Computes (update · rid value) s rid' s' ∧
      (rid' = rid ↔ ∃ b, a.content rid = some b ∧ value.length ≤ b.length) ∧ (rid' ≠ rid → rid' ∉ a.issued) ∧
      Reads s' (a.update rid rid' value)) ∧
    (∀ rid ∈ a.issued, ∃ s', Returns PageStore.handler (delete rid) s (a.content rid).isSome s' ∧ Reads s' (a.delete rid)) ∧
    ∀ rid ∈ a.issued, ∃ v, s.pages rid.pageId = .value v ∧ LaidOut v := by
  obtain ⟨dir, hd⟩ := h.refines
  refine ⟨?_, hd.reads, ?_, ?_, ?_⟩
  · intro value hv
    obtain ⟨p, s', hput, hs'⟩ := computes_put hd.stored hv
    refine ⟨_, s', hput, ?_, (hd.put hs').reads⟩
    rw [hd.issued]
    exact hd.stored.not_issued p
  · intro rid hi value hv
    obtain ⟨rid', s', dir', hup, hd', hsame, hnew⟩ := hd.update ((hd.issued _).mp hi) hv
    refine ⟨rid', s', hup, ?_, ?_, hd'.reads⟩
    · rw [hsame, hd.content]
      exact Iff.rfl
    · rw [hd.issued]
      exact hnew
  · intro rid hi
    have hi := (hd.issued _).mp hi
    obtain ⟨s', hdel, hs'⟩ := returns_delete hd.stored hi
    rw [hd.content]
    exact ⟨s', hdel, (hd.delete hi hs').reads⟩
  · intro rid hi
    obtain ⟨v, hv, hslot⟩ := hd.stored.page (hd.stored.rests.issued ((hd.issued _).mp hi))
    exact ⟨v, hv, laidOut_of_slotted hslot⟩

def newStore : PageStore (PageData K V) where
  pages _ := .zero
  nextPageId := 0
  members _ := invalidPageId
  pageSet := []

theorem store_refines_two : ∃ (s : PageStore (PageData Unit Unit)) (a : ByteHeap) (rid rid' : RID), Run s a ∧
    rid ∈ a.issued ∧ rid' ∈ a.issued ∧ rid ≠ rid' ∧
    Returns PageStore.handler (get rid) s (some [1, 2]) s ∧ Returns PageStore.handler (get rid') s (some []) s := by
  have h₀ : Run (newStore : PageStore (PageData Unit Unit)) .empty := .start _ (Int.le_refl 0) rfl
  obtain ⟨rid, s₁, hput₁, _, _⟩ := (store_refines_heap h₀).1 [1, 2] (by decide)
  have h₁ := h₀.put (by decide) hput₁
  obtain ⟨rid', s₂, hput₂, hnew, _⟩ := (store_refines_heap h₁).1 [] (by decide)
  have h₂ := h₁.put (by decide) hput₂
  have hne : rid ≠ rid' := by
    rintro rfl
    exact hnew List.mem_cons_self
  have hreads := (store_refines_heap h₂).2.1
  refine ⟨s₂, _, rid, rid', h₂, List.mem_cons_of_mem _ List.mem_cons_self, List.mem_cons_self, hne, ?_, ?_⟩
  · have hget := hreads rid (List.mem_cons_of_mem _ List.mem_cons_self)
    rwa [show ((ByteHeap.empty.put rid [1, 2]).put rid' []).content rid = some [1, 2] from
      (Function.update_of_ne hne ..).trans (Function.update_self ..)] at hget
  · have hget := hreads rid' List.mem_cons_self
    rwa [show ((ByteHeap.empty.put rid [1, 2]).put rid' []).content rid' = some [] from Function.update_self ..] at hget

end DBPlayground.Storage.TupleStore
