import DBPlayground.Storage.Heap
import DBPlayground.Storage.SlottedPage
import DBPlayground.Storage.TupleStore
import Mathlib.Logic.Function.Basic

namespace DBPlayground.Storage

open ByteReader Machine

namespace PageStore

variable {α : Type}

def write (s : PageStore α) (p : PageId) (data : α) : PageStore α := { s with pages := Function.update s.pages p data }

def alloc (s : PageStore α) (data : α) : PageStore α :=
  { s with pages := Function.update s.pages s.nextPageId data, nextPageId := s.nextPageId + 1 }

def setMember (s : PageStore α) (m : Member) (p : PageId) : PageStore α :=
  { s with members := Function.update s.members m p }

@[simp] theorem setMember_self {s : PageStore α} {m : Member} {p : PageId} : (s.setMember m p).members m = p :=
  Function.update_self ..

end PageStore

namespace Heap

variable {α : Type} {h : Heap α} {p : PageId} {data : α}

/-- No page is held, and the ids still to be handed out have no history. -/
structure Calm (h : Heap α) : Prop where
  pins : ∀ p, h.pins p = 0
  pending : ∀ p, h.pending p = false
  fresh : ∀ p, h.nextPageId ≤ p → h.dead p = false

def write (h : Heap α) (p : PageId) (data : α) : Heap α := { h with data := Function.update h.data p data }

def alloc (h : Heap α) (data : α) : Heap α :=
  { h with data := Function.update h.data h.nextPageId data, nextPageId := h.nextPageId + 1 }

theorem Calm.write (hc : h.Calm) : (h.write p data).Calm := ⟨hc.pins, hc.pending, hc.fresh⟩

theorem Calm.alloc (hc : h.Calm) : (h.alloc data).Calm :=
  ⟨hc.pins, hc.pending, fun p hp => hc.fresh p (Int.le_trans (Int.le_of_lt (Int.lt_succ _)) hp)⟩

theorem Calm.setMember {m : Member} (hc : h.Calm) : (h.setMember m p).Calm := ⟨hc.pins, hc.pending, hc.fresh⟩

theorem held_pin (hp : h.Live p) : (h.pin p).Held p := by
  refine ⟨hp.2.2, ?_⟩
  show 0 < Function.update h.pins p (h.pins p + 1) p
  rw [Function.update_self]
  exact Nat.succ_pos _

theorem unpin_pin (hc : h.Calm) (p : PageId) : (h.pin p).unpin p = h := by
  have hp := hc.pending p
  simp only [pin, unpin, Function.update_idem, Function.update_self, Nat.add_sub_cancel, Function.update_eq_self]
  rw [← hp, Function.update_eq_self]

theorem unpin_put_pin (hc : h.Calm) (p : PageId) (data : α) : ((h.pin p).put p data).unpin p = h.write p data := by
  have hp := hc.pending p
  simp only [pin, put, unpin, write, Function.update_idem, Function.update_self, Nat.add_sub_cancel,
    Function.update_eq_self]
  rw [← hp, Function.update_eq_self]

section

variable [Overlay α] {β : Type} {Q : β → Heap α → Prop} {f : Unit → PageM α β}

theorem ensures_giveBack (hc : h.Calm) (hp : h.Live p) {w : Bool} (hf : Ensures (f ()) h Q) :
    Ensures (PageM.unpinPage p w >>= f) (h.pin p) Q := by
  refine ensures_unpinPage (held_pin hp) (fun hw => absurd ((hc.pending p).symm.trans hw) (by decide)) ?_
  rwa [unpin_pin hc]

theorem ensures_writeBack (hc : h.Calm) (hp : h.Live p) (hf : Ensures (f ()) (h.write p data) Q) :
    Ensures (PageM.unpinPage p true >>= f) ((h.pin p).put p data) Q := by
  refine ensures_unpinPage (held_pin hp) (fun _ => rfl) ?_
  rwa [unpin_put_pin hc]

end

section

variable {K V β : Type} {h : Heap (PageData K V)} {Q : β → Heap (PageData K V) → Prop}
  {f : ValuePage → PageM (PageData K V) β}

theorem ensures_getValuePage {v : ValuePage} (hp : h.Held p) (hv : h.data p = .value v) (hf : Ensures (f v) h Q) :
    Ensures (PageM.getValuePage p >>= f) h Q := by
  unfold PageM.getValuePage
  rw [bind_assoc]
  refine ensures_getData hp ?_
  rw [hv]
  exact hf

theorem ensures_getValuePage_zero (hp : h.Held p) (hv : h.data p = .zero) (hf : Ensures (f .zero) h Q) :
    Ensures (PageM.getValuePage p >>= f) h Q := by
  unfold PageM.getValuePage
  rw [bind_assoc]
  refine ensures_getData hp ?_
  rw [hv]
  exact hf

end

abbrev Yields {β : Type} [Overlay α] (m : PageM α β) (h : Heap α) (b : β) (h' : Heap α) : Prop :=
  Ensures m h fun r t => r = b ∧ t = h'

theorem Yields.returns {β : Type} [Overlay α] {m : PageM α β} {b : β} {h' : Heap α} (hm : Yields m h b h') :
    Returns PageStore.handler m h.erase b h'.erase := by
  obtain ⟨_, _, hr, rfl, rfl⟩ := hm.erase
  exact hr

end Heap

namespace TupleStore

open ValuePage

variable {K V : Type}

/-- What a tuple store holds: its pages, in the order of the chain, and the slots
of each. -/
structure Directory where
  ids : List PageId
  slots : PageId → List (Option Bytes)

namespace Directory

def empty : Directory := ⟨[], fun _ => []⟩

def content (dir : Directory) (rid : RID) : Option Bytes := ((dir.slots rid.pageId)[rid.slotNum.toNat]?).join

def Issued (dir : Directory) (rid : RID) : Prop := rid.slotNum.toNat < (dir.slots rid.pageId).length

def set (dir : Directory) (p : PageId) (slots : List (Option Bytes)) : Directory :=
  ⟨if p ∈ dir.ids then dir.ids else p :: dir.ids, Function.update dir.slots p slots⟩

def nextRid (dir : Directory) (p : PageId) : RID := ⟨p, BitVec.ofNat 32 (dir.slots p).length⟩

def add (dir : Directory) (p : PageId) (value : Bytes) : Directory := dir.set p (dir.slots p ++ [some value])

def change (dir : Directory) (rid : RID) (x : Option Bytes) : Directory :=
  dir.set rid.pageId ((dir.slots rid.pageId).set rid.slotNum.toNat x)

end Directory

def Chained (pages : PageId → PageData K V) (slots : PageId → List (Option Bytes)) : PageId → List PageId → Prop
  | p, [] => p = invalidPageId
  | p, q :: rest => p = q ∧ ∃ v, pages q = .value v ∧ v.Slotted (slots q) ∧ Chained pages slots v.nextPageId rest

/-- The pages of the store are a chain with these contents. -/
structure Stored (s : PageStore (PageData K V)) (dir : Directory) : Prop where
  chained : Chained s.pages dir.slots (s.members .firstPageId) dir.ids
  nodup : dir.ids.Nodup
  range : ∀ p ∈ dir.ids, 0 ≤ p ∧ p < s.nextPageId
  outside : ∀ p, p ∉ dir.ids → dir.slots p = []
  used : ∀ p ∈ dir.ids, dir.slots p ≠ []
  next : 0 ≤ s.nextPageId

section chain

variable {pages : PageId → PageData K V} {slots slots' : PageId → List (Option Bytes)} {p q : PageId}
  {ids : List PageId} {data : PageData K V}

theorem Chained.page (h : Chained pages slots p ids) (hq : q ∈ ids) : ∃ v, pages q = .value v ∧ v.Slotted (slots q) := by
  induction ids generalizing p with
  | nil => cases hq
  | cons r rest ih =>
      obtain ⟨_, v, hv, hs, hrest⟩ := h
      rcases List.mem_cons.mp hq with rfl | hq
      · exact ⟨v, hv, hs⟩
      · exact ih hrest hq

theorem Chained.congr (h : Chained pages slots p ids) {pages' : PageId → PageData K V}
    (hp : ∀ q ∈ ids, pages' q = pages q ∧ slots' q = slots q) : Chained pages' slots' p ids := by
  induction ids generalizing p with
  | nil => exact h
  | cons r rest ih =>
      obtain ⟨hr, v, hv, hs, hrest⟩ := h
      obtain ⟨hpr, hsr⟩ := hp r List.mem_cons_self
      refine ⟨hr, v, hpr.trans hv, ?_, ih hrest fun q hq => hp q (List.mem_cons_of_mem r hq)⟩
      rw [hsr]
      exact hs

theorem Chained.write (h : Chained pages slots p ids) (hn : ids.Nodup) {v v' : ValuePage} {new : List (Option Bytes)}
    (hv : pages q = .value v) (hs : v'.Slotted new) (hnext : v'.nextPageId = v.nextPageId) :
    Chained (Function.update pages q (.value v')) (Function.update slots q new) p ids := by
  induction ids generalizing p with
  | nil => exact h
  | cons r rest ih =>
      obtain ⟨hr, w, hw, hsw, hrest⟩ := h
      obtain ⟨hnr, hnrest⟩ := List.nodup_cons.mp hn
      refine ⟨hr, ?_⟩
      by_cases hrq : r = q
      · subst hrq
        obtain rfl : v = w := by
          rw [hv] at hw
          exact PageData.value.inj hw
        refine ⟨v', Function.update_self .., ?_, ?_⟩
        · rw [Function.update_self]
          exact hs
        · rw [hnext]
          refine hrest.congr fun s hs => ?_
          have hne : s ≠ r := fun he => hnr (he ▸ hs)
          exact ⟨Function.update_of_ne hne .., Function.update_of_ne hne ..⟩
      · refine ⟨w, (Function.update_of_ne hrq ..).trans hw, ?_, ih hrest hnrest⟩
        rw [Function.update_of_ne hrq]
        exact hsw

end chain

section stored

variable {s : PageStore (PageData K V)} {dir : Directory} {p : PageId} {v v' : ValuePage} {new : List (Option Bytes)}

theorem Stored.page (hs : Stored s dir) (hp : p ∈ dir.ids) : ∃ v, s.pages p = .value v ∧ v.Slotted (dir.slots p) :=
  hs.chained.page hp

theorem Directory.set_ids_mem (hp : p ∈ dir.ids) : (dir.set p new).ids = dir.ids := if_pos hp

theorem Directory.set_ids_new (hp : p ∉ dir.ids) : (dir.set p new).ids = p :: dir.ids := if_neg hp

theorem Stored.write (hs : Stored s dir) (hp : p ∈ dir.ids) (hv : s.pages p = .value v) (hv' : v'.Slotted new)
    (hnext : v'.nextPageId = v.nextPageId) (hne : new ≠ []) : Stored (s.write p (.value v')) (dir.set p new) := by
  have hslots : ∀ q, q ≠ p → (dir.set p new).slots q = dir.slots q := fun q hq => Function.update_of_ne hq ..
  refine ⟨?_, ?_, ?_, ?_, ?_, hs.next⟩ <;> rw [Directory.set_ids_mem hp]
  · exact hs.chained.write hs.nodup hv hv' hnext
  · exact hs.nodup
  · exact hs.range
  · intro q hq
    rw [hslots q fun he => hq (he ▸ hp)]
    exact hs.outside q hq
  · intro q hq
    by_cases hqp : q = p
    · rw [hqp]
      exact (Function.update_self p new dir.slots).trans_ne hne
    · rw [hslots q hqp]
      exact hs.used q hq

theorem Stored.fresh (hs : Stored s dir) : s.nextPageId ∉ dir.ids := fun hp => absurd (hs.range _ hp).2 (lt_irrefl _)

theorem Stored.push (hs : Stored s dir) (hv' : v'.Slotted new) (hnext : v'.nextPageId = s.members .firstPageId)
    (hne : new ≠ []) :
    Stored ((s.alloc (.value v')).setMember .firstPageId s.nextPageId) (dir.set s.nextPageId new) := by
  have hfresh := hs.fresh
  have hother : ∀ q ∈ dir.ids, q ≠ s.nextPageId := fun q hq he => hfresh (he ▸ hq)
  refine ⟨?_, ?_, ?_, ?_, ?_, ?_⟩
  · rw [Directory.set_ids_new hfresh]
    refine ⟨PageStore.setMember_self, v', Function.update_self .., ?_, ?_⟩
    · rw [show (dir.set s.nextPageId new).slots s.nextPageId = new from Function.update_self ..]
      exact hv'
    · rw [hnext]
      refine hs.chained.congr fun q hq => ?_
      exact ⟨Function.update_of_ne (hother q hq) .., Function.update_of_ne (hother q hq) ..⟩
  · rw [Directory.set_ids_new hfresh]
    exact List.nodup_cons.mpr ⟨hfresh, hs.nodup⟩
  · intro q hq
    rw [Directory.set_ids_new hfresh] at hq
    show 0 ≤ q ∧ q < s.nextPageId + 1
    rcases List.mem_cons.mp hq with rfl | hq
    · exact ⟨hs.next, Int.lt_succ _⟩
    · exact ⟨(hs.range q hq).1, Int.lt_trans (hs.range q hq).2 (Int.lt_succ _)⟩
  · intro q hq
    rw [Directory.set_ids_new hfresh, List.mem_cons, not_or] at hq
    exact (Function.update_of_ne hq.1 ..).trans (hs.outside q hq.2)
  · intro q hq
    rw [Directory.set_ids_new hfresh] at hq
    by_cases hqn : q = s.nextPageId
    · rw [hqn]
      exact (Function.update_self s.nextPageId new dir.slots).trans_ne hne
    · refine (Function.update_of_ne hqn new dir.slots).trans_ne (hs.used q ?_)
      exact (List.mem_cons.mp hq).resolve_left hqn
  · exact Int.le_trans hs.next (Int.le_of_lt (Int.lt_succ _))

end stored

def findSpace (pages : PageId → PageData K V) (need : Nat) (ids : List PageId) : Option PageId :=
  ids.find? fun q => match pages q with
    | .value v => decide (need ≤ v.freeSpace.toNat)
    | _ => false

section heap

open Heap

variable {h : Heap (PageData K V)} {dir : Directory} {value : Bytes} {rid : RID}

structure Rests (h : Heap (PageData K V)) (dir : Directory) : Prop where
  calm : h.Calm
  stored : Stored h.erase dir
  alive : ∀ p ∈ dir.ids, h.dead p = false

theorem Rests.live (hr : Rests h dir) {p : PageId} (hp : p ∈ dir.ids) : h.Live p :=
  ⟨(hr.stored.range p hp).1, (hr.stored.range p hp).2, hr.alive p hp⟩

theorem Rests.page (hr : Rests h dir) {p : PageId} (hp : p ∈ dir.ids) :
    ∃ v, h.data p = .value v ∧ v.Slotted (dir.slots p) :=
  hr.stored.page hp

theorem yields_findPageWithSpace (hc : h.Calm) (need : Nat) {slots : PageId → List (Option Bytes)} {p : PageId}
    {ids : List PageId} {fuel : Nat} (hch : Chained h.data slots p ids) (hl : ∀ q ∈ ids, h.Live q)
    (hf : ids.length < fuel) :
    Yields (findPageWithSpace need fuel p) h (findSpace h.data need ids) ((findSpace h.data need ids).elim h h.pin) := by
  induction ids generalizing p fuel with
  | nil =>
      obtain ⟨fuel, rfl⟩ := Nat.exists_eq_add_one_of_ne_zero (Nat.ne_of_gt hf)
      rw [findPageWithSpace, if_pos (show p = invalidPageId from hch)]
      exact ensures_pure ⟨rfl, rfl⟩
  | cons q rest ih =>
      obtain ⟨fuel, rfl⟩ := Nat.exists_eq_add_one_of_ne_zero (Nat.ne_of_gt (Nat.zero_lt_of_lt hf))
      obtain ⟨rfl, v, hv, _, hrest⟩ := hch
      have hlive := hl p List.mem_cons_self
      have hne : p ≠ invalidPageId := by
        rintro rfl
        exact absurd hlive.1 (by decide)
      rw [findPageWithSpace, if_neg hne]
      refine ensures_fetch hlive (ensures_getValuePage (held_pin hlive) hv ?_)
      by_cases hneed : need ≤ v.freeSpace.toNat
      · rw [if_pos hneed, findSpace, List.find?_cons_of_pos (by simp only [hv, decide_eq_true hneed])]
        exact ensures_pure ⟨rfl, rfl⟩
      · rw [if_neg hneed, findSpace, List.find?_cons_of_neg (by simp only [hv, decide_eq_true_eq]; exact hneed)]
        exact ensures_giveBack hc hlive <| ih hrest (fun q hq => hl q (List.mem_cons_of_mem p hq))
          (Nat.lt_of_succ_lt_succ hf)

theorem Rests.write (hr : Rests h dir) {p : PageId} {v v' : ValuePage} {new : List (Option Bytes)} (hp : p ∈ dir.ids)
    (hv : h.data p = .value v) (hv' : v'.Slotted new) (hnext : v'.nextPageId = v.nextPageId) (hne : new ≠ []) :
    Rests (h.write p (.value v')) (dir.set p new) where
  calm := hr.calm.write
  stored := hr.stored.write hp hv hv' hnext hne
  alive q hq := hr.alive q (Directory.set_ids_mem hp ▸ hq)

theorem Rests.push (hr : Rests h dir) {v' : ValuePage} {new : List (Option Bytes)} (hv' : v'.Slotted new)
    (hnext : v'.nextPageId = h.members .firstPageId) (hne : new ≠ []) :
    Rests ((h.alloc (.value v')).setMember .firstPageId h.nextPageId) (dir.set h.nextPageId new) where
  calm := hr.calm.alloc.setMember
  stored := hr.stored.push hv' hnext hne
  alive q hq := by
    have hfresh : h.nextPageId ∉ dir.ids := hr.stored.fresh
    rw [Directory.set_ids_new hfresh] at hq
    rcases List.mem_cons.mp hq with rfl | hq
    · exact hr.calm.fresh _ (Int.le_refl _)
    · exact hr.alive q hq

def afterPut (h : Heap (PageData K V)) (value : Bytes) (found : Option PageId) : Heap (PageData K V) :=
  match found with
  | some q => match h.data q with
    | .value v => h.write q (.value (v.added value))
    | _ => h
  | none =>
    (h.alloc (.value ((ValuePage.zero.init (h.members .firstPageId)).added value))).setMember .firstPageId h.nextPageId

def placed (pages : PageId → PageData K V) (dir : Directory) (value : Bytes) (next : PageId) : PageId :=
  (findSpace pages (valueSlotSize + value.length) dir.ids).getD next

theorem findSpace_some {pages : PageId → PageData K V} {need : Nat} {ids : List PageId} {q : PageId}
    (h : findSpace pages need ids = some q) : q ∈ ids ∧ ∃ v, pages q = .value v ∧ need ≤ v.freeSpace.toNat := by
  refine ⟨List.mem_of_find?_eq_some h, ?_⟩
  have hq := List.find?_some h
  split at hq
  · next v hv => exact ⟨v, hv, of_decide_eq_true hq⟩
  · cases hq

theorem fits_zero (hv : value.length ≤ maxValueSize) (next : PageId) : (ValuePage.zero.init next).Fits value := by
  refine ⟨hv, ?_⟩
  have hs : (ValuePage.zero.init next).Slotted [] := slotted_init List.length_replicate
  rw [hs.freeSpace]
  rw [maxValueSize_eq] at hv
  show 8 + value.length ≤ 16384 - 12
  omega

theorem unpin_create (hc : h.Calm) (d d' : PageData K V) (m : Member) :
    ((((h.create).put h.nextPageId d).setMember m h.nextPageId).put h.nextPageId d').unpin h.nextPageId =
      (h.alloc d').setMember m h.nextPageId := by
  have hpins : Function.update h.pins h.nextPageId 0 = h.pins :=
    Function.update_eq_self_iff.mpr (hc.pins h.nextPageId).symm
  have hpending : Function.update h.pending h.nextPageId false = h.pending :=
    Function.update_eq_self_iff.mpr (hc.pending h.nextPageId).symm
  have hdead : Function.update h.dead h.nextPageId false = h.dead :=
    Function.update_eq_self_iff.mpr (hc.fresh h.nextPageId (Int.le_refl _)).symm
  simp only [Heap.create, Heap.put, Heap.setMember, Heap.unpin, Heap.alloc, Function.update_idem, Function.update_self]
  rw [Nat.sub_self, hpins, hpending, hdead]

theorem yields_put (hr : Rests h dir) (hv : value.length ≤ maxValueSize) {fuel : Nat} (hf : dir.ids.length < fuel) :
    Yields (put fuel value) h (dir.nextRid (placed h.data dir value h.nextPageId))
      (afterPut h value (findSpace h.data (valueSlotSize + value.length) dir.ids)) := by
  have hwalk := yields_findPageWithSpace hr.calm (valueSlotSize + value.length) hr.stored.chained
    (fun q hq => hr.live hq) hf
  rw [put, if_neg (Nat.not_lt.mpr hv), findOrCreatePageWithSpace, bind_assoc]
  refine ensures_getMember ?_
  rw [bind_assoc]
  refine hwalk.bind ?_
  rintro found h₁ ⟨rfl, rfl⟩
  unfold placed afterPut
  cases hfound : findSpace h.data (valueSlotSize + value.length) dir.ids with
  | some q =>
      obtain ⟨hq, v, hdata, hneed⟩ := findSpace_some hfound
      obtain ⟨v', hdata', hslot⟩ := hr.page hq
      obtain rfl : v = v' := PageData.value.inj (hdata.symm.trans hdata')
      have hlive := hr.live hq
      dsimp only [Option.elim, Option.getD]
      rw [hdata]
      refine ensures_getValuePage (held_pin hlive) hdata ?_
      refine ensures_defined (hslot.put ⟨hv, hneed⟩) (ensures_setData rfl (held_pin hlive) ?_)
      exact ensures_writeBack hr.calm hlive (ensures_pure ⟨rfl, rfl⟩)
  | none =>
      have hout : dir.slots h.nextPageId = [] := hr.stored.outside _ hr.stored.fresh
      have hheld : (h.create).Held h.nextPageId := by
        refine ⟨Function.update_self .., ?_⟩
        show 0 < Function.update h.pins h.nextPageId 1 h.nextPageId
        rw [Function.update_self]
        exact Nat.one_pos
      have hinit : (ValuePage.zero.init (h.members .firstPageId)).Slotted [] := slotted_init List.length_replicate
      dsimp only [Option.elim, Option.getD]
      rw [bind_assoc]
      refine ensures_newPage ?_
      dsimp only
      rw [bind_assoc]
      refine ensures_getValuePage_zero hheld (Function.update_self ..) ?_
      rw [bind_assoc]
      refine ensures_setData rfl hheld ?_
      rw [bind_assoc]
      refine ensures_setMember ?_
      rw [pure_bind]
      refine ensures_getValuePage hheld (Function.update_self ..) ?_
      refine ensures_defined (hinit.put (fits_zero hv _)) (ensures_setData rfl hheld ?_)
      refine ensures_unpinPage hheld (fun _ => rfl) ?_
      rw [unpin_create hr.calm]
      refine ensures_pure ⟨?_, rfl⟩
      rw [Directory.nextRid, hout]

theorem Rests.put (hr : Rests h dir) (hv : value.length ≤ maxValueSize) :
    Rests (afterPut h value (findSpace h.data (valueSlotSize + value.length) dir.ids))
      (dir.add (placed h.data dir value h.nextPageId) value) := by
  have hne : ∀ l : List (Option Bytes), l ++ [some value] ≠ [] := fun l => by simp
  unfold placed afterPut
  cases hfound : findSpace h.data (valueSlotSize + value.length) dir.ids with
  | some q =>
      obtain ⟨hq, v, hdata, hneed⟩ := findSpace_some hfound
      obtain ⟨v', hdata', hslot⟩ := hr.page hq
      obtain rfl : v = v' := PageData.value.inj (hdata.symm.trans hdata')
      dsimp only [Option.getD]
      rw [hdata]
      exact hr.write hq hdata (hslot.add ⟨hv, hneed⟩) rfl (hne _)
  | none =>
      have hout : dir.slots h.nextPageId = [] := hr.stored.outside _ hr.stored.fresh
      have hinit : (ValuePage.zero.init (h.members .firstPageId)).Slotted [] := slotted_init List.length_replicate
      refine hr.push ?_ rfl (hne _)
      rw [show Option.getD none h.nextPageId = h.nextPageId from rfl, hout]
      exact hinit.add (fits_zero hv _)

theorem Rests.issued (hr : Rests h dir) (hi : dir.Issued rid) : rid.pageId ∈ dir.ids := by
  by_contra hp
  rw [Directory.Issued, hr.stored.outside _ hp] at hi
  exact absurd hi (Nat.not_lt_zero _)

theorem yields_get (hr : Rests h dir) (hi : dir.Issued rid) : Yields (get rid) h (dir.content rid) h := by
  have hp := hr.issued hi
  obtain ⟨v, hdata, hslot⟩ := hr.page hp
  have hlive := hr.live hp
  refine ensures_fetchPage hlive ?_
  rw [if_pos rfl]
  refine ensures_getValuePage (held_pin hlive) hdata ?_
  refine ensures_defined hslot.get (ensures_giveBack hr.calm hlive ?_)
  exact ensures_pure ⟨rfl, rfl⟩

def afterDelete (h : Heap (PageData K V)) (dir : Directory) (rid : RID) : Heap (PageData K V) :=
  match dir.content rid, h.data rid.pageId with
  | some _, .value v => h.write rid.pageId (.value (v.removed rid.slotNum.toNat))
  | _, _ => h

theorem yields_delete (hr : Rests h dir) (hi : dir.Issued rid) :
    Yields (delete rid) h (dir.content rid).isSome (afterDelete h dir rid) := by
  have hp := hr.issued hi
  obtain ⟨v, hdata, hslot⟩ := hr.page hp
  have hlive := hr.live hp
  refine ensures_fetchPage hlive ?_
  rw [if_pos rfl]
  refine ensures_getValuePage (held_pin hlive) hdata ?_
  refine ensures_defined hslot.delete ?_
  have hcontent : ((dir.slots rid.pageId)[rid.slotNum.toNat]?).join = dir.content rid := rfl
  rw [hcontent, afterDelete, hdata]
  cases hx : dir.content rid with
  | none =>
      dsimp only [Option.isSome]
      rw [if_neg (by decide)]
      exact ensures_giveBack hr.calm hlive (ensures_pure ⟨rfl, rfl⟩)
  | some b =>
      dsimp only [Option.isSome]
      rw [if_pos rfl]
      exact ensures_setData rfl (held_pin hlive) (ensures_writeBack hr.calm hlive (ensures_pure ⟨rfl, rfl⟩))

theorem Directory.change_none (hp : rid.pageId ∈ dir.ids) (hi : dir.Issued rid) (hx : dir.content rid = none) :
    dir.change rid none = dir := by
  have hset : (dir.slots rid.pageId).set rid.slotNum.toNat none = dir.slots rid.pageId := by
    refine List.ext_getElem? fun j => ?_
    by_cases hj : j = rid.slotNum.toNat
    · rw [hj, List.getElem?_set_self hi]
      have hget := List.getElem?_eq_getElem hi
      rw [hget]
      rw [Directory.content, hget, Option.join_some] at hx
      rw [hx]
    · rw [List.getElem?_set_ne (Ne.symm hj)]
  rw [Directory.change, hset, Directory.set, if_pos hp, Function.update_eq_self]

theorem Rests.delete (hr : Rests h dir) (hi : dir.Issued rid) : Rests (afterDelete h dir rid) (dir.change rid none) := by
  have hp := hr.issued hi
  obtain ⟨v, hdata, hslot⟩ := hr.page hp
  rw [afterDelete, hdata]
  cases hx : dir.content rid with
  | none =>
      rw [Directory.change_none hp hi hx]
      exact hr
  | some b =>
      refine hr.write hp hdata (hslot.remove hi) rfl ?_
      rw [← List.length_pos_iff, List.length_set]
      exact Nat.zero_lt_of_lt hi

def Directory.FitsInPlace (dir : Directory) (rid : RID) (value : Bytes) : Prop :=
  ∃ b, dir.content rid = some b ∧ value.length ≤ b.length

def afterReplace (h : Heap (PageData K V)) (rid : RID) (value : Bytes) : Heap (PageData K V) :=
  match h.data rid.pageId with
  | .value v => h.write rid.pageId (.value (v.overwritten rid.slotNum.toNat value))
  | _ => h

theorem Directory.getElem_of_content {b : Bytes} (hb : dir.content rid = some b) :
    (dir.slots rid.pageId)[rid.slotNum.toNat]? = some (some b) :=
  Option.join_eq_some_iff.mp hb

theorem yields_update_fits (hr : Rests h dir) (hf : dir.FitsInPlace rid value) (fuel : Nat) :
    Yields (update fuel rid value) h rid (afterReplace h rid value) := by
  obtain ⟨b, hb, hle⟩ := hf
  have hget := Directory.getElem_of_content hb
  have hp := hr.issued (List.getElem?_eq_some_iff.mp hget).1
  obtain ⟨v, hdata, hslot⟩ := hr.page hp
  have hlive := hr.live hp
  rw [afterReplace, hdata]
  refine ensures_fetchPage hlive ?_
  rw [if_pos rfl]
  refine ensures_getValuePage (held_pin hlive) hdata ?_
  refine ensures_defined (hslot.update_fits hget hle) (ensures_setData rfl (held_pin hlive) ?_)
  exact ensures_writeBack hr.calm hlive (ensures_pure ⟨rfl, rfl⟩)

theorem Rests.replace (hr : Rests h dir) (hf : dir.FitsInPlace rid value) :
    Rests (afterReplace h rid value) (dir.change rid (some value)) := by
  obtain ⟨b, hb, hle⟩ := hf
  have hget := Directory.getElem_of_content hb
  obtain ⟨hi, _⟩ := List.getElem?_eq_some_iff.mp hget
  have hp := hr.issued hi
  obtain ⟨v, hdata, hslot⟩ := hr.page hp
  rw [afterReplace, hdata]
  refine hr.write hp hdata (hslot.replace hget hle) rfl ?_
  rw [← List.length_pos_iff, List.length_set]
  exact Nat.zero_lt_of_lt hi

theorem yields_update_moves (hr : Rests h dir) (hi : dir.Issued rid) (hf : ¬ dir.FitsInPlace rid value) (fuel : Nat)
    {r : RID} {t : Heap (PageData K V)} (hput : Yields (put fuel value) (afterDelete h dir rid) r t) :
    Yields (update fuel rid value) h r t := by
  have hp := hr.issued hi
  obtain ⟨v, hdata, hslot⟩ := hr.page hp
  have hlive := hr.live hp
  have hgrows : v.update rid.slotNum value = some none := by
    refine hslot.update_grows fun b hb => ?_
    exact Nat.lt_of_not_le fun hle => hf ⟨b, hb, hle⟩
  refine ensures_fetchPage hlive ?_
  rw [if_pos rfl]
  refine ensures_getValuePage (held_pin hlive) hdata ?_
  refine ensures_defined hgrows (ensures_giveBack hr.calm hlive ?_)
  refine (yields_delete hr hi).bind ?_
  rintro _ _ ⟨rfl, rfl⟩
  exact hput

end heap

end TupleStore

end DBPlayground.Storage
