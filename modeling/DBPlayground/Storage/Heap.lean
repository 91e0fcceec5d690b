import DBPlayground.Storage.Watch
import Mathlib.Data.List.Basic

namespace DBPlayground.Storage

open Program Machine

/-- A page store that checks how its pages are used. It counts the pins on each
page, knows the pages written since they were last given back as dirty, and
the pages deleted. The watch is kept by those who look at latches. -/
structure Heap (α : Type) where
  data : PageId → α
  pins : PageId → Nat
  pending : PageId → Bool
  dead : PageId → Bool
  nextPageId : PageId
  members : Member → PageId
  pageSet : List PageId
  freed : Bool
  waits : Nat
  blocked : Nat → Bool
  watch : Watch

namespace Heap

variable {α : Type}

/-- The page is held by the client: it may read and write it. -/
def Held (h : Heap α) (p : PageId) : Prop := h.dead p = false ∧ 0 < h.pins p

instance (h : Heap α) (p : PageId) : Decidable (h.Held p) := inferInstanceAs (Decidable (_ ∧ _))

def Live (h : Heap α) (p : PageId) : Prop := 0 ≤ p ∧ p < h.nextPageId ∧ h.dead p = false

instance (h : Heap α) (p : PageId) : Decidable (h.Live p) := inferInstanceAs (Decidable (_ ∧ _ ∧ _))

def pin (h : Heap α) (p : PageId) : Heap α := { h with pins := Function.update h.pins p (h.pins p + 1) }

def unpin (h : Heap α) (p : PageId) : Heap α :=
  { h with
    pins := Function.update h.pins p (h.pins p - 1)
    pending := Function.update h.pending p false }

def put (h : Heap α) (p : PageId) (data : α) : Heap α :=
  { h with
    data := Function.update h.data p data
    pending := Function.update h.pending p true }

def setMember (h : Heap α) (m : Member) (p : PageId) : Heap α :=
  { h with members := Function.update h.members m p }

def setPageSet (h : Heap α) (l : List PageId) : Heap α := { h with pageSet := l }

def begin (h : Heap α) : Heap α := { h with pageSet := [], freed := false }

def wait (h : Heap α) : Heap α := { h with waits := h.waits + h.freed.toNat }

def erase (h : Heap α) : PageStore α := ⟨h.data, h.nextPageId, h.members, h.pageSet, h.freed, h.waits, h.blocked⟩

section handler

variable [Inhabited α]

def create (h : Heap α) : Heap α :=
  { h with
    data := Function.update h.data h.nextPageId default
    pins := Function.update h.pins h.nextPageId 1
    pending := Function.update h.pending h.nextPageId false
    dead := Function.update h.dead h.nextPageId false
    nextPageId := h.nextPageId + 1 }

def delete (h : Heap α) (p : PageId) : Heap α :=
  { h with
    data := Function.update h.data p default
    pending := Function.update h.pending p false
    dead := Function.update h.dead p true
    freed := true }

/-- The store with its checks: only live pages are fetched, only pages held are
latched, read and written, a page written is given back as dirty, the page set grows by a
new page while all its pages are held, a page is deleted while it is pinned only by
the page set, the page set is asked only for pages that are still held, and it is
given up only while none of its pages is deleted. -/
def handler : Handler (PoolOp α) PoolOp.Ans (Heap α)
  | .newPage, h => some (some h.nextPageId, h.create)
  | .fetchPage p, h => if h.Live p then some (true, h.pin p) else none
  | .unpinPage p isDirty, h =>
    if h.Held p then if h.pending p = true ∧ isDirty = false then none else some ((), h.unpin p)
    else some ((), h)
  | .deletePage p, h => if h.Live p ∧ h.pins p ≤ h.pageSet.count p then some ((), h.delete p) else none
  | .getData p, h => if h.Held p then some (h.data p, h) else none
  | .setData p data, h => if h.Held p then some ((), h.put p data) else none
  | .latch p _, h => if h.Held p then some ((), h.wait) else none
  | .unlatch _ _, h => some ((), h)
  | .newTransaction, h => if ∀ p ∈ h.pageSet, h.dead p = false then some ((), h.begin) else none
  | .addIntoPageSet p, h =>
    if h.Held p ∧ p ∉ h.pageSet ∧ ∀ q ∈ h.pageSet, h.Held q then some ((), h.setPageSet (h.pageSet ++ [p])) else none
  | .pageSetSize, h => some (h.pageSet.length, h)
  | .pageSetPageId i, h => h.pageSet[i]?.bind fun p => if h.Held p then some (p, h) else none
  | .pageSetUnlatch _ _, h => some ((), h)
  | .clearPageSet, h => if ∀ p ∈ h.pageSet, h.dead p = false then some ((), h.setPageSet []) else none
  | .lockRoot, h => some ((), h)
  | .unlockRoot, h => some ((), h)
  | .getMember m, h => some (h.members m, h)
  | .setMember m p, h => some ((), h.setMember m p)

theorem simulates_erase :
    Simulates (handler : Handler (PoolOp α) PoolOp.Ans (Heap α)) PageStore.plain fun h s => s = h.erase := by
  rintro o h s r h' rfl ho
  cases o with
  | fetchPage | deletePage | getData | setData | latch | newTransaction | addIntoPageSet | clearPageSet =>
      simp only [handler] at ho
      split at ho
      · cases ho
        exact ⟨_, rfl, rfl⟩
      · cases ho
  | unpinPage p d =>
      simp only [handler] at ho
      split at ho
      · split at ho
        · cases ho
        · cases ho
          exact ⟨_, rfl, rfl⟩
      · cases ho
        exact ⟨_, rfl, rfl⟩
  | pageSetPageId i =>
      obtain ⟨q, hq, hh⟩ := Option.bind_eq_some_iff.mp ho
      split at hh
      · cases hh
        exact ⟨h.erase, congrArg (Option.map _) hq, rfl⟩
      · cases hh
  | newPage | unlatch | pageSetSize | pageSetUnlatch | lockRoot | unlockRoot | getMember | setMember =>
      cases ho
      exact ⟨_, rfl, rfl⟩

end handler

variable [Overlay α]

/-- The heap over a page store in which a latch may wait and a page has an end. -/
def checked : Handler (PoolOp α) PoolOp.Ans (Heap α) := guard handler fun o h => PageStore.legal o h.erase

theorem checked_eq_some {o : PoolOp α} {h : Heap α} {x : o.Ans × Heap α} :
    checked o h = some x ↔ PageStore.legal o h.erase = true ∧ handler o h = some x := guard_eq_some

/-- The method returns, with a result and a heap as required. -/
def Ensures {β : Type} (m : PageM α β) (h : Heap α) (Q : β → Heap α → Prop) : Prop :=
  ∃ b h', Returns checked m h b h' ∧ Q b h'

variable {β γ : Type} {h : Heap α} {p : PageId} {m : PageM α β} {f : β → PageM α γ} {w : Bool} {data : α}

theorem Ensures.bind {Q : β → Heap α → Prop} {R : γ → Heap α → Prop} (hm : Ensures m h Q)
    (hf : ∀ b h', Q b h' → Ensures (f b) h' R) : Ensures (m >>= f) h R := by
  obtain ⟨b, h₁, hr, hq⟩ := hm
  obtain ⟨b', h₂, hr', hq'⟩ := hf b h₁ hq
  exact ⟨b', h₂, hr.bind hr', hq'⟩

theorem ensures_pure {Q : β → Heap α → Prop} {b : β} (hq : Q b h) : Ensures (pure b : PageM α β) h Q :=
  ⟨b, h, returns_pure, hq⟩

theorem ensures_perform {Q : γ → Heap α → Prop} {o : PoolOp α} {r : o.Ans} {h' : Heap α} {f : o.Ans → PageM α γ}
    (hl : PageStore.legal o h.erase = true) (ho : handler o h = some (r, h')) (hf : Ensures (f r) h' Q) :
    Ensures ((perform o : PageM α o.Ans) >>= f) h Q := by
  obtain ⟨b, h₁, hr, hq⟩ := hf
  exact ⟨b, h₁, (returns_perform (checked_eq_some.mpr ⟨hl, ho⟩)).bind hr, hq⟩

section

variable {Q : γ → Heap α → Prop}

theorem ensures_newPage {f : Option PageId → PageM α γ} (hf : Ensures (f (some h.nextPageId)) h.create Q) :
    Ensures (PageM.newPage >>= f) h Q := ensures_perform rfl rfl hf

theorem ensures_fetchPage {f : Bool → PageM α γ} (hp : h.Live p) (hf : Ensures (f true) (h.pin p) Q) :
    Ensures (PageM.fetchPage p >>= f) h Q := ensures_perform rfl (if_pos hp) hf

theorem ensures_fetch {f : Unit → PageM α γ} (hp : h.Live p) (hf : Ensures (f ()) (h.pin p) Q) :
    Ensures (PageM.fetch p >>= f) h Q := by
  unfold PageM.fetch
  rw [bind_assoc]
  exact ensures_fetchPage hp (by simpa using hf)

theorem ensures_unpinPage {f : Unit → PageM α γ} (hp : h.Held p) (hw : h.pending p = true → w = true)
    (hf : Ensures (f ()) (h.unpin p) Q) : Ensures (PageM.unpinPage p w >>= f) h Q := by
  have hn : ¬ (h.pending p = true ∧ w = false) := by
    rintro ⟨h₁, h₂⟩
    rw [hw h₁] at h₂
    cases h₂
  exact ensures_perform rfl ((if_pos hp).trans (if_neg hn)) hf

theorem ensures_getData {f : α → PageM α γ} (hp : h.Held p) (hf : Ensures (f (h.data p)) h Q) :
    Ensures (PageM.getData p >>= f) h Q := ensures_perform rfl (if_pos hp) hf

theorem ensures_setData {f : Unit → PageM α γ} (hd : Overlay.inside data = true) (hp : h.Held p)
    (hf : Ensures (f ()) (h.put p data) Q) : Ensures (PageM.setData p data >>= f) h Q :=
  ensures_perform hd (if_pos hp) hf

theorem ensures_getMember {f : PageId → PageM α γ} {x : Member} (hf : Ensures (f (h.members x)) h Q) :
    Ensures (PageM.getMember x >>= f) h Q := ensures_perform rfl rfl hf

theorem ensures_setMember {f : Unit → PageM α γ} {x : Member} (hf : Ensures (f ()) (h.setMember x p) Q) :
    Ensures (PageM.setMember x p >>= f) h Q := ensures_perform rfl rfl hf

theorem ensures_defined {f : β → PageM α γ} {x : Option β} {b : β} (hx : x = some b) (hf : Ensures (f b) h Q) :
    Ensures (PageM.defined x >>= f) h Q := by
  subst hx
  simpa [PageM.defined] using hf

end

theorem Ensures.erase {Q : β → Heap α → Prop} (hm : Ensures m h Q) :
    ∃ b h', Returns PageStore.handler m h.erase b h'.erase ∧ Q b h' := by
  obtain ⟨b, h', hr, hq⟩ := hm
  have hsim : Simulates (checked : Handler (PoolOp α) PoolOp.Ans (Heap α)) PageStore.handler fun h s => s = h.erase := by
    rintro o h _ r h' rfl ho
    obtain ⟨hl, ho⟩ := checked_eq_some.mp ho
    obtain ⟨s, hs, rfl⟩ := simulates_erase o h _ r h' rfl ho
    exact ⟨_, guard_eq_some.mpr ⟨hl, hs⟩, rfl⟩
  obtain ⟨s, hs, rfl⟩ := hsim.returns rfl hr
  exact ⟨b, h', hs, hq⟩

end Heap

end DBPlayground.Storage
