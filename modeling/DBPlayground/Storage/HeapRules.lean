import DBPlayground.Lib.Footprint
import DBPlayground.Storage.BPlusTree
import DBPlayground.Storage.Heap
import Mathlib.Data.Multiset.Count
import Mathlib.Data.Multiset.Filter

namespace DBPlayground.Storage

open Program Machine Footprint

/-- What a run on the heap is measured against: which calls of `NewPage` answer with
a null pointer, whether every change must be covered by latches, what may be written to
a page, and whether a page must have no pins when it is deleted. -/
structure Regime (K V : Type) where
  fails : Nat → Bool
  guarded : Prop
  limit : PageData K V → Prop
  spotless : Prop

namespace Regime

variable {K V : Type}

instance : CoeFun (Regime K V) fun _ => Nat → Bool := ⟨Regime.fails⟩

def Permits (F : Regime K V) (h : Heap (PageData K V)) (o : PoolOp (PageData K V)) : Prop :=
  (F.guarded → PageStore.Permitted o (h.erase, h.watch)) ∧
    match o with
    | .setData _ data => F.limit data
    | .deletePage p => F.spotless → h.pins p = 0
    | _ => True

end Regime

namespace Heap

/-- The heap `h'` that a request made of `h`, with what the watch saw of it. -/
def observe {α : Type} (h h' : Heap α) (o : PoolOp α) (r : o.Ans) : Heap α :=
  { h' with watch := h.watch.record h.pageSet o r }

section failing

variable {K V β γ : Type}

open Classical in
/-- The heap over a pool that may be out of frames, with the calls of `NewPage`
numbered, and with the checks of the regime. -/
noncomputable def failing (F : Regime K V) : Handler (PoolOp (PageData K V)) PoolOp.Ans (Heap (PageData K V) × Nat)
  | .newPage, x =>
    if F x.2 then some (none, x.1, x.2 + 1)
    else some (some x.1.nextPageId, observe x.1 x.1.create .newPage (some x.1.nextPageId), x.2 + 1)
  | o, x => if F.Permits x.1 o then (handler o x.1).map fun y => (y.1, observe x.1 y.2 o y.1, x.2) else none

/-- The method comes to an end: it returns as `Q` says or aborts as `X` says. -/
def Meets (F : Regime K V) (X : Abort → Heap (PageData K V) → Prop) (m : PageM (PageData K V) β)
    (h : Heap (PageData K V)) (i : Nat) (Q : β → Heap (PageData K V) → Nat → Prop) : Prop :=
  ∃ r h' i', Ends (failing F) m (h, i) r (h', i') ∧
    match r with
    | .ok b => Q b h' i'
    | .error e => X e h'

variable {F : Regime K V} {X : Abort → Heap (PageData K V) → Prop} {m : PageM (PageData K V) β}
  {g : β → PageM (PageData K V) γ} {h : Heap (PageData K V)} {i : Nat} {Q : β → Heap (PageData K V) → Nat → Prop}
  {R : γ → Heap (PageData K V) → Nat → Prop}

theorem Meets.bind (hm : Meets F X m h i Q) (hg : ∀ b h' i', Q b h' i' → Meets F X (g b) h' i' R) :
    Meets F X (m >>= g) h i R := by
  obtain ⟨r, h₁, i₁, hr, hq⟩ := hm
  cases r with
  | ok b =>
      obtain ⟨r', h₂, i₂, hr', hq'⟩ := hg b h₁ i₁ hq
      exact ⟨r', h₂, i₂, hr.bind hr', hq'⟩
  | error e => exact ⟨.error e, h₁, i₁, hr.throw, hq⟩

theorem Meets.mono {R : β → Heap (PageData K V) → Nat → Prop} (hm : Meets F X m h i Q)
    (hi : ∀ b h' i', Q b h' i' → R b h' i') : Meets F X m h i R := by
  obtain ⟨r, h₁, i₁, hr, hq⟩ := hm
  refine ⟨r, h₁, i₁, hr, ?_⟩
  cases r with
  | ok b => exact hi b h₁ i₁ hq
  | error e => exact hq

theorem meets_pure {b : β} (hq : Q b h i) : Meets F X (pure b : PageM (PageData K V) β) h i Q :=
  ⟨.ok b, h, i, rfl, hq⟩

theorem meets_throw {e : Abort} (hx : X e h) : Meets F X (throw e : PageM (PageData K V) β) h i Q :=
  ⟨.error e, h, i, rfl, hx⟩

theorem failing_of_ne {o : PoolOp (PageData K V)} (hne : o ≠ .newPage) (x : Heap (PageData K V) × Nat)
    (hp : F.Permits x.1 o) :
    failing F o x = (handler o x.1).map fun y => (y.1, observe x.1 y.2 o y.1, x.2) := by
  cases o <;> first | exact absurd rfl hne | exact if_pos hp

theorem failing_of_not {o : PoolOp (PageData K V)} (hne : o ≠ .newPage) (x : Heap (PageData K V) × Nat)
    (hp : ¬ F.Permits x.1 o) : failing F o x = none := by
  cases o <;> first | exact absurd rfl hne | exact if_neg hp

theorem meets_request {o : PoolOp (PageData K V)} {r : o.Ans} {h' : Heap (PageData K V)}
    {g : o.Ans → PageM (PageData K V) γ} (hne : o ≠ .newPage) (hp : F.Permits h o) (ho : handler o h = some (r, h'))
    (hg : Meets F X (g r) (observe h h' o r) i R) :
    Meets F X ((perform o : PageM (PageData K V) o.Ans) >>= g) h i R := by
  obtain ⟨r', h₁, i₁, hr, hq⟩ := hg
  refine ⟨r', h₁, i₁, ends_perform ?_ hr, hq⟩
  rw [failing_of_ne hne _ hp, ho]
  rfl

theorem meets_defined {x : Option β} {b : β} (hx : x = some b) (hg : Meets F X (g b) h i R) :
    Meets F X (PageM.defined x >>= g) h i R := by
  subst hx
  exact hg

theorem meets_when {c : Bool} {m : PageM (PageData K V) Unit} {g : Unit → PageM (PageData K V) γ}
    (ht : c = true → Meets F X (m >>= g) h i R) (hf : c = false → Meets F X (g ()) h i R) :
    Meets F X (PageM.when c m >>= g) h i R := by
  cases c with
  | true => exact ht rfl
  | false => exact hf rfl

theorem meets_newPage {g : Option PageId → PageM (PageData K V) γ}
    (hnone : F i = true → Meets F X (g none) h (i + 1) R)
    (hsome : F i = false → Meets F X (g (some h.nextPageId))
      (observe h h.create .newPage (some h.nextPageId)) (i + 1) R) :
    Meets F X (PageM.newPage >>= g) h i R := by
  cases hi : F i with
  | true =>
      obtain ⟨r', h₁, i₁, hr, hq⟩ := hnone hi
      exact ⟨r', h₁, i₁, ends_perform (if_pos hi) hr, hq⟩
  | false =>
      obtain ⟨r', h₁, i₁, hr, hq⟩ := hsome hi
      exact ⟨r', h₁, i₁, ends_perform (if_neg (by rw [hi]; nofun)) hr, hq⟩

theorem failing_grants (hF : ∀ i, F i = false) {o : PoolOp (PageData K V)} {r : o.Ans}
    {x y : Heap (PageData K V) × Nat} (ho : failing F o x = some (r, y)) :
    ∃ z, handler o x.1 = some (r, z) ∧ y.1 = observe x.1 z o r ∧ (o = .newPage ∨ F.Permits x.1 o) := by
  by_cases hne : o = .newPage
  · subst hne
    rw [failing, if_neg (by rw [hF]; exact Bool.false_ne_true)] at ho
    cases ho
    exact ⟨_, rfl, rfl, .inl rfl⟩
  · by_cases hp : F.Permits x.1 o
    · rw [failing_of_ne hne _ hp] at ho
      obtain ⟨z, hz, hzy⟩ := Option.map_eq_some_iff.mp ho
      cases hzy
      exact ⟨z.2, hz, rfl, .inr hp⟩
    · rw [failing_of_not hne _ hp] at ho
      cases ho

theorem simulates_plain (hF : ∀ i, F i = false) : Simulates (failing F) PageStore.plain fun x s => s = x.1.erase := by
  rintro o x _ r y rfl ho
  obtain ⟨z, hz, hy, _⟩ := failing_grants hF ho
  obtain ⟨_, hs, rfl⟩ := simulates_erase o x.1 _ r z rfl hz
  exact ⟨_, hs, (congrArg Heap.erase hy).symm⟩

theorem simulates_watching (hF : ∀ i, F i = false) :
    Simulates (failing F) (PageStore.watching PageStore.plain) fun x s => s = (x.1.erase, x.1.watch) := by
  rintro o x _ r y rfl ho
  obtain ⟨z, hz, hy, _⟩ := failing_grants hF ho
  obtain ⟨_, hs, rfl⟩ := simulates_erase o x.1 _ r z rfl hz
  exact ⟨_, congrArg (Option.map _) hs, (congrArg (fun h : Heap (PageData K V) => (h.erase, h.watch)) hy).symm⟩

theorem permits_inside (hin : ∀ data, F.limit data → data.inside = true) {o : PoolOp (PageData K V)}
    (hp : o = .newPage ∨ F.Permits h o) : o.inside = true := by
  cases o with
  | setData p data => exact hin data (hp.resolve_left fun he => by cases he).2
  | _ => rfl

/-- A run with no failing allocation and no exception is one of the page store, if no latch
of it waits. -/
theorem Meets.plain (hF : ∀ i, F i = false) (hin : ∀ data, F.limit data → data.inside = true)
    (hm : Meets F (fun _ _ => False) m h i Q) :
    ∃ b h' i', Returns PageStore.plain m h.erase b h'.erase ∧ Q b h' i' ∧
      Always PageStore.plain (fun o _ => o.inside = true) m.run h.erase := by
  obtain ⟨r, h', i', hr, hq⟩ := hm
  cases r with
  | error e => cases hq
  | ok b =>
      obtain ⟨_, hr', rfl⟩ := (simulates_plain hF).run rfl hr
      refine ⟨b, h', i', hr', hq, (simulates_plain hF).always ?_ rfl hr⟩
      rintro o x _ r t rfl ho
      obtain ⟨_, _, _, hp⟩ := failing_grants hF ho
      exact permits_inside hin hp

/-- It returns in the page store if none of the latches that it takes after a deletion is blocked. -/
theorem Meets.returns_iff {w : Nat} (hF : ∀ i, F i = false) (hin : ∀ data, F.limit data → data.inside = true)
    (hm : Meets F (fun _ _ => False) m h i Q) (hw : ∀ b h' i', Q b h' i' → h'.waits = h.waits + w) :
    ∃ b h' i', Q b h' i' ∧ ∀ b' t', Returns PageStore.handler m h.erase b' t' ↔
      (b' = b ∧ t' = h'.erase) ∧ ∀ j < w, h.blocked (h.waits + j) = false := by
  obtain ⟨b, h', i', hr, hq, hall⟩ := hm.plain hF hin
  refine ⟨b, h', i', hq, fun b' t' => ?_⟩
  rw [PageStore.returns_iff hr hall, PageStore.clear_iff (hw b h' i' hq)]
  exact Iff.rfl

theorem Meets.returns (hF : ∀ i, F i = false) (hin : ∀ data, F.limit data → data.inside = true)
    (hm : Meets F (fun _ _ => False) m h i Q) (hw : ∀ b h' i', Q b h' i' → h'.waits = h.waits) :
    ∃ b h' i', Returns PageStore.handler m h.erase b h'.erase ∧ Q b h' i' := by
  obtain ⟨b, h', i', hq, hr⟩ := hm.returns_iff (w := 0) hF hin hw
  exact ⟨b, h', i', (hr _ _).mpr ⟨⟨rfl, rfl⟩, nofun⟩, hq⟩

/-- In a guarded regime every request of such a run is permitted. -/
theorem Meets.watching (hF : ∀ i, F i = false) (hin : ∀ data, F.limit data → data.inside = true) (hg : F.guarded)
    (hm : Meets F (fun _ _ => False) m h i Q) :
    ∃ b h' i', Q b h' i' ∧ EndsWithin (PageStore.watching PageStore.plain) PageStore.Proper m (h.erase, h.watch) (.ok b)
      (h'.erase, h'.watch) := by
  obtain ⟨r, h', i', hr, hq⟩ := hm
  cases r with
  | error e => cases hq
  | ok b =>
      obtain ⟨_, hr', rfl⟩ := (simulates_watching hF).run rfl hr
      refine ⟨b, h', i', hq, hr', (simulates_watching hF).always ?_ rfl hr⟩
      rintro o x _ r t rfl ho
      obtain ⟨_, _, _, hp⟩ := failing_grants hF ho
      refine ⟨permits_inside hin hp, ?_⟩
      rcases hp with rfl | hp
      · trivial
      · exact hp.1 hg

end failing

end Heap

/-- What a client knows of the members, and what it has: pages it allocated,
write latches on single pages, and `root_mutex_`; whether it has deleted a page, if that
is known, and how many latches may have waited. -/
structure Scope where
  members : Member → PageId
  created : Set PageId
  latched : Set PageId
  locked : Prop
  freed : Option Bool
  waits : Nat

namespace Scope

def start (members : Member → PageId) (waits : Nat) : Scope := ⟨members, ∅, ∅, False, none, waits⟩

def setMember (M : Scope) (m : Member) (p : PageId) : Scope := { M with members := Function.update M.members m p }

def create (M : Scope) (p : PageId) : Scope := { M with created := insert p M.created }

def latch (M : Scope) (p : PageId) : Scope := { M with latched := insert p M.latched }

def unlatch (M : Scope) (p : PageId) : Scope := { M with latched := M.latched \ {p} }

def lock (M : Scope) (locked : Prop) : Scope := { M with locked := locked }

def begin (M : Scope) : Scope := { M with freed := some false }

def free (M : Scope) : Scope := { M with freed := some true }

def wait (M : Scope) (n : Nat) : Scope := { M with waits := M.waits + n }

def spend (M : Scope) (n : Nat) : Scope := { M with freed := none, waits := M.waits + n }

def Covers (M : Scope) (l : List PageId) (p parent : PageId) : Prop :=
  p ∈ l ∨ p ∈ M.created ∨ p ∈ M.latched ∧ parent ∈ l

structure Within (M M' : Scope) : Prop where
  members : M.members = M'.members
  created : M.created ⊆ M'.created
  latched : M.latched ⊆ M'.latched
  locked : M.locked → M'.locked
  freed : ∀ b, M.freed = some b → M'.freed = some b
  waits : M.waits = M'.waits

variable {M : Scope} {p : PageId}

theorem Within.refl : M.Within M := ⟨rfl, subset_rfl, subset_rfl, id, fun _ => id, rfl⟩

theorem unknown {b' : Option Bool} (h : M.freed = none) : ∀ b, M.freed = some b → b' = some b := by
  intro b hb
  rw [h] at hb
  cases hb

theorem members_setMember (m : Member) : (M.setMember m p).members m = p := by
  simp [setMember]

theorem setMember_eq {m : Member} (h : p = M.members m) : M.setMember m p = M := by
  subst h
  rw [setMember, Function.update_eq_self]

theorem wait_wait {a b : Nat} : (M.wait a).wait b = M.wait (a + b) := by
  rw [wait, wait, wait, Nat.add_assoc]

theorem spend_wait {a b : Nat} : (M.wait a).spend b = M.spend (a + b) := by
  rw [spend, wait, spend, Nat.add_assoc]

theorem within_spend {n : Nat} : (M.spend n).Within (M.wait n) := { Within.refl with freed := nofun }

theorem within_spend_free : (M.spend 0).Within M.free := { Within.refl with freed := nofun }

theorem Within.setMember {M' : Scope} {m : Member} (h : M'.Within M) : (M'.setMember m p).Within (M.setMember m p) := by
  refine { h with members := ?_ }
  rw [Scope.setMember, Scope.setMember, h.members]

theorem within_latch : M.Within (M.latch p) := { Within.refl with latched := Set.subset_insert _ _ }

end Scope

namespace Regime

variable {K V : Type} {F : Regime K V} {M : Scope} {l : List PageId} {p : PageId} {a data : PageData K V}

def Allows (F : Regime K V) (M : Scope) (l : List PageId) (p : PageId) (a data : PageData K V) : Prop :=
  (F.guarded → a.SameEntries data ∨ M.Covers l p a.parentPageId) ∧ F.limit data

theorem allows_mem (hp : F.guarded → p ∈ l) (hd : F.limit data) : F.Allows M l p a data :=
  ⟨fun hF => .inr (.inl (hp hF)), hd⟩

theorem allows_created (hp : p ∈ M.created) (hd : F.limit data) : F.Allows M l p a data :=
  ⟨fun _ => .inr (.inr (.inl hp)), hd⟩

theorem allows_covered {q : PageId} (ha : a.parentPageId = q) (hp : F.guarded → M.Covers l p q) (hd : F.limit data) :
    F.Allows M l p a data := ⟨fun hF => .inr (ha ▸ hp hF), hd⟩

theorem allows_parent {node : TreePage K V} {q : PageId} (hd : F.limit (node.setParentPageId q).data) :
    F.Allows M l p node.data (node.setParentPageId q).data := by
  refine ⟨fun _ => .inl ?_, hd⟩
  cases node <;> exact rfl

end Regime

namespace Heap

variable {K V β γ : Type}

def Pinned (h : Heap (PageData K V)) (E : Multiset PageId) : Prop := ∀ p ∈ E, h.dead p = false ∧ E.count p ≤ h.pins p

theorem Pinned.mono {h : Heap (PageData K V)} {E E' : Multiset PageId} (hp : h.Pinned E') (hle : E ≤ E') : h.Pinned E :=
  fun p hm =>
    have ⟨hd, hc⟩ := hp p (Multiset.mem_of_le hle hm)
    ⟨hd, (Multiset.count_le_of_le p hle).trans hc⟩

/-- What a client knows of the heap: the cells `S`, the pins `E` that are still to
be given back, and that only pages in `D` have changes not yet given back. -/
structure Owns (h : Heap (PageData K V)) (S : Multiset (PageId × PageData K V)) (E : Multiset PageId) (D : Set PageId)
    (l : List PageId) (M : Scope) : Prop where
  holds : Holds h.data S
  live : ∀ x ∈ S, h.Live x.1
  pins : ∀ p, h.dead p = false → h.pins p = E.count p
  held : ∀ p ∈ E, h.Live p
  pending : ∀ p, h.pending p = true → p ∈ D
  pageSet : h.pageSet = l
  members : h.members = M.members
  fresh : ∀ p, h.nextPageId ≤ p → h.dead p = false
  next : 0 ≤ h.nextPageId
  created : ∀ p ∈ M.created, p ∈ h.watch.created
  latched : ∀ p ∈ M.latched, p ∈ h.watch.latched
  locked : M.locked → h.watch.rootLocked = true
  freed : ∀ b, M.freed = some b → h.freed = b
  waits : h.waits = M.waits

namespace Owns

variable {h : Heap (PageData K V)} {S S' : Multiset (PageId × PageData K V)} {E E' : Multiset PageId} {D D' : Set PageId}
  {l : List PageId} {M M' : Scope} {p : PageId} {data : PageData K V}

theorem of_eq (hs : Owns h S E D l M) (hS : S = S') (hE : E = E') (hD : D ⊆ D') : Owns h S' E' D' l M := by
  subst hS hE
  exact { hs with pending := fun p hp => hD (hs.pending p hp) }

variable (S') in
theorem cells (hs : Owns h S E D l M) (hS : S = S') : Owns h S' E D l M := hS ▸ hs

theorem forget (hs : Owns h S E D l M) (hM : M'.Within M) : Owns h S E D l M' :=
  { hs with
    members := hs.members.trans hM.members.symm
    created := fun p hp => hs.created p (hM.created hp)
    latched := fun p hp => hs.latched p (hM.latched hp)
    locked := fun hl => hs.locked (hM.locked hl)
    freed := fun b hb => hs.freed b (hM.freed b hb)
    waits := hs.waits.trans hM.waits.symm }

theorem isHeld (hs : Owns h S E D l M) (hp : p ∈ E) : h.Held p := by
  have hd := (hs.held p hp).2.2
  refine ⟨hd, ?_⟩
  rw [hs.pins p hd]
  exact Multiset.count_pos.mpr hp

theorem not_held (hs : Owns h S E D l M) (hp : p ∉ E) : ¬ h.Held p := by
  rintro ⟨hd, hpos⟩
  rw [hs.pins p hd] at hpos
  exact hp (Multiset.count_pos.mp hpos)

theorem pinned (hs : Owns h S E D l M) : h.Pinned E := fun p hp =>
  have hd := (hs.held p hp).2.2
  ⟨hd, Nat.le_of_eq (hs.pins p hd).symm⟩

theorem pin (hs : Owns h S E D l M) (hp : h.Live p) : Owns (h.pin p) S ({p} + E) D l M :=
  { hs with
    pins := by
      intro q hq
      show Function.update h.pins p (h.pins p + 1) q = _
      rw [Multiset.count_add, Multiset.count_singleton]
      by_cases hqp : q = p
      · subst hqp
        rw [Function.update_self, if_pos rfl, hs.pins q hq, Nat.add_comm]
      · rw [Function.update_of_ne hqp, if_neg hqp, hs.pins q hq, Nat.zero_add]
    held := by
      intro q hq
      rcases Multiset.mem_add.mp hq with hq | hq
      · obtain rfl := Multiset.mem_singleton.mp hq
        exact hp
      · exact hs.held q hq }

theorem unpin (hs : Owns h S ({p} + E) D l M) : Owns (h.unpin p) S E (D \ {p}) l M :=
  { hs with
    pins := by
      intro q hq
      have hpins := hs.pins q hq
      rw [Multiset.count_add, Multiset.count_singleton] at hpins
      show Function.update h.pins p (h.pins p - 1) q = _
      by_cases hqp : q = p
      · subst hqp
        rw [Function.update_self, hpins, if_pos rfl, Nat.add_sub_cancel_left]
      · rw [Function.update_of_ne hqp, hpins, if_neg hqp, Nat.zero_add]
    held := fun q hq => hs.held q (Multiset.mem_add.mpr (.inr hq))
    pending := by
      intro q hq
      change Function.update h.pending p false q = true at hq
      by_cases hqp : q = p
      · subst hqp
        rw [Function.update_self] at hq
        cases hq
      · rw [Function.update_of_ne hqp] at hq
        exact ⟨hs.pending q hq, hqp⟩ }

theorem put {a : PageData K V} (hs : Owns h ({(p, a)} + S) E D l M) :
    Owns (h.put p data) ({(p, data)} + S) E (insert p D) l M :=
  { hs with
    holds := hs.holds.set
    live := by
      intro x hx
      rcases Multiset.mem_add.mp hx with hx | hx
      · obtain rfl := Multiset.mem_singleton.mp hx
        exact hs.live (p, a) mem_front
      · exact hs.live x (Multiset.mem_add.mpr (.inr hx))
    pending := by
      intro q hq
      change Function.update h.pending p true q = true at hq
      by_cases hqp : q = p
      · exact .inl hqp
      · rw [Function.update_of_ne hqp] at hq
        exact .inr (hs.pending q hq) }

theorem lt_next (hs : Owns h S E D l M) : (∀ x ∈ S, x.1 < h.nextPageId) ∧ ∀ p ∈ E, p < h.nextPageId :=
  ⟨fun x hx => (hs.live x hx).2.1, fun p hp => (hs.held p hp).2.1⟩

theorem create (hs : Owns h S E D l M) :
    Owns (observe h h.create .newPage (some h.nextPageId)) ({(h.nextPageId, .zero)} + S) ({h.nextPageId} + E) D l
      (M.create h.nextPageId) := by
  have hlive : ∀ q, q ≠ h.nextPageId → h.Live q → h.create.Live q := by
    rintro q hne ⟨h₀, hlt, hd⟩
    exact ⟨h₀, Int.lt_trans hlt (Int.lt_succ _), (Function.update_of_ne hne ..).trans hd⟩
  have hnew : h.create.Live h.nextPageId := ⟨hs.next, Int.lt_succ _, Function.update_self ..⟩
  exact {
    holds := hs.holds.add fun x hx => Int.ne_of_lt (hs.lt_next.1 x hx)
    live := by
      intro x hx
      rcases Multiset.mem_add.mp hx with hx | hx
      · obtain rfl := Multiset.mem_singleton.mp hx
        exact hnew
      · exact hlive x.1 (Int.ne_of_lt (hs.lt_next.1 x hx)) (hs.live x hx)
    pins := by
      intro q hq
      show Function.update h.pins h.nextPageId 1 q = _
      rw [Multiset.count_add, Multiset.count_singleton]
      by_cases hqp : q = h.nextPageId
      · have hnot : h.nextPageId ∉ E := fun hm => absurd (hs.lt_next.2 _ hm) (Int.lt_irrefl _)
        rw [hqp, Function.update_self, if_pos rfl, Multiset.count_eq_zero_of_notMem hnot]
      · change Function.update h.dead h.nextPageId false q = false at hq
        rw [Function.update_of_ne hqp] at hq ⊢
        rw [if_neg hqp, Nat.zero_add, hs.pins q hq]
    held := by
      intro q hq
      rcases Multiset.mem_add.mp hq with hq | hq
      · obtain rfl := Multiset.mem_singleton.mp hq
        exact hnew
      · exact hlive q (Int.ne_of_lt (hs.lt_next.2 q hq)) (hs.held q hq)
    pending := by
      intro q hq
      change Function.update h.pending h.nextPageId false q = true at hq
      by_cases hqp : q = h.nextPageId
      · rw [hqp, Function.update_self] at hq
        cases hq
      · rw [Function.update_of_ne hqp] at hq
        exact hs.pending q hq
    pageSet := hs.pageSet
    members := hs.members
    fresh := by
      intro q hq
      show Function.update h.dead h.nextPageId false q = false
      by_cases hqp : q = h.nextPageId
      · rw [hqp, Function.update_self]
      · rw [Function.update_of_ne hqp]
        exact hs.fresh q (Int.le_trans (Int.le_of_lt (Int.lt_succ _)) hq)
    next := Int.le_trans hs.next (Int.le_of_lt (Int.lt_succ _))
    created := by
      intro q hq
      rcases hq with rfl | hq
      · exact List.mem_cons_self
      · exact List.mem_cons_of_mem _ (hs.created q hq)
    latched := hs.latched
    locked := hs.locked
    freed := hs.freed
    waits := hs.waits }

theorem delete {a : PageData K V} (hs : Owns h ({(p, a)} + S) E D l M) :
    Owns (h.delete p) S (E.filter (· ≠ p)) (D \ {p}) l M.free := by
  have hlive : ∀ q, q ≠ p → h.Live q → (h.delete p).Live q := by
    rintro q hne ⟨h₀, hlt, hd⟩
    exact ⟨h₀, hlt, (Function.update_of_ne hne ..).trans hd⟩
  have hp := hs.live (p, a) mem_front
  exact { hs with
    holds := hs.holds.right.update_of_not_mem hs.holds.not_mem
    live := fun x hx => hlive x.1 (hs.holds.not_mem x hx) (hs.live x (Multiset.mem_add.mpr (.inr hx)))
    pins := by
      intro q hq
      change Function.update h.dead p true q = false at hq
      have hqp : q ≠ p := by
        rintro rfl
        rw [Function.update_self] at hq
        cases hq
      rw [Function.update_of_ne hqp] at hq
      exact (hs.pins q hq).trans (Multiset.count_filter_of_pos (p := (· ≠ p)) hqp).symm
    held := by
      intro q hq
      obtain ⟨hq, hqp⟩ := Multiset.mem_filter.mp hq
      exact hlive q hqp (hs.held q hq)
    pending := by
      intro q hq
      change Function.update h.pending p false q = true at hq
      by_cases hqp : q = p
      · rw [hqp, Function.update_self] at hq
        cases hq
      · rw [Function.update_of_ne hqp] at hq
        exact ⟨hs.pending q hq, hqp⟩
    fresh := by
      intro q hq
      have hne : q ≠ p := by
        rintro rfl
        exact absurd hp.2.1 (Int.not_lt.mpr hq)
      exact (Function.update_of_ne hne ..).trans (hs.fresh q hq)
    freed := fun _ hb => Option.some.inj hb }

theorem setMember (hs : Owns h S E D l M) (m : Member) : Owns (h.setMember m p) S E D l (M.setMember m p) :=
  { hs with
    members := by
      show Function.update h.members m p = Function.update M.members m p
      rw [hs.members] }

theorem setPageSet (hs : Owns h S E D l M) (l' : List PageId) : Owns (h.setPageSet l') S E D l' M :=
  { hs with pageSet := rfl }

theorem begin (hs : Owns h S E D l M) : Owns h.begin S E D [] M.begin :=
  { hs with pageSet := rfl, freed := fun _ hb => Option.some.inj hb }

theorem wait (hs : Owns h S E D l M) {b : Bool} (hb : M.freed = some b) :
    Owns h.wait S E D l (M.wait b.toNat) :=
  { hs with
    waits := by
      show h.waits + h.freed.toNat = M.waits + b.toNat
      rw [hs.waits, hs.freed b hb] }

theorem rewatch (hs : Owns h S E D l M) {w : Watch} (hm : M.members = M'.members) (hc : ∀ p ∈ M'.created, p ∈ w.created)
    (hl : ∀ p ∈ M'.latched, p ∈ w.latched) (hr : M'.locked → w.rootLocked = true) (hf : M'.freed = M.freed)
    (hw : M'.waits = M.waits) : Owns { h with watch := w } S E D l M' :=
  { hs with
    members := hs.members.trans hm
    created := hc
    latched := hl
    locked := hr
    freed := hf ▸ hs.freed
    waits := hs.waits.trans hw.symm }

theorem covered (hs : Owns h S E D l M) (hp : (p, data) ∈ S) (hc : M.Covers l p data.parentPageId) :
    PageStore.Covered (h.erase, h.watch) p := by
  have hd : h.data p = data := hs.holds.value _ hp
  rcases hc with hc | hc | ⟨hc, hpar⟩
  · exact .inl (show p ∈ h.pageSet by rwa [hs.pageSet])
  · exact .inr (.inl (hs.created p hc))
  · refine .inr (.inr ⟨hs.latched p hc, ?_⟩)
    show (h.data p).parentPageId ∈ h.pageSet
    rw [hd, hs.pageSet]
    exact hpar

section rules

variable {F : Regime K V} {X : Abort → Heap (PageData K V) → Prop} {i : Nat} {Q : γ → Heap (PageData K V) → Nat → Prop}

theorem fetchPage {g : Bool → PageM (PageData K V) γ} (hs : Owns h S E D l M) (hp : (p, data) ∈ S)
    (hg : ∀ h, Owns h S ({p} + E) D l M → Meets F X (g true) h i Q) : Meets F X (PageM.fetchPage p >>= g) h i Q :=
  have hlive := hs.live _ hp
  meets_request nofun ⟨fun _ => trivial, trivial⟩ (if_pos hlive) (hg _ (hs.pin hlive))

theorem fetch {g : Unit → PageM (PageData K V) γ} (hs : Owns h S E D l M) (hp : (p, data) ∈ S)
    (hg : ∀ h, Owns h S ({p} + E) D l M → Meets F X (g ()) h i Q) : Meets F X (PageM.fetch p >>= g) h i Q := by
  unfold PageM.fetch
  rw [bind_assoc]
  exact hs.fetchPage hp fun h hs => hg h hs

theorem unpinPage_live {g : Unit → PageM (PageData K V) γ} {w : Bool} (hs : Owns h S ({p} + E) D l M)
    (hw : w = false → p ∉ D)
    (hg : ∀ h', Owns h' S E (D \ {p}) l M → (∀ q, h.dead q = false → h'.dead q = false) → Meets F X (g ()) h' i Q) :
    Meets F X (PageM.unpinPage p w >>= g) h i Q := by
  have hheld := hs.isHeld (Multiset.mem_add.mpr (.inl (Multiset.mem_singleton_self p)))
  have hn : ¬ (h.pending p = true ∧ w = false) := fun hpw => hw hpw.2 (hs.pending p hpw.1)
  exact meets_request nofun ⟨fun _ => trivial, trivial⟩ ((if_pos hheld).trans (if_neg hn))
    (hg _ hs.unpin fun _ hq => hq)

theorem unpinPage {g : Unit → PageM (PageData K V) γ} {w : Bool} (hs : Owns h S ({p} + E) D l M)
    (hw : w = false → p ∉ D) (hg : ∀ h, Owns h S E (D \ {p}) l M → Meets F X (g ()) h i Q) :
    Meets F X (PageM.unpinPage p w >>= g) h i Q := hs.unpinPage_live hw fun h hs _ => hg h hs

theorem unpinPage_skip {g : Unit → PageM (PageData K V) γ} {w : Bool} (hs : Owns h S E D l M) (hp : p ∉ E)
    (hg : Meets F X (g ()) h i Q) : Meets F X (PageM.unpinPage p w >>= g) h i Q :=
  meets_request nofun ⟨fun _ => trivial, trivial⟩ (if_neg (hs.not_held hp)) hg

theorem deletePage {g : Unit → PageM (PageData K V) γ} (hs : Owns h ({(p, data)} + S) E D l M)
    (hc : E.count p ≤ l.count p) (hw : F.guarded → M.Covers l p data.parentPageId) (hz : F.spotless → p ∉ E)
    (hg : ∀ h, Owns h S (E.filter (· ≠ p)) (D \ {p}) l M.free → Meets F X (g ()) h i Q) :
    Meets F X (PageM.deletePage p >>= g) h i Q := by
  have hmem : (p, data) ∈ {(p, data)} + S := mem_front
  have hlive := hs.live (p, data) hmem
  have hpins : h.pins p ≤ h.pageSet.count p := by
    rw [hs.pins p hlive.2.2, hs.pageSet]
    exact hc
  have hzero : F.spotless → h.pins p = 0 := fun hF =>
    (hs.pins p hlive.2.2).trans (Multiset.count_eq_zero_of_notMem (hz hF))
  exact meets_request nofun ⟨fun hF => hs.covered hmem (hw hF), hzero⟩ (if_pos ⟨hlive, hpins⟩) (hg _ hs.delete)

theorem getData {g : PageData K V → PageM (PageData K V) γ} (hs : Owns h S E D l M) (hp : (p, data) ∈ S) (he : p ∈ E)
    (hg : Meets F X (g data) h i Q) : Meets F X (PageM.getData p >>= g) h i Q := by
  refine meets_request nofun ⟨fun _ => trivial, trivial⟩ (if_pos (hs.isHeld he)) ?_
  rw [hs.holds.value _ hp]
  exact hg

theorem getTreePage {g : TreePage K V → PageM (PageData K V) γ} {node : TreePage K V} (hs : Owns h S E D l M)
    (hp : (p, node.data) ∈ S) (he : p ∈ E) (hg : Meets F X (g node) h i Q) :
    Meets F X (PageM.getTreePage p >>= g) h i Q := by
  unfold PageM.getTreePage
  rw [bind_assoc]
  refine hs.getData hp he ?_
  cases node <;> exact hg

theorem getLeaf {g : LeafPage K V → PageM (PageData K V) γ} {page : LeafPage K V} (hs : Owns h S E D l M)
    (hp : (p, .leaf page) ∈ S) (he : p ∈ E) (hg : Meets F X (g page) h i Q) :
    Meets F X (PageM.getLeaf p >>= g) h i Q := by
  unfold PageM.getLeaf
  rw [bind_assoc]
  exact hs.getData hp he hg

theorem getInternal {g : InternalPage K → PageM (PageData K V) γ} {page : InternalPage K} (hs : Owns h S E D l M)
    (hp : (p, .internal page) ∈ S) (he : p ∈ E) (hg : Meets F X (g page) h i Q) :
    Meets F X (PageM.getInternal p >>= g) h i Q := by
  unfold PageM.getInternal
  rw [bind_assoc]
  exact hs.getData hp he hg

theorem setData {g : Unit → PageM (PageData K V) γ} {a : PageData K V} (hs : Owns h ({(p, a)} + S) E D l M) (he : p ∈ E)
    (hw : F.Allows M l p a data)
    (hg : ∀ h, Owns h ({(p, data)} + S) E (insert p D) l M → Meets F X (g ()) h i Q) :
    Meets F X (PageM.setData p data >>= g) h i Q := by
  have hmem : (p, a) ∈ {(p, a)} + S := mem_front
  refine meets_request nofun ⟨fun hF => ?_, hw.2⟩ (if_pos (hs.isHeld he)) (hg _ hs.put)
  rcases hw.1 hF with hsame | hc
  · exact .inl (show (h.data p).SameEntries data by rwa [hs.holds.get])
  · exact .inr (hs.covered hmem hc)

theorem latch {g : Unit → PageM (PageData K V) γ} {op : OpType} {b : Bool} (hs : Owns h S E D l M) (he : p ∈ E)
    (hb : M.freed = some b)
    (hg : ∀ h, Owns h S E D l (M.wait b.toNat) → (op ≠ .read → Owns h S E D l ((M.wait b.toNat).latch p)) →
      Meets F X (g ()) h i Q) :
    Meets F X (PageM.latch p op >>= g) h i Q := by
  refine meets_request nofun ⟨fun _ => trivial, trivial⟩ (if_pos (hs.isHeld he)) ?_
  have hs := hs.wait hb
  have hlatch : ∀ hop : op ≠ .read, Owns (observe h h.wait (.latch p op) ()) S E D l ((M.wait b.toNat).latch p) := by
    intro hop
    have hw : h.watch.record h.pageSet (.latch p op : PoolOp (PageData K V)) () =
        { h.watch with latched := p :: h.watch.latched } := if_neg hop
    rw [observe, hw]
    refine hs.rewatch rfl hs.created ?_ hs.locked rfl rfl
    rintro q (rfl | hq)
    · exact List.mem_cons_self
    · exact List.mem_cons_of_mem _ (hs.latched q hq)
  refine hg _ ?_ hlatch
  by_cases hop : op = .read
  · have hw : h.watch.record h.pageSet (.latch p op : PoolOp (PageData K V)) () = h.watch := if_pos hop
    rw [observe, hw]
    exact hs
  · exact (hlatch hop).forget Scope.within_latch

theorem unlatch {g : Unit → PageM (PageData K V) γ} {op : OpType} (hs : Owns h S E D l M)
    (hg : ∀ h, Owns h S E D l (M.unlatch p) → Meets F X (g ()) h i Q) : Meets F X (PageM.unlatch p op >>= g) h i Q := by
  refine meets_request nofun ⟨fun _ => trivial, trivial⟩ rfl (hg _ ?_)
  have hw : h.watch.record h.pageSet (.unlatch p op : PoolOp (PageData K V)) () =
    if op = .read then h.watch else { h.watch with latched := h.watch.latched.erase p } := rfl
  rw [observe, hw]
  split
  · exact hs.rewatch rfl hs.created (fun q hq => hs.latched q hq.1) hs.locked rfl rfl
  · exact hs.rewatch rfl hs.created (fun q hq => (List.mem_erase_of_ne hq.2).mpr (hs.latched q hq.1)) hs.locked rfl rfl

theorem lockRoot {g : Unit → PageM (PageData K V) γ} (hs : Owns h S E D l M)
    (hg : ∀ h', Owns h' S E D l (M.lock True) → (∀ q, h.dead q = false → h'.dead q = false) → Meets F X (g ()) h' i Q) :
    Meets F X (PageM.lockRoot >>= g) h i Q :=
  meets_request nofun ⟨fun _ => trivial, trivial⟩ rfl
    (hg _ (hs.rewatch rfl hs.created hs.latched (fun _ => rfl) rfl rfl) fun _ hq => hq)

theorem unlockRoot {g : Unit → PageM (PageData K V) γ} (hs : Owns h S E D l M)
    (hg : ∀ h, Owns h S E D l (M.lock False) → Meets F X (g ()) h i Q) : Meets F X (PageM.unlockRoot >>= g) h i Q :=
  meets_request nofun ⟨fun _ => trivial, trivial⟩ rfl (hg _ (hs.rewatch rfl hs.created hs.latched False.elim rfl rfl))

theorem newTransaction {g : Unit → PageM (PageData K V) γ} (hs : Owns h S E D l M)
    (hl : ∀ p ∈ l, h.dead p = false) (hg : ∀ h, Owns h S E D [] M.begin → Meets F X (g ()) h i Q) :
    Meets F X (PageM.newTransaction >>= g) h i Q :=
  meets_request nofun ⟨fun _ => trivial, trivial⟩ (if_pos (by rw [hs.pageSet]; exact hl)) (hg _ hs.begin)

theorem addIntoPageSet {g : Unit → PageM (PageData K V) γ} (hs : Owns h S E D l M) (he : p ∈ E) (hn : p ∉ l)
    (hl : ∀ q ∈ l, q ∈ E) (hg : ∀ h, Owns h S E D (l ++ [p]) M → Meets F X (g ()) h i Q) :
    Meets F X (PageM.addIntoPageSet p >>= g) h i Q := by
  have hn' : p ∉ h.pageSet := hs.pageSet ▸ hn
  have hl' : ∀ q ∈ h.pageSet, h.Held q := fun q hq => hs.isHeld (hl q (hs.pageSet ▸ hq))
  refine meets_request nofun ⟨fun _ => trivial, trivial⟩ (if_pos ⟨hs.isHeld he, hn', hl'⟩) (hg _ ?_)
  rw [hs.pageSet]
  exact hs.setPageSet _

theorem pageSetSize {g : Nat → PageM (PageData K V) γ} (hs : Owns h S E D l M) (hg : Meets F X (g l.length) h i Q) :
    Meets F X (PageM.pageSetSize >>= g) h i Q := by
  refine meets_request nofun ⟨fun _ => trivial, trivial⟩ rfl ?_
  rw [hs.pageSet]
  exact hg

theorem pageSetPageId {g : PageId → PageM (PageData K V) γ} {j : Nat} (hs : Owns h S E D l M) (hj : l[j]? = some p)
    (he : p ∈ E) (hg : Meets F X (g p) h i Q) : Meets F X (PageM.pageSetPageId j >>= g) h i Q := by
  have hj' : h.pageSet[j]? = some p := hs.pageSet ▸ hj
  refine meets_request nofun ⟨fun _ => trivial, trivial⟩ ?_ hg
  refine (congrArg (Option.bind · _) hj').trans ?_
  exact if_pos (hs.isHeld he)

theorem pageSetUnlatch {g : Unit → PageM (PageData K V) γ} {j : Nat} {op : OpType} (hs : Owns h S E D l M)
    (hM : M.latched = ∅)
    (hg : ∀ h', Owns h' S E D l M → (∀ q, h.dead q = false → h'.dead q = false) → Meets F X (g ()) h' i Q) :
    Meets F X (PageM.pageSetUnlatch j op >>= g) h i Q := by
  refine meets_request (fun hc => by cases hc) ⟨fun _ => trivial, trivial⟩ rfl (hg _ ?_ fun _ hq => hq)
  have hno : ∀ w : Watch, ∀ q ∈ M.latched, q ∈ w.latched := fun w q hq => absurd (hM ▸ hq) (Set.notMem_empty q)
  unfold observe Watch.record
  dsimp only
  split
  · exact hs
  · split
    · exact hs.rewatch rfl hs.created (hno _) hs.locked rfl rfl
    · exact hs

theorem clearPageSet {g : Unit → PageM (PageData K V) γ} (hs : Owns h S E D l M)
    (hl : ∀ p ∈ l, h.dead p = false) (hg : ∀ h, Owns h S E D [] M → Meets F X (g ()) h i Q) :
    Meets F X (PageM.clearPageSet >>= g) h i Q :=
  meets_request nofun ⟨fun _ => trivial, trivial⟩ (if_pos (by rw [hs.pageSet]; exact hl)) (hg _ (hs.setPageSet []))

theorem getMember {g : PageId → PageM (PageData K V) γ} {m : Member} (hs : Owns h S E D l M)
    (hg : Meets F X (g (M.members m)) h i Q) : Meets F X (PageM.getMember m >>= g) h i Q := by
  refine meets_request nofun ⟨fun _ => trivial, trivial⟩ rfl ?_
  rw [hs.members]
  exact hg

theorem setRoot {g : Unit → PageM (PageData K V) γ} (hs : Owns h S E D l M)
    (hw : F.guarded → (M.members .rootPageId = invalidPageId ∨ M.members .rootPageId ∈ l) ∧ M.locked)
    (hg : ∀ h, Owns h S E D l (M.setMember .rootPageId p) → Meets F X (g ()) h i Q) :
    Meets F X (PageM.setMember .rootPageId p >>= g) h i Q := by
  refine meets_request nofun ⟨fun hF => ?_, trivial⟩ rfl (hg _ (hs.setMember _))
  obtain ⟨hroot, hlock⟩ := hw hF
  refine ⟨?_, hs.locked hlock⟩
  show h.members .rootPageId = invalidPageId ∨ h.members .rootPageId ∈ h.pageSet
  rw [hs.members, hs.pageSet]
  exact hroot

theorem newPage {g : Option PageId → PageM (PageData K V) γ} (hs : Owns h S E D l M)
    (hnone : F i = true → Meets F X (g none) h (i + 1) Q)
    (hsome : F i = false → ∀ h p, (∀ x ∈ S, x.1 < p) → (∀ q ∈ E, q < p) → 0 ≤ p →
      Owns h ({(p, .zero)} + S) ({p} + E) D l (M.create p) → Meets F X (g (some p)) h (i + 1) Q) :
    Meets F X (PageM.newPage >>= g) h i Q :=
  meets_newPage hnone fun hi => hsome hi _ _ hs.lt_next.1 hs.lt_next.2 hs.next hs.create

end rules

end Owns

end Heap

end DBPlayground.Storage
