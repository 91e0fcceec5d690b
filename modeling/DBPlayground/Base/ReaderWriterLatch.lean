import DBPlayground.Lib.Monitor
import Mathlib.Data.Fintype.Card

namespace DBPlayground.Base

open Monitor

structure ReaderWriterLatch where
  readerCount : UInt32 := 0
  writerEntered : Bool := false
  deriving DecidableEq

namespace ReaderWriterLatch

def maxReaders : UInt32 := 4294967295

inductive Condition
  | writer
  | reader
  deriving DecidableEq

/-- Where a method takes the mutex: at its start, or after a wait. -/
inductive Point
  | wLock
  | wLockDrain
  | wUnlock
  | rLock
  | rUnlock
  deriving DecidableEq

inductive Held
  | none
  | read
  | write
  deriving DecidableEq

abbrev Effect := ReaderWriterLatch × List (Signal Condition) × Exit Condition Point Held

/-- The second loop of `WLock`. -/
def drain (s : ReaderWriterLatch) : Effect :=
  if s.readerCount > 0 then (s, [], .wait .writer .wLockDrain) else (s, [], .ret .write)

def critical : Point → ReaderWriterLatch → Effect
  | .wLock, s =>
    if s.writerEntered then (s, [], .wait .reader .wLock) else drain { s with writerEntered := true }
  | .wLockDrain, s => drain s
  | .wUnlock, s => ({ s with writerEntered := false }, [.all .reader], .ret .none)
  | .rLock, s =>
    if s.writerEntered ∨ s.readerCount = maxReaders then (s, [], .wait .reader .rLock)
    else ({ s with readerCount := s.readerCount + 1 }, [], .ret .read)
  | .rUnlock, s =>
    let s := { s with readerCount := s.readerCount - 1 }
    if s.writerEntered then (s, if s.readerCount = 0 then [.one .writer] else [], .ret .none)
    else (s, if s.readerCount = maxReaders - 1 then [.one .reader] else [], .ret .none)

/-- A client gives back what it holds, and takes the latch only if it holds nothing. -/
def Calls : Held → Point → Prop
  | .none, l => l = .wLock ∨ l = .rLock
  | .read, l => l = .rUnlock
  | .write, l => l = .wUnlock

def methods : Methods Condition ReaderWriterLatch Point Held := ⟨Calls, critical⟩

/-- What a thread is to the latch. A thread holds the latch up to the moment at which its
unlock takes the mutex. -/
inductive Role
  | away
  | reader
  | drainer
  | writer
  deriving DecidableEq

def role : Held ⊕ Point → Role
  | .inl .none => .away
  | .inl .read => .reader
  | .inl .write => .writer
  | .inr .wLock => .away
  | .inr .wLockDrain => .drainer
  | .inr .wUnlock => .writer
  | .inr .rLock => .away
  | .inr .rUnlock => .reader

theorem role_calls {h : Held} {l : Point} (hc : Calls h l) : role (.inr l) = role (.inl h) := by
  cases h with
  | none => rcases hc with rfl | rfl <;> rfl
  | read => cases hc; rfl
  | write => cases hc; rfl

theorem toNat_succ {c : UInt32} (h : c ≠ maxReaders) : (c + 1).toNat = c.toNat + 1 := by
  have hlt := c.toNat_lt
  have hne : c.toNat ≠ 4294967295 := fun he => h (UInt32.toNat_inj.mp he)
  rw [UInt32.toNat_add]
  exact Nat.mod_eq_of_lt (by simp; omega)

theorem toNat_pred {c : UInt32} (h : 0 < c.toNat) : (c - 1).toNat = c.toNat - 1 :=
  UInt32.toNat_sub_of_le c 1 (UInt32.le_iff_toNat_le.mpr h)

theorem zero_of_not_pos {c : UInt32} (h : ¬ c > 0) : c = 0 :=
  UInt32.toNat_inj.mp (Nat.eq_zero_of_not_pos fun hc => h (UInt32.lt_iff_toNat_lt.mpr hc))

abbrev Latch (T : Type) := State T Condition ReaderWriterLatch Point Held

section roles

variable {T : Type}

def roles (s : Latch T) (t : T) : Role := role (s.point t)

def start : Latch T := ⟨{}, fun _ => .outside .none⟩

variable [Fintype T]

def readers (r : T → Role) : Finset T := Finset.univ.filter fun t => r t = .reader

/-- The fields of the latch say which threads are inside. -/
structure Coherent (x : ReaderWriterLatch) (r : T → Role) : Prop where
  count : x.readerCount.toNat = (readers r).card
  entered : x.writerEntered = true ↔ ∃ t, r t = .drainer ∨ r t = .writer
  unique : ∀ t u, r t = .drainer ∨ r t = .writer → r u = .drainer ∨ r u = .writer → t = u
  alone : ∀ t, r t = .writer → x.readerCount = 0

variable {x : ReaderWriterLatch} {r : T → Role}

theorem mem_readers {t : T} : t ∈ readers r ↔ r t = .reader := by simp [readers]

theorem Coherent.no_owner (h : Coherent x r) (hx : x.writerEntered = false) (u : T) :
    ¬ (r u = .drainer ∨ r u = .writer) :=
  fun hu => Bool.false_ne_true (hx.symm.trans (h.entered.mpr ⟨u, hu⟩))

theorem Coherent.count_ne_max (h : Coherent x r) (hT : Fintype.card T < maxReaders.toNat) :
    x.readerCount ≠ maxReaders := by
  intro he
  have hle : (readers r).card ≤ Fintype.card T := Finset.card_le_univ _
  rw [← h.count, he] at hle
  exact absurd hle (Nat.not_le.mpr hT)

theorem coherent_start : Coherent (start : Latch T).shared (roles (start : Latch T)) where
  count := by simp [start, roles, readers, State.point, Place.point, role]
  entered := by simp [start, roles, State.point, Place.point, role]
  unique t u ht := by simp [start, roles, State.point, Place.point, role] at ht
  alone t ht := rfl

end roles

section exclusion

variable {T : Type} [DecidableEq T] {r : T → Role} {t : T}

theorem update_owner {a : Role} {u : T} (ha : ¬ (a = .drainer ∨ a = .writer)) :
    (Function.update r t a u = .drainer ∨ Function.update r t a u = .writer) ↔
      u ≠ t ∧ (r u = .drainer ∨ r u = .writer) := by
  by_cases hu : u = t
  · subst hu
    simpa using ha
  · simp [hu]

variable [Fintype T] {x x' : ReaderWriterLatch} {l : Point} {sigs : List (Signal Condition)}
  {e : Exit Condition Point Held}

theorem readers_update_of_ne {a : Role} (ht : r t ≠ .reader) (ha : a ≠ .reader) :
    readers (Function.update r t a) = readers r := by
  ext u
  rw [mem_readers, mem_readers]
  by_cases hu : u = t
  · subst hu
    rw [Function.update_self]
    exact iff_of_false ha ht
  · rw [Function.update_of_ne hu]

theorem readers_enter (ht : r t ≠ .reader) : (readers (Function.update r t .reader)).card = (readers r).card + 1 := by
  rw [← Finset.card_insert_of_notMem (mt mem_readers.mp ht)]
  congr 1
  ext u
  rw [mem_readers, Finset.mem_insert, mem_readers]
  by_cases hu : u = t
  · simp [hu]
  · simp [hu]

theorem readers_leave (ht : r t = .reader) : (readers (Function.update r t .away)).card = (readers r).card - 1 := by
  rw [← Finset.card_erase_of_mem (mem_readers.mpr ht)]
  congr 1
  ext u
  rw [mem_readers, Finset.mem_erase, mem_readers]
  by_cases hu : u = t
  · simp [hu]
  · simp [hu]

theorem Coherent.own {a : Role} (h : Coherent x r) (ht : r t ≠ .reader)
    (hother : ∀ u, u ≠ t → ¬ (r u = .drainer ∨ r u = .writer))
    (ha : a = .drainer ∨ a = .writer) (hzero : a = .writer → x.readerCount = 0) :
    Coherent { x with writerEntered := true } (Function.update r t a) := by
  have hone : ∀ u, Function.update r t a u = .drainer ∨ Function.update r t a u = .writer → u = t := by
    intro u hu
    by_contra hne
    rw [Function.update_of_ne hne] at hu
    exact hother u hne hu
  refine ⟨?_, iff_of_true rfl ⟨t, ?_⟩, fun u v hu hv => (hone u hu).trans (hone v hv).symm, fun u hu => ?_⟩
  · rw [readers_update_of_ne ht (by rcases ha with rfl | rfl <;> decide)]
    exact h.count
  · rwa [Function.update_self]
  · obtain rfl := hone u (.inr hu)
    exact hzero ((Function.update_self ..).symm.trans hu)

theorem Coherent.wUnlock (h : Coherent x r) (ht : r t = .writer) :
    Coherent { x with writerEntered := false } (Function.update r t .away) := by
  have hnone : ∀ u, ¬ (Function.update r t .away u = .drainer ∨ Function.update r t .away u = .writer) := by
    intro u hu
    obtain ⟨hne, hu⟩ := (update_owner (by decide)).mp hu
    exact hne (h.unique u t hu (.inr ht))
  refine ⟨?_, iff_of_false Bool.false_ne_true fun hu => hu.elim hnone, fun u _ hu => absurd hu (hnone u),
    fun u hu => absurd (.inr hu) (hnone u)⟩
  rw [readers_update_of_ne (by rw [ht]; decide) (by decide)]
  exact h.count

theorem Coherent.rLock (h : Coherent x r) (ht : r t = .away) (hx : x.writerEntered = false)
    (hmax : x.readerCount ≠ maxReaders) :
    Coherent { x with readerCount := x.readerCount + 1 } (Function.update r t .reader) := by
  have hnone : ∀ u, ¬ (Function.update r t .reader u = .drainer ∨ Function.update r t .reader u = .writer) :=
    fun u hu => h.no_owner hx u ((update_owner (by decide)).mp hu).2
  refine ⟨?_, iff_of_false (by rw [hx]; decide) fun hu => hu.elim hnone, fun u _ hu => absurd hu (hnone u),
    fun u hu => absurd (.inr hu) (hnone u)⟩
  rw [readers_enter (by rw [ht]; decide), ← h.count]
  exact toNat_succ hmax

theorem Coherent.rUnlock (h : Coherent x r) (ht : r t = .reader) :
    Coherent { x with readerCount := x.readerCount - 1 } (Function.update r t .away) := by
  have hpos : 0 < x.readerCount.toNat := by
    rw [h.count]
    exact Finset.card_pos.mpr ⟨t, mem_readers.mpr ht⟩
  have hown : ∀ u, (Function.update r t .away u = .drainer ∨ Function.update r t .away u = .writer) ↔
      (r u = .drainer ∨ r u = .writer) := by
    intro u
    rw [update_owner (by decide)]
    refine and_iff_right_of_imp ?_
    rintro hu rfl
    rw [ht] at hu
    exact absurd hu (by decide)
  refine ⟨?_, ?_, fun u v hu hv => h.unique u v ((hown u).mp hu) ((hown v).mp hv), fun u hu => ?_⟩
  · rw [readers_leave ht, ← h.count]
    exact toNat_pred hpos
  · simp only [hown]
    exact h.entered
  · have hne : u ≠ t := ((update_owner (by decide)).mp (.inr hu)).1
    rw [Function.update_of_ne hne] at hu
    rw [h.alone u hu] at hpos
    exact absurd hpos (Nat.lt_irrefl 0)

theorem Coherent.drain (h : Coherent x r) (ht : r t ≠ .reader)
    (hother : ∀ u, u ≠ t → ¬ (r u = .drainer ∨ r u = .writer))
    (hd : drain { x with writerEntered := true } = (x', sigs, e)) :
    Coherent x' (Function.update r t (role e.place.point)) := by
  unfold ReaderWriterLatch.drain at hd
  split at hd
  · cases hd
    exact h.own ht hother (.inl rfl) (fun ha => by cases ha)
  · next hpos =>
      cases hd
      exact h.own ht hother (.inr rfl) fun _ => zero_of_not_pos hpos

theorem Coherent.critical (h : Coherent x r) (ht : r t = role (.inr l)) (hd : critical l x = (x', sigs, e)) :
    Coherent x' (Function.update r t (role e.place.point)) := by
  have hstay : ∀ a, r t = a → Coherent x (Function.update r t a) := by
    rintro a rfl
    rwa [Function.update_eq_self]
  cases l with
  | wLock =>
      simp only [ReaderWriterLatch.critical] at hd
      split at hd
      · cases hd
        exact hstay _ ht
      · next hx => exact h.drain (by rw [ht]; decide) (fun u _ => h.no_owner (Bool.eq_false_iff.mpr hx) u) hd
  | wLockDrain =>
      have hx : x.writerEntered = true := h.entered.mpr ⟨t, .inl ht⟩
      have he : x = { x with writerEntered := true } := by rw [← hx]
      simp only [ReaderWriterLatch.critical] at hd
      rw [he] at hd
      exact h.drain (by rw [ht]; decide) (fun u hne hu => hne (h.unique u t hu (.inl ht))) hd
  | wUnlock =>
      cases hd
      exact h.wUnlock ht
  | rLock =>
      simp only [ReaderWriterLatch.critical] at hd
      split at hd
      · cases hd
        exact hstay _ ht
      · next hx =>
          cases hd
          obtain ⟨hx, hmax⟩ := not_or.mp hx
          exact h.rLock ht (Bool.eq_false_iff.mpr hx) hmax
  | rUnlock =>
      have hu := h.rUnlock ht
      simp only [ReaderWriterLatch.critical] at hd
      split at hd
      · cases hd
        exact hu
      · cases hd
        exact hu

theorem Coherent.step {s s' : Latch T} (h : Coherent s.shared (roles s)) (hs : Step methods s s') :
    Coherent s'.shared (roles s') := by
  cases hs with
  | @call t h' l hp hc =>
      have hr : roles ⟨s.shared, Function.update s.place t (.ready l)⟩ = roles s := by
        funext u
        by_cases hu : u = t
        · subst hu
          simpa [roles, State.point, hp, Place.point] using role_calls hc
        · simp [roles, State.point, hu]
      exact hr ▸ h
  | @spurious t c l hp =>
      have hr : roles ⟨s.shared, Function.update s.place t (.ready l)⟩ = roles s :=
        funext fun u => congrArg role (point_update u (by rw [hp]; rfl))
      exact hr ▸ h
  | @run t l x sigs e p hp hd hn =>
      have hr : roles ⟨x, Function.update p t e.place⟩ = Function.update (roles s) t (role e.place.point) := by
        funext u
        by_cases hu : u = t
        · simp [roles, State.point, hu]
        · simp [roles, State.point, hu, hn.point]
      rw [hr]
      exact h.critical (by rw [roles, State.point, hp]; rfl) hd

theorem coherent_of_reachable {s : Latch T} (h : Reachable methods start s) : Coherent s.shared (roles s) :=
  Reachable.invariant h coherent_start fun _ _ => Coherent.step

/-- A writer is alone with the latch. -/
theorem writer_excludes {s : Latch T} (h : Reachable methods start s) :
    s.shared.readerCount.toNat = (readers (roles s)).card ∧
      ∀ t, roles s t = .writer → ∀ u, roles s u = .writer ∨ roles s u = .reader → u = t := by
  have hc := coherent_of_reachable h
  refine ⟨hc.count, fun t ht u hu => ?_⟩
  rcases hu with hu | hu
  · exact hc.unique u t (.inr hu) (.inr ht)
  · have hzero : (readers (roles s)).card = 0 := by
      rw [← hc.count, hc.alone t ht]
      rfl
    exact absurd (mem_readers.mpr hu) (by rw [Finset.card_eq_zero.mp hzero]; exact Finset.notMem_empty u)

end exclusion

def pair (x : ReaderWriterLatch) (a b : Place Condition Point Held) : Latch (Fin 2) :=
  ⟨x, fun t => if t = 0 then a else b⟩

theorem reachable_handedOver : Reachable methods start (pair ⟨0, true⟩ (.outside .none) (.ready .wLockDrain)) := by
  have h₁ : Reachable methods start (pair ⟨0, false⟩ (.ready .rLock) (.outside .none)) :=
    Reachable.next .refl (.call (t := 0) rfl (.inr rfl)) rfl (by decide)
  have h₂ : Reachable methods start (pair ⟨1, false⟩ (.outside .read) (.outside .none)) :=
    h₁.next (.run (t := 0) rfl rfl .nil) rfl (by decide)
  have h₃ : Reachable methods start (pair ⟨1, false⟩ (.outside .read) (.ready .wLock)) :=
    h₂.next (.call (t := 1) rfl (.inl rfl)) rfl (by decide)
  have h₄ : Reachable methods start (pair ⟨1, true⟩ (.outside .read) (.asleep .writer .wLockDrain)) :=
    h₃.next (.run (t := 1) rfl rfl .nil) rfl (by decide)
  have h₅ : Reachable methods start (pair ⟨1, true⟩ (.ready .rUnlock) (.asleep .writer .wLockDrain)) :=
    h₄.next (.call (t := 0) rfl (show methods.calls .read .rUnlock from rfl)) rfl (by decide)
  exact h₅.next (.run (t := 0) rfl rfl (.one 1 rfl .nil)) rfl (by decide)

theorem reachable_writer : Reachable methods start (pair ⟨0, true⟩ (.outside .none) (.outside .write)) :=
  reachable_handedOver.next (.run (t := 1) rfl rfl .nil) rfl (by decide)

theorem writer_excludes_reader : roles (pair ⟨0, true⟩ (.outside .none) (.outside .write)) 0 ≠ .reader :=
  fun h => absurd ((writer_excludes reachable_writer).2 1 rfl 0 (.inr h)) (by decide)

section progress

variable {T : Type} {x x' : ReaderWriterLatch} {l : Point} {sigs : List (Signal Condition)}
    {e : Exit Condition Point Held}

def Reason (x : ReaderWriterLatch) : Condition → Prop
  | .reader => x.writerEntered = true
  | .writer => x.readerCount ≠ 0

def Waits : Condition → Point → Prop
  | .reader, l => l = .wLock ∨ l = .rLock
  | .writer, l => l = .wLockDrain

/-- A thread sleeps only for what has not happened yet. -/
def Awake (s : Latch T) : Prop := ∀ t c l, s.place t = .asleep c l → Reason s.shared c ∧ Waits c l

theorem Awake.ready {s : Latch T} (ha : Awake s) (hzero : s.shared.readerCount = 0) {u : T} {l : Point}
    (hu : s.point u = .inr l) (hidle : s.shared.writerEntered = true → l = .wLockDrain) : s.place u = .ready l := by
  unfold State.point at hu
  cases hp : s.place u with
  | outside k => rw [hp] at hu; cases hu
  | ready k => rw [hp] at hu; cases hu; rfl
  | asleep c k =>
      rw [hp] at hu
      cases hu
      obtain ⟨hx, hl⟩ := ha u c l hp
      cases c with
      | writer => exact absurd hzero hx
      | reader =>
          rw [hidle hx] at hl
          rcases hl with hl | hl <;> cases hl

theorem drain_wait {c : Condition} {l' : Point} (hd : drain x = (x', sigs, .wait c l')) : Reason x' c ∧ Waits c l' := by
  unfold drain at hd
  split at hd
  · next hpos =>
      cases hd
      exact ⟨fun h0 => absurd (h0 ▸ hpos) (by decide), rfl⟩
  · cases hd

theorem asleep_critical {c : Condition} {l' : Point} (hmax : x.readerCount ≠ maxReaders)
    (hd : ReaderWriterLatch.critical l x = (x', sigs, .wait c l')) : Reason x' c ∧ Waits c l' := by
  cases l with
  | wLock =>
      simp only [ReaderWriterLatch.critical] at hd
      split at hd
      · next hx =>
          cases hd
          exact ⟨hx, .inl rfl⟩
      · exact drain_wait hd
  | wLockDrain => exact drain_wait hd
  | wUnlock => cases hd
  | rLock =>
      simp only [ReaderWriterLatch.critical] at hd
      split at hd
      · next hx =>
          cases hd
          exact ⟨hx.resolve_right hmax, .inr rfl⟩
      · cases hd
  | rUnlock =>
      simp only [ReaderWriterLatch.critical] at hd
      split at hd <;> cases hd

theorem drain_shared (hd : drain x = (x', sigs, e)) : x' = x := by
  unfold drain at hd
  split at hd <;> (cases hd; rfl)

variable [DecidableEq T] [Fintype T] {t : T}

theorem Coherent.wakes {s : Latch T} {p : T → Place Condition Point Held} (h : Coherent s.shared (roles s))
    (ha : Awake s) (hd : ReaderWriterLatch.critical l s.shared = (x', sigs, e)) (hn : Notified sigs s.place p)
    {u : T} {c : Condition} {l' : Point} (hu : p u = .asleep c l') : Reason x' c := by
  have hu' := hn.asleep hu
  have hwhy := (ha u c l' hu').1
  have hdrainer : ∀ v l, s.place v = .asleep .writer l → roles s v = .drainer ∨ roles s v = .writer := by
    intro v l hv
    have hl : l = .wLockDrain := (ha v .writer l hv).2
    rw [roles, State.point, hv, hl]
    exact .inl rfl
  -- While a thread sleeps, a writer has entered.
  have hx : s.shared.writerEntered = true := by
    cases c with
    | reader => exact hwhy
    | writer => exact h.entered.mpr ⟨u, hdrainer u l' hu'⟩
  cases l with
  | wLock =>
      rw [ReaderWriterLatch.critical, if_pos hx] at hd
      cases hd
      exact hwhy
  | wLockDrain => exact (drain_shared hd).symm ▸ hwhy
  | wUnlock =>
      cases hd
      cases c with
      | reader => exact absurd hu hn.all_awake
      | writer => exact hwhy
  | rLock =>
      rw [ReaderWriterLatch.critical, if_pos (.inl hx)] at hd
      cases hd
      exact hwhy
  | rUnlock =>
      rw [ReaderWriterLatch.critical, if_pos (show _ = true from hx)] at hd
      cases hd
      cases c with
      | reader => exact hx
      | writer =>
          -- The last reader leaves, and the thread that drains is the only one to notify.
          intro hlast
          rw [if_pos hlast] at hn
          exact hn.one_awake hu' (fun v l hv => h.unique v u (hdrainer v l hv) (hdrainer u l' hu')) hu

theorem Awake.step {s s' : Latch T} (hT : Fintype.card T < maxReaders.toNat) (h : Coherent s.shared (roles s))
    (ha : Awake s) (hs : Step methods s s') : Awake s' := by
  have hkeep : ∀ {t : T} {l : Point}, Awake ⟨s.shared, Function.update s.place t (.ready l)⟩ := by
    intro t l u c l' hu
    have hne : u ≠ t := by
      rintro rfl
      cases (Function.update_self ..).symm.trans hu
    exact ha u c l' ((Function.update_of_ne hne ..).symm.trans hu)
  cases hs with
  | call _ _ => exact hkeep
  | spurious _ => exact hkeep
  | @run t l x sigs e p hp hd hn =>
      intro u c l' hu
      change Function.update p t e.place u = .asleep c l' at hu
      by_cases hut : u = t
      · rw [hut, Function.update_self] at hu
        cases e with
        | wait d k =>
            cases hu
            exact asleep_critical (h.count_ne_max hT) hd
        | ret k => cases hu
      · rw [Function.update_of_ne hut] at hu
        exact ⟨h.wakes ha hd hn hu, (ha u c l' (hn.asleep hu)).2⟩

theorem awake_of_reachable {s : Latch T} (hT : Fintype.card T < maxReaders.toNat) (h : Reachable methods start s) :
    Awake s :=
  (Reachable.invariant (I := fun s => Coherent s.shared (roles s) ∧ Awake s) h
    ⟨coherent_start, fun _ _ _ ht => (by cases ht)⟩ fun _ _ hi hs => ⟨hi.1.step hs, hi.2.step hT hi.1 hs⟩).2

/-- If no thread holds the latch, a thread that waits for it is about to get it: no wakeup is
lost. -/
theorem pending_enters {s : Latch T} (hT : Fintype.card T < maxReaders.toNat) (h : Reachable methods start s)
    (hfree : ∀ t, roles s t ≠ .writer ∧ roles s t ≠ .reader) {u : T} {l : Point} (hu : s.point u = .inr l) :
    ∃ t l x k, s.place t = .ready l ∧ ReaderWriterLatch.critical l s.shared = (x, [], .ret k) ∧ k ≠ .none := by
  have hc := coherent_of_reachable h
  have ha := awake_of_reachable hT h
  have hzero : s.shared.readerCount = 0 := by
    refine UInt32.toNat_inj.mp
      (hc.count.trans (Finset.card_eq_zero.mpr (Finset.eq_empty_iff_forall_notMem.mpr fun t ht => ?_)))
    exact (hfree t).2 (mem_readers.mp ht)
  have hdrain : ∀ y : ReaderWriterLatch, y.readerCount = 0 → drain y = (y, [], .ret .write) := by
    intro y hy
    rw [drain, if_neg (by rw [hy]; decide)]
  cases hx : s.shared.writerEntered with
  | true =>
      obtain ⟨t, ht⟩ := hc.entered.mp hx
      have ht : role (s.point t) = .drainer := ht.resolve_right (hfree t).1
      have hpoint : s.point t = .inr .wLockDrain := by
        generalize s.point t = k at ht
        rcases k with (_ | _ | _) | (_ | _ | _ | _ | _) <;> first | rfl | cases ht
      exact ⟨t, .wLockDrain, s.shared, .write, ha.ready hzero hpoint fun _ => rfl, hdrain _ hzero, by decide⟩
  | false =>
      have hready := ha.ready hzero hu (fun he => absurd (hx.symm.trans he) Bool.false_ne_true)
      have hrole : role (.inr l) = roles s u := congrArg role hu.symm
      cases l with
      | wLock =>
          refine ⟨u, .wLock, { s.shared with writerEntered := true }, .write, hready, ?_, by decide⟩
          rw [ReaderWriterLatch.critical, if_neg (by rw [hx]; decide)]
          exact hdrain _ hzero
      | wLockDrain => exact absurd (.inl hrole.symm) (hc.no_owner hx u)
      | wUnlock => exact absurd hrole.symm (hfree u).1
      | rLock =>
          refine ⟨u, .rLock, { s.shared with readerCount := s.shared.readerCount + 1 }, .read, hready, ?_, by decide⟩
          rw [ReaderWriterLatch.critical, if_neg (by rw [hx, hzero]; decide)]
      | rUnlock => exact absurd hrole.symm (hfree u).2

end progress

theorem pending_enters_handedOver :
    ∃ t l x k, (pair ⟨0, true⟩ (.outside .none) (.ready .wLockDrain)).place t = .ready l ∧
      ReaderWriterLatch.critical l ⟨0, true⟩ = (x, [], .ret k) ∧ k ≠ .none :=
  pending_enters (by decide) reachable_handedOver (by decide) (u := 1) rfl

end ReaderWriterLatch

end DBPlayground.Base
