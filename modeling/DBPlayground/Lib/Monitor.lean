import Mathlib.Logic.Function.Basic
import Mathlib.Logic.Relation

namespace DBPlayground.Monitor

inductive Signal (C : Type)
  | one (c : C)
  | all (c : C)

/-- How a thread gives the mutex back: it waits, to go on at a point, or its call returns. -/
inductive Exit (C L H : Type)
  | wait (c : C) (l : L)
  | ret (h : H)

/-- A thread is in no call and has what its last call returned, or it is about to take the
mutex, or it sleeps. -/
inductive Place (C L H : Type)
  | outside (h : H)
  | ready (l : L)
  | asleep (c : C) (l : L)
  deriving DecidableEq

/-- Methods that hold one mutex from a point up to the next wait or the return, and the
calls that a client may make. -/
structure Methods (C S L H : Type) where
  calls : H → L → Prop
  critical : L → S → S × List (Signal C) × Exit C L H

@[ext]
structure State (T C S L H : Type) where
  shared : S
  place : T → Place C L H

variable {T C S L H : Type}

def Exit.place : Exit C L H → Place C L H
  | .wait c l => .asleep c l
  | .ret h => .outside h

def Place.point : Place C L H → H ⊕ L
  | .outside h => .inl h
  | .ready l => .inr l
  | .asleep _ l => .inr l

def State.point (s : State T C S L H) (t : T) : H ⊕ L := (s.place t).point

section wake

variable [DecidableEq C] {c : C} {l : L} {p : T → Place C L H}

def wakeAll (c : C) (p : T → Place C L H) (t : T) : Place C L H :=
  match p t with
  | .outside h => .outside h
  | .ready l => .ready l
  | .asleep d l => if d = c then .ready l else .asleep d l

theorem point_wakeAll (t : T) : (wakeAll c p t).point = (p t).point := by
  unfold wakeAll
  cases p t with
  | outside h => rfl
  | ready l => rfl
  | asleep d l =>
      show (if d = c then Place.ready l else .asleep d l).point = _
      split <;> rfl

theorem wakeAll_asleep {t : T} {d : C} (h : wakeAll c p t = .asleep d l) : p t = .asleep d l ∧ d ≠ c := by
  unfold wakeAll at h
  cases hp : p t with
  | outside h' => rw [hp] at h; cases h
  | ready l' => rw [hp] at h; cases h
  | asleep e l' =>
      rw [hp] at h
      simp only at h
      split at h
      · cases h
      · next hne =>
          cases h
          exact ⟨rfl, hne⟩

end wake

variable [DecidableEq T]

theorem point_update {p : T → Place C L H} {t : T} {x : Place C L H} (u : T) (h : x.point = (p t).point) :
    (Function.update p t x u).point = (p u).point := by
  by_cases hu : u = t
  · rw [hu, Function.update_self, h]
  · rw [Function.update_of_ne hu]

variable [DecidableEq C]

/-- The sleepers that notifications wake, in any choice of `notify_one`. -/
inductive Notified : List (Signal C) → (T → Place C L H) → (T → Place C L H) → Prop
  | nil {p} : Notified [] p p
  | all {c sigs p q} (rest : Notified sigs (wakeAll c p) q) : Notified (.all c :: sigs) p q
  | one {c l sigs p q} (t : T) (sleeps : p t = .asleep c l) (rest : Notified sigs (Function.update p t (.ready l)) q) :
      Notified (.one c :: sigs) p q
  | lost {c sigs p q} (awake : ∀ t l, p t ≠ .asleep c l) (rest : Notified sigs p q) : Notified (.one c :: sigs) p q

variable {c : C} {l : L} {sigs : List (Signal C)} {p q : T → Place C L H}

theorem Notified.point (h : Notified sigs p q) (t : T) : (q t).point = (p t).point := by
  induction h with
  | nil => rfl
  | all _ ih => exact ih.trans (point_wakeAll t)
  | one u hu _ ih => exact ih.trans (point_update t (by rw [hu]; rfl))
  | lost _ _ ih => exact ih

theorem Notified.asleep {t : T} (h : Notified sigs p q) (ht : q t = .asleep c l) : p t = .asleep c l := by
  induction h with
  | nil => exact ht
  | all _ ih => exact (wakeAll_asleep (ih ht)).1
  | one u hu _ ih =>
      have hne : t ≠ u := by
        rintro rfl
        cases (Function.update_self ..).symm.trans (ih ht)
      exact (Function.update_of_ne hne ..).symm.trans (ih ht)
  | lost _ _ ih => exact ih ht

theorem Notified.all_awake {t : T} (h : Notified [.all c] p q) : q t ≠ .asleep c l := by
  cases h with
  | all rest => exact fun ht => (wakeAll_asleep (rest.asleep ht)).2 rfl

theorem Notified.one_awake {t u : T} {l' : L} (h : Notified [.one c] p q) (ht : p t = .asleep c l)
    (hone : ∀ u l, p u = .asleep c l → u = t) : q u ≠ .asleep c l' := by
  cases h with
  | one v hv rest =>
      cases rest
      obtain rfl := hone v _ hv
      intro hu
      by_cases huv : u = v
      · subst huv
        cases (Function.update_self ..).symm.trans hu
      · rw [Function.update_of_ne huv] at hu
        exact huv (hone u _ hu)
  | lost awake _ => exact absurd ht (awake t l)

/-- One thread begins a call, wakes up without a notification, or takes the mutex. -/
inductive Step (M : Methods C S L H) : State T C S L H → State T C S L H → Prop
  | call {s : State T C S L H} {t h l} (away : s.place t = .outside h) (allowed : M.calls h l) :
      Step M s ⟨s.shared, Function.update s.place t (.ready l)⟩
  | spurious {s : State T C S L H} {t c l} (sleeps : s.place t = .asleep c l) :
      Step M s ⟨s.shared, Function.update s.place t (.ready l)⟩
  | run {s : State T C S L H} {t l x sigs e p} (stands : s.place t = .ready l)
      (does : M.critical l s.shared = (x, sigs, e)) (wakes : Notified sigs s.place p) :
      Step M s ⟨x, Function.update p t e.place⟩

def Reachable (M : Methods C S L H) (s₀ s : State T C S L H) : Prop := Relation.ReflTransGen (Step M) s₀ s

theorem Reachable.next {M : Methods C S L H} {s₀ s s' u : State T C S L H} (h : Reachable M s₀ s) (hs : Step M s s')
    (hshared : s'.shared = u.shared) (hplace : ∀ t, s'.place t = u.place t) : Reachable M s₀ u := by
  obtain rfl : s' = u := State.ext hshared (funext hplace)
  exact h.tail hs

theorem Reachable.invariant {M : Methods C S L H} {I : State T C S L H → Prop} {s₀ s : State T C S L H}
    (h : Reachable M s₀ s) (h₀ : I s₀) (hI : ∀ s s', I s → Step M s s' → I s') : I s := by
  induction h with
  | refl => exact h₀
  | tail _ hstep ih => exact hI _ _ ih hstep

end DBPlayground.Monitor
