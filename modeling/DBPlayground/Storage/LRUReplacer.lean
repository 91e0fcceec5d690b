import Mathlib.Data.Fintype.Card
import Mathlib.Data.Finset.Dedup
import Mathlib.Data.List.Nodup

namespace DBPlayground.Storage

/-- The replacer's two lists of frames. Each of its iterator maps holds the
frames of one list, so that a look-up in a map is membership in the list. -/
structure LRUReplacer (F : Type) (numPages : Nat) where
  pinned : List F
  unpinned : List F
  nodup : (pinned ++ unpinned).Nodup

namespace LRUReplacer

variable {F : Type} {n : Nat} {r s : LRUReplacer F n} {f g : F}

def new (n : Nat) : LRUReplacer F n := ⟨[], [], List.nodup_nil⟩

theorem nodup_pinned (r : LRUReplacer F n) : r.pinned.Nodup := (List.nodup_append.mp r.nodup).1

theorem nodup_unpinned (r : LRUReplacer F n) : r.unpinned.Nodup := (List.nodup_append.mp r.nodup).2.1

theorem nodup_of_cons {rest : List F} (h : r.unpinned = f :: rest) : (r.pinned ++ rest).Nodup := by
  have hn := r.nodup
  rw [h] at hn
  exact hn.sublist ((List.sublist_cons_self f rest).append_left _)

def victim (r : LRUReplacer F n) : Option (F × LRUReplacer F n) :=
  match h : r.unpinned with
  | [] => none
  | f :: rest => some (f, ⟨r.pinned, rest, nodup_of_cons h⟩)

theorem victim_eq_some (h : r.victim = some (f, s)) : r.unpinned = f :: s.unpinned := by
  unfold victim at h
  split at h
  · cases h
  · next hr =>
      cases h
      exact hr

theorem victim_eq_none : r.victim = none ↔ r.unpinned = [] := by
  unfold victim
  split
  · next hr => simp [hr]
  · next hr => simp [hr]

variable [DecidableEq F]

theorem nodup_pin (r : LRUReplacer F n) (h : f ∈ r.unpinned) : (r.pinned ++ [f] ++ r.unpinned.erase f).Nodup := by
  rw [List.append_assoc]
  exact ((List.perm_cons_erase h).append_left r.pinned).nodup_iff.mp r.nodup

theorem nodup_erase (r : LRUReplacer F n) (f : F) : (r.pinned.erase f ++ r.unpinned).Nodup :=
  r.nodup.sublist ((List.erase_sublist).append_right _)

theorem nodup_unpin (r : LRUReplacer F n) (h : f ∉ r.unpinned) :
    (r.pinned.erase f ++ (r.unpinned ++ [f])).Nodup := by
  rw [← List.append_assoc]
  refine List.nodup_append.mpr ⟨r.nodup_erase f, List.nodup_singleton f, ?_⟩
  intro a ha b hb hab
  rw [List.mem_singleton.mp hb] at hab
  subst hab
  rcases List.mem_append.mp ha with ha | ha
  · exact (r.nodup_pinned.mem_erase_iff.mp ha).1 rfl
  · exact h ha

def pin (r : LRUReplacer F n) (f : F) : LRUReplacer F n :=
  if h : f ∈ r.unpinned then ⟨r.pinned ++ [f], r.unpinned.erase f, r.nodup_pin h⟩ else r

def unpin (r : LRUReplacer F n) (f : F) : LRUReplacer F n :=
  if h : f ∈ r.unpinned ∨ n ≤ r.unpinned.length then ⟨r.pinned.erase f, r.unpinned, r.nodup_erase f⟩
  else ⟨r.pinned.erase f, r.unpinned ++ [f], r.nodup_unpin fun hf => h (.inl hf)⟩

def size (r : LRUReplacer F n) : Nat := r.unpinned.length

@[simp] theorem mem_pin : g ∈ (r.pin f).unpinned ↔ g ≠ f ∧ g ∈ r.unpinned := by
  unfold pin
  split
  · exact r.nodup_unpinned.mem_erase_iff
  · next h =>
      refine ⟨fun hg => ⟨?_, hg⟩, And.right⟩
      rintro rfl
      exact h hg

theorem unpinned_unpin : (r.unpin f).unpinned =
    if f ∈ r.unpinned ∨ n ≤ r.unpinned.length then r.unpinned else r.unpinned ++ [f] := by
  unfold unpin
  split
  · rfl
  · rfl

section Pool

variable {r : LRUReplacer (Fin n) n} {f g : Fin n}

theorem length_lt_of_not_mem (h : f ∉ r.unpinned) : r.unpinned.length < n := by
  have hle := (List.nodup_cons.mpr ⟨h, r.nodup_unpinned⟩).length_le_card
  rw [Fintype.card_fin, List.length_cons] at hle
  exact hle

/-- A replacer for as many frames as the pool has is never full. -/
@[simp] theorem mem_unpin : g ∈ (r.unpin f).unpinned ↔ g = f ∨ g ∈ r.unpinned := by
  rw [unpinned_unpin]
  split
  · next h =>
      have hf : f ∈ r.unpinned := by
        by_contra hf
        have := length_lt_of_not_mem hf
        rcases h with h | h
        · exact hf h
        · omega
      refine ⟨.inr, ?_⟩
      rintro (rfl | hg)
      · exact hf
      · exact hg
  · simp [or_comm]

end Pool

inductive Call (F : Type)
  | pin (f : F)
  | unpin (f : F)
  | victim

/-- A call that has returned, with the answer of `Victim`. -/
inductive Event (F : Type)
  | pin (f : F)
  | unpin (f : F)
  | victim (answer : Option F)

def serve (x : LRUReplacer F n × List (Event F)) : Call F → LRUReplacer F n × List (Event F)
  | .pin f => (x.1.pin f, .pin f :: x.2)
  | .unpin f => (x.1.unpin f, .unpin f :: x.2)
  | .victim =>
    match x.1.victim with
    | none => (x.1, .victim none :: x.2)
    | some (f, r) => (r, .victim (some f) :: x.2)

def run (n : Nat) (calls : List (Call F)) : LRUReplacer F n × List (Event F) := calls.foldl serve (.new n, [])

/-- The frames that a history (its last event first) leaves evictable: those
unpinned, while there was room for one more, and neither pinned nor taken since. -/
def evictable (n : Nat) : List (Event F) → Finset F
  | [] => ∅
  | .pin f :: h => (evictable n h).erase f
  | .unpin f :: h => if (evictable n h).card < n then insert f (evictable n h) else evictable n h
  | .victim none :: h => evictable n h
  | .victim (some f) :: h => (evictable n h).erase f

/-- For how many calls the frame has been evictable without a break. -/
def age (n : Nat) : List (Event F) → F → Nat
  | [], _ => 0
  | e :: h, f => if f ∈ evictable n (e :: h) then age n h f + 1 else 0

variable {h : List (Event F)} {e : Event F}

theorem age_of_mem (hf : f ∈ evictable n (e :: h)) : age n (e :: h) f = age n h f + 1 := if_pos hf

theorem age_pos_iff : 0 < age n h f ↔ f ∈ evictable n h := by
  cases h with
  | nil => exact ⟨fun hf => absurd hf (Nat.lt_irrefl 0), fun hf => absurd hf (Finset.notMem_empty f)⟩
  | cons e h =>
      rw [age]
      split
      · next hf => exact ⟨fun _ => hf, fun _ => Nat.succ_pos _⟩
      · next hf => exact ⟨fun h0 => absurd h0 (Nat.lt_irrefl 0), fun h1 => absurd h1 hf⟩

/-- The unpinned list holds the evictable frames, the oldest first. -/
structure Follows (r : LRUReplacer F n) (h : List (Event F)) : Prop where
  holds : r.unpinned.toFinset = evictable n h
  sorted : r.unpinned.Pairwise fun f g => age n h g < age n h f

namespace Follows

theorem mem_iff (hr : Follows r h) : f ∈ r.unpinned ↔ f ∈ evictable n h := by
  rw [← hr.holds, List.mem_toFinset]

theorem card_eq (hr : Follows r h) : (evictable n h).card = r.unpinned.length := by
  rw [← hr.holds, List.toFinset_card_of_nodup r.nodup_unpinned]

/-- A call that adds no frame makes all that remain one call older. -/
theorem sublist (hr : Follows r h) (hsub : s.unpinned.Sublist r.unpinned)
    (hs : s.unpinned.toFinset = evictable n (e :: h)) : Follows s (e :: h) := by
  refine ⟨hs, (hr.sorted.sublist hsub).imp_of_mem fun {a b} ha hb hlt => ?_⟩
  rw [← List.mem_toFinset, hs] at ha hb
  rw [age_of_mem ha, age_of_mem hb]
  exact Nat.succ_lt_succ hlt

theorem pin (hr : Follows r h) (f : F) : Follows (r.pin f) (.pin f :: h) := by
  refine hr.sublist ?_ ?_
  · unfold LRUReplacer.pin
    split
    · exact List.erase_sublist
    · exact List.Sublist.refl _
  · ext g
    rw [List.mem_toFinset, mem_pin, evictable, Finset.mem_erase, hr.mem_iff]

theorem push (hr : Follows r h) (hf : f ∉ r.unpinned) (hroom : r.unpinned.length < n)
    (hs : s.unpinned = r.unpinned ++ [f]) : Follows s (.unpin f :: h) := by
  have hev : evictable n (.unpin f :: h) = insert f (evictable n h) := if_pos (hr.card_eq ▸ hroom)
  have hold : ∀ {g}, g ∈ r.unpinned → 0 < age n h g ∧ age n (.unpin f :: h) g = age n h g + 1 := by
    intro g hg
    rw [hr.mem_iff] at hg
    exact ⟨age_pos_iff.mpr hg, age_of_mem (hev ▸ Finset.mem_insert_of_mem hg)⟩
  have hnew : age n (.unpin f :: h) f = 1 := by
    have h0 : age n h f = 0 := Nat.eq_zero_of_not_pos fun h0 => hf (hr.mem_iff.mpr (age_pos_iff.mp h0))
    rw [age_of_mem (hev ▸ Finset.mem_insert_self ..), h0]
  refine ⟨?_, ?_⟩
  · rw [hs, hev, ← hr.holds]
    ext g
    simp
  · rw [hs]
    refine List.pairwise_append.mpr ⟨hr.sorted.imp_of_mem fun ha hb hlt => ?_, List.pairwise_singleton _ _,
      fun a ha b hb => ?_⟩
    · rw [(hold ha).2, (hold hb).2]
      exact Nat.succ_lt_succ hlt
    · rw [List.mem_singleton.mp hb, hnew, (hold ha).2]
      exact Nat.succ_lt_succ (hold ha).1

theorem unpin (hr : Follows r h) (f : F) : Follows (r.unpin f) (.unpin f :: h) := by
  by_cases hf : f ∈ r.unpinned ∨ n ≤ r.unpinned.length
  · have hu : (r.unpin f).unpinned = r.unpinned := by rw [unpinned_unpin, if_pos hf]
    refine hr.sublist (hu ▸ List.Sublist.refl _) ?_
    rw [hu, hr.holds, evictable, hr.card_eq]
    split
    · next hroom =>
        have hmem := hr.mem_iff.mp (hf.resolve_right (Nat.not_le.mpr hroom))
        exact (Finset.insert_eq_of_mem hmem).symm
    · rfl
  · rw [not_or, Nat.not_le] at hf
    refine hr.push hf.1 hf.2 ?_
    rw [unpinned_unpin, if_neg (not_or.mpr ⟨hf.1, Nat.not_le.mpr hf.2⟩)]

theorem victim_some (hr : Follows r h) (hv : r.victim = some (f, s)) : Follows s (.victim (some f) :: h) := by
  have hu := victim_eq_some hv
  have hn := r.nodup_unpinned
  rw [hu, List.nodup_cons] at hn
  refine hr.sublist (hu ▸ List.sublist_cons_self ..) ?_
  rw [evictable, ← hr.holds, hu, List.toFinset_cons, Finset.erase_insert (mt List.mem_toFinset.mp hn.1)]

theorem serve {x : LRUReplacer F n × List (Event F)} (hx : Follows x.1 x.2) (c : Call F) :
    Follows (serve x c).1 (serve x c).2 := by
  cases c with
  | pin f => exact hx.pin f
  | unpin f => exact hx.unpin f
  | victim =>
      rw [LRUReplacer.serve]
      cases hv : x.1.victim with
      | none => exact hx.sublist (List.Sublist.refl _) hx.holds
      | some y => exact hx.victim_some hv

end Follows

theorem follows_run (calls : List (Call F)) : Follows (run n calls).1 (run n calls).2 := by
  induction calls using List.reverseRecOn with
  | nil => exact ⟨rfl, .nil⟩
  | append_singleton calls c ih =>
      rw [run, List.foldl_concat]
      exact ih.serve c

/-- After every sequence of calls `Size` counts the evictable frames, `Victim`
takes a frame if there is one, and takes the one that has been evictable for the
longest time. -/
theorem victim_longest (n : Nat) (calls : List (Call F)) :
    (run n calls).1.size = (evictable n (run n calls).2).card ∧
      ((run n calls).1.victim = none ↔ evictable n (run n calls).2 = ∅) ∧
      ∀ f s, (run n calls).1.victim = some (f, s) → f ∈ evictable n (run n calls).2 ∧
        ∀ g ∈ evictable n (run n calls).2, g ≠ f → age n (run n calls).2 g < age n (run n calls).2 f := by
  have hr := follows_run (n := n) calls
  refine ⟨hr.card_eq.symm, ?_, fun f s hv => ?_⟩
  · rw [victim_eq_none, ← hr.holds, List.toFinset_eq_empty_iff]
  · have hu := victim_eq_some hv
    have hsorted := hr.sorted
    rw [hu] at hsorted
    refine ⟨hr.mem_iff.mp (hu ▸ List.mem_cons_self), fun g hg hne => ?_⟩
    rw [← hr.mem_iff, hu, List.mem_cons] at hg
    exact (List.pairwise_cons.mp hsorted).1 g (hg.resolve_left hne)

/-- The frame unpinned a second time is still the older one, the one pinned again
is not evictable, and the last one found no room. -/
theorem victim_longest_full :
    let h := (run 2 [.unpin 3, .unpin 1, .unpin 0, .unpin 1, .pin 3, .unpin 5, .unpin 7] : _ × List (Event Nat)).2
    evictable 2 h = {1, 5} ∧ age 2 h 5 < age 2 h 1 :=
  ⟨by decide, ((victim_longest 2 [.unpin 3, .unpin 1, .unpin 0, .unpin 1, .pin 3, .unpin 5, .unpin 7]).2.2 1
    _ rfl).2 5 (by decide) (by decide)⟩

end LRUReplacer

end DBPlayground.Storage
