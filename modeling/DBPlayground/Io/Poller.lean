import DBPlayground.Lib.SwapRemove
import Mathlib.Algebra.Group.Nat.Defs
import Mathlib.Data.List.AList
import Mathlib.Data.Set.Insert

namespace DBPlayground.Io

open SwapRemove

structure Channel where
  fd : Int
  events : Int
  revents : Int
  index : Int

def kNoneEvent : Int := 0

def Channel.new (fd : Int) : Channel := ⟨fd, kNoneEvent, 0, -1⟩

/-- `struct pollfd`. -/
structure PollFd where
  fd : Int
  events : Int
  revents : Int

/-- `static_cast<short>`. -/
def short (x : Int) : Int := x.bmod (2 ^ 16)

/-- How a call may fail: an assertion does not hold, or an access goes outside of
`pollfds_` or through a null pointer. -/
inductive Failure
  | assertion (message : String)
  | undefined
  deriving DecidableEq

/-- A poller and the channel objects, which are named by their addresses. -/
structure Poller (C : Type) where
  pollfds : List PollFd
  channels : AList fun _ : Int => C
  objects : C → Channel

namespace Poller

variable {C : Type}

section calls

variable [DecidableEq C]

def new (fd : C → Int) : Poller C := ⟨[], ∅, fun c => .new (fd c)⟩

def setIndexInPoller (objects : C → Channel) (c : C) (index : Int) : C → Channel :=
  Function.update objects c { objects c with index := index }

@[simp] theorem fd_setIndexInPoller (objects : C → Channel) (c b : C) (i : Int) :
    (setIndexInPoller objects c i b).fd = (objects b).fd := by
  by_cases hb : b = c
  · subst hb
    simp [setIndexInPoller]
  · simp [setIndexInPoller, hb]

@[simp] theorem index_setIndexInPoller (objects : C → Channel) (c b : C) (i : Int) :
    (setIndexInPoller objects c i b).index = if b = c then i else (objects b).index := by
  by_cases hb : b = c
  · subst hb
    simp [setIndexInPoller]
  · simp [setIndexInPoller, hb]

def updateChannel (s : Poller C) (c : C) : Except Failure (Poller C) :=
  let channel := s.objects c
  if channel.index < 0 then
    if s.channels.lookup channel.fd = none then
      let pollfds := s.pollfds ++ [⟨channel.fd, short channel.events, 0⟩]
      .ok {
        pollfds := pollfds
        channels := s.channels.insert channel.fd c
        objects := setIndexInPoller s.objects c (pollfds.length - 1) }
    else .error (.assertion "Poller: fd already registered")
  else if s.channels.lookup channel.fd ≠ none then
    if channel.index.toNat < s.pollfds.length then
      let fd := if channel.events = kNoneEvent then -channel.fd - 1 else channel.fd
      .ok { s with pollfds := s.pollfds.set channel.index.toNat ⟨fd, short channel.events, 0⟩ }
    else .error .undefined
  else .error (.assertion "Poller: updating unregistered fd")

def removeChannel (s : Poller C) (c : C) : Except Failure (Poller C) :=
  let channel := s.objects c
  if s.channels.lookup channel.fd ≠ none then
    let channels := s.channels.erase channel.fd
    match s.pollfds.getLast? with
    | none => .error .undefined
    | some back =>
      if channel.index = s.pollfds.length - 1 then
        .ok ⟨s.pollfds.dropLast, channels, setIndexInPoller s.objects c (-1)⟩
      else if 0 ≤ channel.index ∧ channel.index < s.pollfds.length then
        let fdAtEnd := if back.fd < 0 then -back.fd - 1 else back.fd
        match channels.lookup fdAtEnd with
        | none => .error .undefined
        | some moved =>
          .ok ⟨(s.pollfds.set channel.index.toNat back).dropLast, channels,
            setIndexInPoller (setIndexInPoller s.objects moved channel.index) c (-1)⟩
      else .error .undefined
  else .error (.assertion "Poller: removing unregistered fd")

def hasChannel (s : Poller C) (c : C) : Bool := s.channels.lookup (s.objects c).fd = some c

def fillActiveChannels (channels : AList fun _ : Int => C) :
    List PollFd → Int → (C → Channel) → Except Failure ((C → Channel) × List C)
  | [], _, objects => .ok (objects, [])
  | pfd :: rest, numEvents, objects =>
    if numEvents ≤ 0 then .ok (objects, [])
    else if 0 < pfd.revents then
      match channels.lookup pfd.fd with
      | none => .error (.assertion "Poller: revents for unknown fd")
      | some c => do
        let (objects, active) ← fillActiveChannels channels rest (numEvents - 1)
          (Function.update objects c { objects c with revents := pfd.revents })
        pure (objects, c :: active)
    else fillActiveChannels channels rest numEvents objects

/-- What `::poll` may make of the slots: it ignores those with a negative fd. -/
def Polled : List PollFd → List PollFd → Prop :=
  List.Forall₂ fun before after => after.fd = before.fd ∧ (before.fd < 0 → after.revents = 0)

/-- The calls that a client makes: a channel's mask is set and pushed down, or the
channel is removed. -/
inductive Call (C : Type)
  | update (c : C) (events : Int)
  | remove (c : C)

def call (s : Poller C) : Call C → Except Failure (Poller C)
  | .update c events =>
    updateChannel { s with objects := Function.update s.objects c { s.objects c with events := events } } c
  | .remove c => removeChannel s c

def run (s : Poller C) : List (Call C) → Except Failure (Poller C)
  | [] => .ok s
  | x :: rest => do
    let s ← s.call x
    run s rest

def register (registered : Set C) : Call C → Set C
  | .update c _ => insert c registered
  | .remove c => registered \ {c}

def Proper : Set C → List (Call C) → Prop
  | _, [] => True
  | registered, .update c events :: rest => Proper (register registered (.update c events)) rest
  | registered, .remove c :: rest => c ∈ registered ∧ Proper (register registered (.remove c)) rest

end calls

def Watches (fd : Int) (pfd : PollFd) : Prop := pfd.fd = fd ∨ pfd.fd = -fd - 1

/-- The poller has these channels in its slots, in this order. -/
structure Tracks (fd : C → Int) (s : Poller C) (order : List C) : Prop where
  nodup : order.Nodup
  fds : ∀ c, (s.objects c).fd = fd c
  slots : List.Forall₂ (fun c pfd => Watches (fd c) pfd) order s.pollfds
  index : ∀ {i : Nat} {c : C}, order[i]? = some c → (s.objects c).index = i
  unregistered : ∀ {c}, c ∉ order → (s.objects c).index = -1
  lookup : ∀ {x c}, s.channels.lookup x = some c ↔ c ∈ order ∧ fd c = x

variable {fd : C → Int} {s : Poller C} {order : List C} {c : C}

theorem tracks_new : Tracks fd (new fd : Poller C) [] where
  nodup := List.nodup_nil
  fds _ := rfl
  slots := .nil
  index := nofun
  unregistered _ := rfl
  lookup := by simp [new]

theorem Watches.undo {x : Int} {pfd : PollFd} (hw : Watches x pfd) (hx : 0 ≤ x) :
    (if pfd.fd < 0 then -pfd.fd - 1 else pfd.fd) = x := by
  rcases hw with h | h
  · rw [h, if_neg (Int.not_lt.mpr hx)]
  · rw [h, if_pos (by omega)]
    omega

namespace Tracks

theorem lookup_self (ht : Tracks fd s order) (hc : c ∈ order) : s.channels.lookup (s.objects c).fd = some c := by
  rw [ht.fds]
  exact ht.lookup.mpr ⟨hc, rfl⟩

theorem length_eq (ht : Tracks fd s order) : order.length = s.pollfds.length := ht.slots.length_eq

theorem last_slot {m : List C} {a : C} (ht : Tracks fd s (m ++ [a])) : ∃ ps p, s.pollfds = ps ++ [p] ∧ ps.length = m.length ∧
    List.Forall₂ (fun c pfd => Watches (fd c) pfd) m ps ∧ Watches (fd a) p := by
  have hlen := ht.length_eq
  rw [List.length_append, List.length_singleton] at hlen
  obtain ⟨ps, p, hps⟩ : ∃ ps p, s.pollfds = ps ++ [p] :=
    ⟨_, _, (List.dropLast_append_getLast (List.ne_nil_of_length_pos (by omega))).symm⟩
  rw [hps, List.length_append, List.length_singleton] at hlen
  have hlen : ps.length = m.length := by omega
  have hslots := ht.slots
  rw [hps] at hslots
  have htake := List.forall₂_take_append _ _ _ hslots
  have hdrop := List.forall₂_drop_append _ _ _ hslots
  rw [hlen, List.take_left' rfl] at htake
  rw [hlen, List.drop_left' rfl] at hdrop
  cases hdrop with
  | cons hback _ => exact ⟨ps, p, hps, hlen, htake, hback⟩

theorem size_eq (ht : Tracks fd s order) (hinj : Function.Injective fd) : s.pollfds.length = s.channels.keys.length := by
  have hperm : s.channels.keys.Perm (order.map fd) := by
    rw [List.perm_ext_iff_of_nodup s.channels.keys_nodup (ht.nodup.map hinj)]
    intro x
    rw [← AList.mem_keys, ← AList.lookup_isSome, Option.isSome_iff_exists, List.mem_map]
    exact exists_congr fun c => ht.lookup
  rw [hperm.length_eq, List.length_map, ht.length_eq]

theorem index_injective (ht : Tracks fd s order) {b c : C} (hb : b ∈ order) (hc : c ∈ order)
    (h : (s.objects b).index = (s.objects c).index) : b = c := by
  obtain ⟨i, hi⟩ := List.getElem?_of_mem hb
  obtain ⟨j, hj⟩ := List.getElem?_of_mem hc
  rw [ht.index hi, ht.index hj, Int.natCast_inj] at h
  rw [h, hj, Option.some.injEq] at hi
  exact hi.symm

theorem slot (ht : Tracks fd s order) (hc : c ∈ order) :
    ∃ (i : Nat) (pfd : PollFd), (s.objects c).index = i ∧ s.pollfds[i]? = some pfd ∧ Watches (fd c) pfd := by
  obtain ⟨i, hi⟩ := List.getElem?_of_mem hc
  obtain ⟨hlt, hget⟩ := List.getElem?_eq_some_iff.mp hi
  have hlt' : i < s.pollfds.length := ht.length_eq ▸ hlt
  have hwatch := (List.forall₂_iff_get.mp ht.slots).2 i hlt hlt'
  refine ⟨i, _, ht.index hi, List.getElem?_eq_getElem hlt', ?_⟩
  rw [← hget]
  exact hwatch

theorem lookup_slot (ht : Tracks fd s order) (hpos : ∀ c, 0 ≤ fd c) {pfd : PollFd} (hpfd : pfd ∈ s.pollfds)
    (h : 0 ≤ pfd.fd) :
    ∃ c, s.channels.lookup pfd.fd = some c := by
  obtain ⟨i, hlt, hget⟩ := List.getElem_of_mem hpfd
  have hlt' : i < order.length := ht.length_eq.symm ▸ hlt
  have hwatch : Watches (fd order[i]) s.pollfds[i] := (List.forall₂_iff_get.mp ht.slots).2 i hlt' hlt
  rw [hget] at hwatch
  refine ⟨order[i], ht.lookup.mpr ⟨List.getElem_mem hlt', ?_⟩⟩
  rcases hwatch with hfd | hfd
  · exact hfd.symm
  · have := hpos order[i]
    omega

section steps

variable [DecidableEq C]

theorem setEvents (ht : Tracks fd s order) (events : Int) :
    Tracks fd { s with objects := Function.update s.objects c { s.objects c with events := events } } order := by
  have hkeep : ∀ (b : C), (Function.update s.objects c { s.objects c with events := events } b).index = (s.objects b).index ∧
      (Function.update s.objects c { s.objects c with events := events } b).fd = (s.objects b).fd := by
    intro b
    by_cases hb : b = c
    · subst hb
      simp
    · simp [Function.update_of_ne hb]
  exact {
    nodup := ht.nodup
    fds := fun b => (hkeep b).2.trans (ht.fds b)
    slots := ht.slots
    index := fun h => (hkeep _).1.trans (ht.index h)
    unregistered := fun h => (hkeep _).1.trans (ht.unregistered h)
    lookup := ht.lookup }

theorem updateChannel_new (ht : Tracks fd s order) (hinj : Function.Injective fd) (hc : c ∉ order) :
    ∃ s', s.updateChannel c = .ok s' ∧ Tracks fd s' (order ++ [c]) := by
  have hindex : (s.objects c).index < 0 := by
    rw [ht.unregistered hc]
    decide
  have hnone : s.channels.lookup (s.objects c).fd = none := by
    cases hb : s.channels.lookup (s.objects c).fd with
    | none => rfl
    | some b =>
        obtain ⟨hmem, hfd⟩ := ht.lookup.mp hb
        rw [ht.fds] at hfd
        exact absurd (hinj hfd ▸ hmem) hc
  refine ⟨_, by rw [updateChannel, if_pos hindex, if_pos hnone], ?_⟩
  exact {
    nodup := by
      rw [List.nodup_append]
      refine ⟨ht.nodup, List.nodup_singleton c, ?_⟩
      intro a ha b hb hab
      rw [List.mem_singleton] at hb
      exact hc (hb ▸ hab ▸ ha)
    fds := fun b => by
      rw [fd_setIndexInPoller]
      exact ht.fds b
    slots := by
      apply List.rel_append ht.slots
      exact .cons (.inl (ht.fds c)) .nil
    index := by
      intro i b hb
      rw [index_setIndexInPoller]
      by_cases hi : i < order.length
      · rw [List.getElem?_append_left hi] at hb
        have hbc : b ≠ c := fun h => hc (h ▸ List.mem_of_getElem? hb)
        rw [if_neg hbc]
        exact ht.index hb
      · obtain ⟨hlt, _⟩ := List.getElem?_eq_some_iff.mp hb
        rw [List.length_append, List.length_singleton] at hlt
        obtain rfl : i = order.length := by omega
        rw [List.getElem?_concat_length, Option.some.injEq] at hb
        rw [if_pos hb.symm, List.length_append, List.length_singleton, ← ht.length_eq]
        omega
    unregistered := by
      intro b hb
      rw [List.mem_append, List.mem_singleton, not_or] at hb
      rw [index_setIndexInPoller, if_neg hb.2]
      exact ht.unregistered hb.1
    lookup := by
      intro x b
      rw [ht.fds, List.mem_append, List.mem_singleton]
      by_cases hx : x = fd c
      · subst hx
        rw [AList.lookup_insert, Option.some.injEq]
        constructor
        · rintro rfl
          exact ⟨.inr rfl, rfl⟩
        · rintro ⟨_, hfd⟩
          exact (hinj hfd).symm
      · rw [AList.lookup_insert_ne hx, ht.lookup]
        constructor
        · rintro ⟨hb, hfd⟩
          exact ⟨.inl hb, hfd⟩
        · rintro ⟨hb | rfl, hfd⟩
          · exact ⟨hb, hfd⟩
          · exact absurd hfd.symm hx }

theorem updateChannel_old (ht : Tracks fd s order) (hc : c ∈ order) :
    ∃ s', s.updateChannel c = .ok s' ∧ Tracks fd s' order := by
  obtain ⟨i, hi⟩ := List.getElem?_of_mem hc
  obtain ⟨hlt, _⟩ := List.getElem?_eq_some_iff.mp hi
  have hindex : (s.objects c).index = i := ht.index hi
  have hlookup : s.channels.lookup (s.objects c).fd ≠ none := by
    rw [ht.lookup_self hc]
    exact Option.some_ne_none c
  have hslot : (s.objects c).index.toNat = i := by
    rw [hindex, Int.toNat_natCast]
  refine ⟨_, by rw [updateChannel, if_neg (by omega), if_pos hlookup, hslot, if_pos (ht.length_eq ▸ hlt)], ?_⟩
  refine { ht with slots := ?_ }
  have hset : order.set i c = order := by
    obtain ⟨_, hget⟩ := List.getElem?_eq_some_iff.mp hi
    rw [← hget, List.set_getElem_self]
  rw [← hset]
  apply forall₂_set i ht.slots
  rw [ht.fds]
  split
  · exact .inr rfl
  · exact .inl rfl

section removal

variable {m : List C} {a : C} {ps : List PollFd} {p : PollFd} {i : Nat}

theorem removed (objects : C → Channel) (ht : Tracks fd s (m ++ [a])) (hinj : Function.Injective fd)
    (hi : (m ++ [a])[i]? = some c) (hslots : List.Forall₂ (fun c pfd => Watches (fd c) pfd) m ps) (hback : Watches (fd a) p)
    (hfds : ∀ b, (objects b).fd = (s.objects b).fd)
    (hindex : ∀ b, (objects b).index = if b = c then -1 else if b = a then (i : Int) else (s.objects b).index) :
    Tracks fd ⟨ps.set i p, s.channels.erase (fd c), objects⟩ (m.set i a) := by
  have hperm : (m ++ [a]).Perm (c :: m.set i a) := perm_cons_set hi
  obtain ⟨hc, hnodup⟩ := List.nodup_cons.mp (hperm.nodup_iff.mp ht.nodup)
  have hmem : ∀ b, b ∈ m.set i a ↔ b ∈ m ++ [a] ∧ b ≠ c := by
    intro b
    rw [hperm.mem_iff, List.mem_cons]
    constructor
    · intro hb
      exact ⟨.inr hb, fun h => hc (h ▸ hb)⟩
    · rintro ⟨hb | hb, hbc⟩
      · exact absurd hb hbc
      · exact hb
  exact {
    nodup := hnodup
    fds := fun b => (hfds b).trans (ht.fds b)
    slots := forall₂_set i hslots hback
    index := by
      intro j b hb
      obtain ⟨_, hbc⟩ := (hmem b).mp (List.mem_of_getElem? hb)
      rw [hindex, if_neg hbc]
      by_cases hj : j = i
      · subst hj
        obtain ⟨hlt, _⟩ := List.getElem?_eq_some_iff.mp hb
        rw [List.getElem?_set_self (by simpa using hlt), Option.some.injEq] at hb
        rw [if_pos hb.symm]
      · rw [List.getElem?_set_ne (Ne.symm hj)] at hb
        have hba : b ≠ a := by
          rintro rfl
          exact (List.nodup_append.mp ht.nodup).2.2 b (List.mem_of_getElem? hb) b (List.mem_singleton_self b) rfl
        rw [if_neg hba]
        obtain ⟨hlt, _⟩ := List.getElem?_eq_some_iff.mp hb
        exact ht.index ((List.getElem?_append_left hlt).trans hb)
    unregistered := by
      intro b hb
      rw [hmem, not_and_not_right] at hb
      rw [hindex]
      by_cases hbc : b = c
      · rw [if_pos hbc]
      · have hnot : b ∉ m ++ [a] := fun h => hbc (hb h)
        have hba : b ≠ a := fun h => hnot (h ▸ List.mem_append_right m (List.mem_singleton_self b))
        rw [if_neg hbc, if_neg hba]
        exact ht.unregistered hnot
    lookup := by
      intro x b
      rw [hmem]
      by_cases hx : x = fd c
      · subst hx
        rw [AList.lookup_erase]
        exact iff_of_false nofun fun h => h.1.2 (hinj h.2)
      · rw [AList.lookup_erase_ne hx, ht.lookup]
        constructor
        · rintro ⟨hb, hfd⟩
          exact ⟨⟨hb, fun h => hx (h ▸ hfd.symm)⟩, hfd⟩
        · rintro ⟨⟨hb, _⟩, hfd⟩
          exact ⟨hb, hfd⟩ }

end removal

theorem removeChannel_ok (ht : Tracks fd s order) (hinj : Function.Injective fd) (hpos : ∀ c, 0 ≤ fd c) (hc : c ∈ order) :
    ∃ s' order', s.removeChannel c = .ok s' ∧ Tracks fd s' order' ∧ order.Perm (c :: order') := by
  obtain ⟨i, hi⟩ := List.getElem?_of_mem hc
  obtain ⟨m, a, rfl⟩ : ∃ m a, order = m ++ [a] :=
    ⟨_, _, (List.dropLast_append_getLast (List.ne_nil_of_mem hc)).symm⟩
  obtain ⟨ps, p, hps, hlen, hslots, hback⟩ := ht.last_slot
  have hlookup : s.channels.lookup (s.objects c).fd ≠ none := by
    rw [ht.lookup_self hc]
    exact Option.some_ne_none c
  have hindex : (s.objects c).index = i := ht.index hi
  have hlength : (s.pollfds.length : Int) - 1 = m.length := by
    rw [hps, List.length_append, List.length_singleton, hlen]
    omega
  have hgetLast : s.pollfds.getLast? = some p := by
    rw [hps, List.getLast?_concat]
  by_cases hlast : i = m.length
  · -- the channel is in the last slot
    subst hlast
    obtain rfl : a = c := by
      rwa [List.getElem?_concat_length, Option.some.injEq] at hi
    refine ⟨_, m.set m.length a, ?_, removed (setIndexInPoller s.objects a (-1)) ht hinj hi hslots hback ?_ ?_,
      perm_cons_set hi⟩
    · rw [removeChannel, if_pos hlookup, hgetLast]
      dsimp only
      rw [if_pos (hindex.trans hlength.symm), hps, List.dropLast_concat, ht.fds, ← hlen,
        List.set_eq_of_length_le (Nat.le_refl _)]
    · simp
    · intro b
      rw [index_setIndexInPoller]
      split <;> rfl
  · have hlt : i < m.length := by
      obtain ⟨hlt, _⟩ := List.getElem?_eq_some_iff.mp hi
      rw [List.length_append, List.length_singleton] at hlt
      omega
    have hac : a ≠ c := by
      rintro rfl
      rw [List.getElem?_append_left hlt] at hi
      exact (List.nodup_append.mp ht.nodup).2.2 a (List.mem_of_getElem? hi) a (List.mem_singleton_self a) rfl
    have hmoved : (s.channels.erase (s.objects c).fd).lookup (if p.fd < 0 then -p.fd - 1 else p.fd) = some a := by
      rw [hback.undo (hpos a), ht.fds, AList.lookup_erase_ne fun h => hac (hinj h)]
      exact ht.lookup.mpr ⟨List.mem_append_right m (List.mem_singleton_self a), rfl⟩
    refine ⟨_, m.set i a, ?_, removed (setIndexInPoller (setIndexInPoller s.objects a i) c (-1)) ht hinj hi hslots hback
      ?_ ?_, perm_cons_set hi⟩
    · rw [removeChannel, if_pos hlookup, hgetLast]
      dsimp only
      rw [if_neg (by omega), if_pos (by omega), hmoved]
      dsimp only
      rw [hindex, Int.toNat_natCast, hps, List.set_append_left _ _ (hlen ▸ hlt), List.dropLast_concat, ht.fds]
    · simp
    · intro b
      rw [index_setIndexInPoller, index_setIndexInPoller]

theorem call_ok (ht : Tracks fd s order) (hinj : Function.Injective fd) (hpos : ∀ c, 0 ≤ fd c) {registered : Set C}
    (hset : ∀ b, b ∈ order ↔ b ∈ registered) (x : Call C) (hx : ∀ c, x = .remove c → c ∈ registered) :
    ∃ s' order', s.call x = .ok s' ∧ Tracks fd s' order' ∧ ∀ b, b ∈ order' ↔ b ∈ register registered x := by
  cases x with
  | update c events =>
      have ht' := ht.setEvents (c := c) events
      by_cases hc : c ∈ order
      · obtain ⟨s', hok, hs'⟩ := ht'.updateChannel_old hc
        refine ⟨s', order, hok, hs', fun b => ?_⟩
        rw [register, Set.mem_insert_iff, ← hset]
        exact ⟨.inr, fun h => h.elim (fun h => h ▸ hc) id⟩
      · obtain ⟨s', hok, hs'⟩ := ht'.updateChannel_new hinj hc
        refine ⟨s', order ++ [c], hok, hs', fun b => ?_⟩
        rw [register, Set.mem_insert_iff, ← hset, List.mem_append, List.mem_singleton, or_comm]
  | remove c =>
      obtain ⟨s', order', hok, hs', hperm⟩ := ht.removeChannel_ok hinj hpos ((hset c).mpr (hx c rfl))
      refine ⟨s', order', hok, hs', fun b => ?_⟩
      obtain ⟨hc, _⟩ := List.nodup_cons.mp (hperm.nodup_iff.mp ht.nodup)
      rw [register, Set.mem_sdiff, Set.mem_singleton_iff, ← hset, hperm.mem_iff, List.mem_cons]
      constructor
      · intro hb
        exact ⟨.inr hb, fun h => hc (h ▸ hb)⟩
      · rintro ⟨hb | hb, hbc⟩
        · exact absurd hb hbc
        · exact hb

theorem hasChannel_iff (ht : Tracks fd s order) : s.hasChannel c = true ↔ c ∈ order := by
  rw [hasChannel, decide_eq_true_iff, ht.lookup, ht.fds]
  exact and_iff_left rfl

theorem run_ok (ht : Tracks fd s order) (hinj : Function.Injective fd) (hpos : ∀ c, 0 ≤ fd c) {registered : Set C}
    (hset : ∀ b, b ∈ order ↔ b ∈ registered) {calls : List (Call C)} (hcalls : Proper registered calls) :
    ∃ s' order', s.run calls = .ok s' ∧ Tracks fd s' order' ∧ ∀ b, b ∈ order' ↔ b ∈ calls.foldl register registered := by
  induction calls generalizing s order registered with
  | nil => exact ⟨s, order, rfl, ht, hset⟩
  | cons x calls ih =>
      have hx : (∀ c, x = .remove c → c ∈ registered) ∧ Proper (register registered x) calls := by
        cases x with
        | update c events => exact ⟨nofun, hcalls⟩
        | remove c =>
            refine ⟨?_, hcalls.2⟩
            rintro _ ⟨rfl⟩
            exact hcalls.1
      obtain ⟨s', order', hok, ht', hset'⟩ := ht.call_ok hinj hpos hset x hx.1
      obtain ⟨s'', order'', hrun, hrest⟩ := ih ht' hset' hx.2
      refine ⟨s'', order'', ?_, hrest⟩
      rw [run, hok]
      exact hrun

theorem fillActiveChannels_ok (ht : Tracks fd s order) (hpos : ∀ c, 0 ≤ fd c) {before after : List PollFd}
    (hsub : ∀ pfd ∈ before, pfd ∈ s.pollfds) (hpolled : Polled before after) (numEvents : Int) (objects : C → Channel) :
    ∃ r, fillActiveChannels s.channels after numEvents objects = .ok r := by
  induction hpolled generalizing numEvents objects with
  | nil => exact ⟨_, rfl⟩
  | @cons b a before after hslot hrest ih =>
      have ih := ih fun pfd hpfd => hsub pfd (List.mem_cons_of_mem b hpfd)
      rw [fillActiveChannels]
      split
      · exact ⟨_, rfl⟩
      · split
        · next hready =>
            have hfd : 0 ≤ b.fd := by
              by_contra hneg
              rw [hslot.2 (by omega)] at hready
              exact absurd hready (by decide)
            obtain ⟨c, hc⟩ := ht.lookup_slot hpos (hsub b List.mem_cons_self) hfd
            rw [hslot.1, hc]
            obtain ⟨r, hr⟩ := ih (numEvents - 1) (Function.update objects c { objects c with revents := a.revents })
            refine ⟨(r.1, c :: r.2), ?_⟩
            dsimp only
            rw [hr]
            rfl
        · exact ih numEvents objects

end steps

end Tracks

/-- However channels are registered, masked and removed, the poller's tables agree. -/
theorem poller_bookkeeping [DecidableEq C] (hinj : Function.Injective fd) (hpos : ∀ c, 0 ≤ fd c) {calls : List (Call C)}
    (hcalls : Proper ∅ calls) : ∃ s, (new fd).run calls = .ok s ∧
      s.pollfds.length = s.channels.keys.length ∧
      (∀ c ∈ calls.foldl register ∅, ∃ (i : Nat) (pfd : PollFd), (s.objects c).index = i ∧ s.pollfds[i]? = some pfd ∧
        (pfd.fd = fd c ∨ pfd.fd = -fd c - 1)) ∧
      (∀ b ∈ calls.foldl register ∅, ∀ c ∈ calls.foldl register ∅, (s.objects b).index = (s.objects c).index → b = c) ∧
      (∀ c ∉ calls.foldl register ∅, (s.objects c).index = -1) ∧
      (∀ pfd ∈ s.pollfds, 0 ≤ pfd.fd → ∃ c, s.channels.lookup pfd.fd = some c) ∧
      ∀ polled numEvents, Polled s.pollfds polled →
        ∃ r, fillActiveChannels s.channels polled numEvents s.objects = .ok r := by
  obtain ⟨s, order, hrun, ht, hset⟩ := tracks_new.run_ok hinj hpos (fun b => by simp) hcalls
  refine ⟨s, hrun, ht.size_eq hinj, ?_, ?_, ?_, ?_, ?_⟩
  · intro c hc
    exact ht.slot ((hset c).mpr hc)
  · intro b hb c hc
    exact ht.index_injective ((hset b).mpr hb) ((hset c).mpr hc)
  · intro c hc
    exact ht.unregistered fun h => hc ((hset c).mp h)
  · intro pfd hpfd
    exact ht.lookup_slot hpos hpfd
  · intro polled numEvents hpolled
    exact ht.fillActiveChannels_ok hpos (fun _ => id) hpolled numEvents s.objects

/-- Three channels, the fd 0 among them: one is masked, one removed and registered
again. -/
theorem poller_bookkeeping_three : ∃ s : Poller (Fin 3),
    (new fun c : Fin 3 => (c : Int)).run [.update 0 1, .update 1 4, .update 2 1, .update 2 0, .remove 0, .update 0 5]
      = .ok s ∧
      s.pollfds.length = s.channels.keys.length := by
  have hinj : Function.Injective fun c : Fin 3 => (c : Int) := fun a b h => Fin.ext (Int.natCast_inj.mp h)
  have hcalls : Proper (C := Fin 3) ∅
      [.update 0 1, .update 1 4, .update 2 1, .update 2 0, .remove 0, .update 0 5] := by
    simp [Proper, register]
  obtain ⟨s, hrun, hsize, _⟩ := poller_bookkeeping hinj (fun c => Int.natCast_nonneg _) hcalls
  exact ⟨s, hrun, hsize⟩

end Poller

end DBPlayground.Io
