import Mathlib.Order.Interval.Set.Basic

namespace DBPlayground.Separators

variable {K A : Type} [LinearOrder K] {P Q : Set K → A → Prop} {I J : Set K} {t t' u : A} {k : K}
  {l r xs ys ts ts' : List (K × A)}

/-- Parts of an interval, one after the other: each separator cuts off a
non-empty stretch, which belongs to the part before it. -/
def SpansFrom (P : Set K → A → Prop) : Set K → A → List (K × A) → Prop
  | I, t, [] => P I t
  | I, t, (k, t') :: rest =>
    k ∈ I ∧ (I ∩ Set.Iio k).Nonempty ∧ P (I ∩ Set.Iio k) t ∧ SpansFrom P (I ∩ Set.Ici k) t' rest

/-- The same for a list of parts in which the first key is not used. -/
def Spans (P : Set K → A → Prop) (I : Set K) : List (K × A) → Prop
  | [] => False
  | c :: rest => SpansFrom P I c.2 rest

theorem spansFrom_append : SpansFrom P I t (xs ++ (k, u) :: ys) ↔
    k ∈ I ∧ (I ∩ Set.Iio k).Nonempty ∧ SpansFrom P (I ∩ Set.Iio k) t xs ∧ SpansFrom P (I ∩ Set.Ici k) u ys := by
  induction xs generalizing I t with
  | nil => exact Iff.rfl
  | cons c rest ih =>
      obtain ⟨j, t'⟩ := c
      have hlow : ∀ hjk : j ≤ k, I ∩ Set.Iio k ∩ Set.Iio j = I ∩ Set.Iio j := fun hjk => by
        rw [Set.inter_assoc, Set.inter_eq_self_of_subset_right (Set.Iio_subset_Iio hjk)]
      have hhigh : ∀ hjk : j ≤ k, I ∩ Set.Ici j ∩ Set.Ici k = I ∩ Set.Ici k := fun hjk => by
        rw [Set.inter_assoc, Set.inter_eq_self_of_subset_right (Set.Ici_subset_Ici.mpr hjk)]
      rw [List.cons_append, SpansFrom, ih, SpansFrom, Set.inter_right_comm I (Set.Ici j)]
      constructor
      · rintro ⟨hj, hne, ht, ⟨hk, hjk⟩, hne', hxs, hys⟩
        rw [hhigh hjk] at hys
        obtain ⟨x, ⟨hxI, hxk⟩, hjx⟩ := hne'
        refine ⟨hk, ⟨x, hxI, hxk⟩, ⟨⟨hj, lt_of_le_of_lt hjx hxk⟩, ?_⟩, hys⟩
        rw [hlow hjk]
        exact ⟨hne, ht, hxs⟩
      · rintro ⟨hk, hne', ⟨⟨hj, hjk⟩, hne, ht, hxs⟩, hys⟩
        rw [hlow (le_of_lt hjk)] at hne ht
        refine ⟨hj, hne, ht, ⟨hk, le_of_lt hjk⟩, ⟨j, ⟨hj, hjk⟩, le_refl j⟩, hxs, ?_⟩
        rw [hhigh (le_of_lt hjk)]
        exact hys

/-- The stretch between the parts on the left and those on the right. -/
def window (I : Set K) (l : List (K × A)) (k : K) (r : List (K × A)) : Set K :=
  { x | x ∈ I ∧ (l ≠ [] → k ≤ x) ∧ ∀ c ∈ r.head?, x < c.1 }

theorem window_subset : window I l k r ⊆ I := fun _ hx => hx.1

theorem window_left (c : K × A) : window I (c :: l) k r = window (I ∩ Set.Ici k) [] k r := by
  ext x
  simp only [window, Set.mem_ofPred_eq, Set.mem_inter_iff, Set.mem_Ici, ne_eq, not_true_eq_false, false_implies,
    true_and, reduceCtorEq, not_false_eq_true, true_implies, and_assoc]

theorem window_right (c : K × A) : window I [] k (c :: r) = I ∩ Set.Iio c.1 := by
  ext x
  simp only [window, List.head?_cons, Option.mem_def, Option.some.injEq, forall_eq', Set.mem_ofPred_eq, ne_eq,
    not_true_eq_false, false_implies, true_and, Set.mem_inter_iff, Set.mem_Iio]

theorem window_nil : window I [] k ([] : List (K × A)) = I := by
  ext x
  simp only [window, List.head?_nil, Option.mem_def, reduceCtorEq, false_implies, implies_true, and_true, ne_eq,
    not_true_eq_false, Set.mem_ofPred_eq]

theorem spansFrom_window_right : SpansFrom P I t (ts ++ r) ↔
    SpansFrom P (window I [] k r) t ts ∧
      ∀ c ∈ r.head?, c.1 ∈ I ∧ (I ∩ Set.Iio c.1).Nonempty ∧ SpansFrom P (I ∩ Set.Ici c.1) c.2 r.tail := by
  cases r with
  | nil => simp [window_nil]
  | cons c rest =>
      rw [window_right, spansFrom_append]
      simp only [List.head?_cons, Option.mem_def, Option.some.injEq, forall_eq', List.tail_cons]
      tauto

variable (ts) in
theorem spans_focus (h : Spans P I (l ++ (k, t) :: (ts ++ r))) :
    SpansFrom P (window I l k r) t ts ∧
      ∀ t' ts', SpansFrom P (window I l k r) t' ts' → Spans P I (l ++ (k, t') :: (ts' ++ r)) := by
  cases l with
  | nil =>
      obtain ⟨hw, hr⟩ := spansFrom_window_right.mp h
      exact ⟨hw, fun t' ts' h' => spansFrom_window_right.mpr ⟨h', hr⟩⟩
  | cons c rest =>
      rw [window_left]
      obtain ⟨hk, hne, hl, h⟩ := spansFrom_append.mp h
      obtain ⟨hw, hr⟩ := spansFrom_window_right.mp h
      exact ⟨hw, fun t' ts' h' => spansFrom_append.mpr ⟨hk, hne, hl, spansFrom_window_right.mpr ⟨h', hr⟩⟩⟩

theorem Spans.lt_of_window {m : List (K × A)} {k' x : K} (h : Spans P I (l ++ (k, t) :: (m ++ (k', u) :: r)))
    (hx : x ∈ window I l k (m ++ (k', u) :: r)) : x < k' := by
  rw [← List.append_nil (m ++ (k', u) :: r)] at h
  have hspan := (spans_focus (m ++ (k', u) :: r) h).1
  cases m with
  | nil => exact hx.2.2 _ rfl
  | cons c m => exact lt_trans (hx.2.2 c rfl) (spansFrom_append.mp hspan).2.2.1.1.2

theorem window_unique {l' r' : List (K × A)} {k' x : K} (h : Spans P I (l ++ (k, t) :: r))
    (he : l ++ (k, t) :: r = l' ++ (k', t') :: r') (hx : x ∈ window I l k r) (hx' : x ∈ window I l' k' r') :
    l = l' ∧ k = k' ∧ t = t' ∧ r = r' := by
  rcases List.append_eq_append_iff.mp he with ⟨m, hl, hr⟩ | ⟨m, hl, hr⟩
  · cases m with
    | nil =>
        obtain ⟨hc, rfl⟩ := List.cons.inj hr
        obtain ⟨rfl, rfl⟩ := Prod.mk.inj hc
        rw [List.append_nil] at hl
        exact ⟨hl.symm, rfl, rfl, rfl⟩
    | cons c m =>
        obtain ⟨rfl, rfl⟩ := List.cons.inj hr
        exact absurd (hx'.2.1 (by rw [hl]; simp)) (not_le_of_gt (h.lt_of_window hx))
  · cases m with
    | nil =>
        obtain ⟨hc, rfl⟩ := List.cons.inj hr
        obtain ⟨rfl, rfl⟩ := Prod.mk.inj hc
        rw [List.append_nil] at hl
        exact ⟨hl, rfl, rfl, rfl⟩
    | cons c m =>
        obtain ⟨rfl, rfl⟩ := List.cons.inj hr
        rw [he] at h
        exact absurd (hx.2.1 (by rw [hl]; simp)) (not_le_of_gt (h.lt_of_window hx'))

section contents

variable {X : Type} {g : X → K} {C : A → List X}

theorem SpansFrom.mem (hP : ∀ I t, P I t → ∀ x ∈ C t, g x ∈ I) (h : SpansFrom P I t ts) :
    (∀ x ∈ C t, g x ∈ I) ∧ ∀ c ∈ ts, ∀ x ∈ C c.2, g x ∈ I := by
  induction ts generalizing I t with
  | nil => exact ⟨hP I t h, nofun⟩
  | cons c rest ih =>
      obtain ⟨_, _, ht, hrest⟩ := h
      obtain ⟨hc, hrest⟩ := ih hrest
      refine ⟨fun x hx => (hP _ t ht x hx).1, fun d hd x hx => ?_⟩
      rcases List.mem_cons.mp hd with rfl | hd
      · exact (hc x hx).1
      · exact (hrest d hd x hx).1

theorem Spans.sides (hP : ∀ I t, P I t → ∀ x ∈ C t, g x ∈ I) (h : Spans P I (l ++ (k, t) :: r)) {y : K}
    (hy : y ∈ window I l k r) : (∀ c ∈ l, ∀ x ∈ C c.2, g x < y) ∧ ∀ c ∈ r, ∀ x ∈ C c.2, y < g x := by
  have hright : ∀ {I t}, SpansFrom P I t r → ∀ c ∈ r, ∀ x ∈ C c.2, y < g x := by
    intro I t h c hc x hx
    cases r with
    | nil => cases hc
    | cons d rest =>
        obtain ⟨hd, hrest⟩ := h.2.2.2.mem hP
        refine lt_of_lt_of_le (hy.2.2 d rfl) ?_
        rcases List.mem_cons.mp hc with rfl | hc
        · exact (hd x hx).2
        · exact (hrest c hc x hx).2
  cases l with
  | nil => exact ⟨nofun, hright h⟩
  | cons d rest =>
      obtain ⟨_, _, hl, hr⟩ := spansFrom_append.mp h
      obtain ⟨hd, hrest⟩ := hl.mem hP
      refine ⟨fun c hc x hx => lt_of_lt_of_le ?_ (hy.2.1 (List.cons_ne_nil d rest)), hright hr⟩
      rcases List.mem_cons.mp hc with rfl | hc
      · exact (hd x hx).2
      · exact (hrest c hc x hx).2

theorem SpansFrom.sorted (hP : ∀ I t, P I t → (C t).Pairwise (g · < g ·) ∧ ∀ x ∈ C t, g x ∈ I)
    (h : SpansFrom P I t ts) : (C t ++ ts.flatMap fun c => C c.2).Pairwise (g · < g ·) := by
  induction ts generalizing I t with
  | nil =>
      rw [List.flatMap_nil, List.append_nil]
      exact (hP I t h).1
  | cons c rest ih =>
      obtain ⟨_, _, ht, hrest⟩ := h
      rw [List.pairwise_append]
      refine ⟨(hP _ t ht).1, ih hrest, fun x hx y hy => lt_of_lt_of_le ((hP _ t ht).2 x hx).2 ?_⟩
      obtain ⟨hc, hcs⟩ := hrest.mem fun I t h => (hP I t h).2
      rw [List.flatMap_cons, List.mem_append, List.mem_flatMap] at hy
      rcases hy with hy | ⟨d, hd, hy⟩
      · exact (hc y hy).2
      · exact (hcs d hd y hy).2

end contents

end DBPlayground.Separators
