import Mathlib.Data.Multiset.MapFold
import Mathlib.Data.Multiset.UnionInter
import Mathlib.Logic.Function.Basic

namespace DBPlayground.Footprint

variable {ι α : Type} {mem : ι → α} {s t : Multiset (ι × α)} {p : ι} {a b : α}

theorem mem_front {A : Type} {x : A} {xs : Multiset A} : x ∈ {x} + xs :=
  Multiset.mem_add.mpr (.inl (Multiset.mem_singleton_self x))

/-- The memory has these cells, each at an address of its own. -/
structure Holds (mem : ι → α) (s : Multiset (ι × α)) : Prop where
  nodup : (s.map Prod.fst).Nodup
  value : ∀ x ∈ s, mem x.1 = x.2

theorem Holds.get (h : Holds mem ({(p, a)} + s)) : mem p = a :=
  h.value (p, a) mem_front

theorem Holds.not_mem (h : Holds mem ({(p, a)} + s)) : ∀ x ∈ s, x.1 ≠ p := by
  have hd := h.nodup
  rw [Multiset.singleton_add, Multiset.map_cons, Multiset.nodup_cons] at hd
  rintro x hx rfl
  exact hd.1 (Multiset.mem_map.mpr ⟨x, hx, rfl⟩)

theorem Holds.of_le (h : Holds mem t) (hle : s ≤ t) : Holds mem s :=
  ⟨Multiset.nodup_of_le (Multiset.map_le_map hle) h.nodup, fun x hx => h.value x (Multiset.mem_of_le hle hx)⟩

theorem Holds.right (h : Holds mem (t + s)) : Holds mem s := h.of_le (Multiset.le_add_left _ _)

theorem Holds.left (h : Holds mem (s + t)) : Holds mem s := h.of_le (Multiset.le_add_right _ _)

theorem Holds.disjoint (h : Holds mem (s + t)) : ∀ x ∈ s, ∀ y ∈ t, x.1 ≠ y.1 := by
  have hd := h.nodup
  rw [Multiset.map_add, Multiset.nodup_add] at hd
  intro x hx y hy he
  exact Multiset.disjoint_left.mp hd.2.2 (Multiset.mem_map_of_mem _ hx) (he ▸ Multiset.mem_map_of_mem _ hy)

variable [DecidableEq ι]

theorem Holds.update_of_not_mem (h : Holds mem s) (hp : ∀ x ∈ s, x.1 ≠ p) : Holds (Function.update mem p b) s :=
  ⟨h.nodup, fun x hx => (Function.update_of_ne (hp x hx) ..).trans (h.value x hx)⟩

theorem Holds.add (h : Holds mem s) (hp : ∀ x ∈ s, x.1 ≠ p) : Holds (Function.update mem p b) ({(p, b)} + s) := by
  refine ⟨?_, ?_⟩
  · rw [Multiset.singleton_add, Multiset.map_cons, Multiset.nodup_cons]
    refine ⟨fun hm => ?_, h.nodup⟩
    obtain ⟨x, hx, he⟩ := Multiset.mem_map.mp hm
    exact hp x hx he
  · intro x hx
    rcases Multiset.mem_add.mp hx with hx | hx
    · obtain rfl := Multiset.mem_singleton.mp hx
      exact Function.update_self ..
    · exact (h.update_of_not_mem hp).value x hx

theorem Holds.set (h : Holds mem ({(p, a)} + s)) : Holds (Function.update mem p b) ({(p, b)} + s) :=
  h.right.add h.not_mem

end DBPlayground.Footprint
