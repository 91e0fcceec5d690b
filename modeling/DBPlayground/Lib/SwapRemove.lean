import Mathlib.Data.List.Forall2
import Mathlib.Data.List.Perm.Basic

namespace DBPlayground.SwapRemove

variable {A B : Type}

/-- Take the last item out of a list that ends with it and put it in the place of the
`i`-th; the `i`-th item may be the last one itself. -/
theorem perm_cons_set {l : List A} {a c : A} {i : Nat} (h : (l ++ [a])[i]? = some c) :
    (l ++ [a]).Perm (c :: l.set i a) := by
  by_cases hi : i < l.length
  · rw [List.getElem?_append_left hi, List.getElem?_eq_getElem hi, Option.some.injEq] at h
    have hsplit : l = l.take i ++ c :: l.drop (i + 1) := by
      rw [← h, ← List.drop_eq_getElem_cons hi, List.take_append_drop]
    have hset : l.set i a = l.take i ++ a :: l.drop (i + 1) := List.set_eq_take_append_cons_drop.trans (if_pos hi)
    rw [hset]
    nth_rewrite 1 [hsplit]
    rw [List.append_assoc, List.cons_append]
    apply List.perm_middle.trans
    apply List.Perm.cons
    apply List.Perm.append_left
    exact List.perm_append_singleton a _
  · obtain ⟨hlt, _⟩ := List.getElem?_eq_some_iff.mp h
    rw [List.length_append, List.length_singleton] at hlt
    have hlast : i = l.length := by omega
    subst hlast
    rw [List.getElem?_concat_length, Option.some.injEq] at h
    rw [List.set_eq_of_length_le (Nat.le_refl _), h]
    exact List.perm_append_singleton c l

variable {R : A → B → Prop}

theorem forall₂_set {l : List A} {m : List B} {a : A} {b : B} (i : Nat) (h : List.Forall₂ R l m) (hab : R a b) :
    List.Forall₂ R (l.set i a) (m.set i b) := by
  induction h generalizing i with
  | nil => exact .nil
  | cons hhead htail ih =>
      cases i with
      | zero => exact .cons hab htail
      | succ i => exact .cons hhead (ih i)

end DBPlayground.SwapRemove
