import Mathlib.Data.List.Basic

namespace DBPlayground.Framing

variable {A B : Type} {code : A → List B}

/-- The code word at the beginning of a text can be told from what follows it. -/
def SplitsOff (code : A → List B) : Prop := ∀ a b x y, code a ++ x = code b ++ y → a = b ∧ x = y

theorem SplitsOff.flatMap_injective (hcode : SplitsOff code) (hne : ∀ a, code a ≠ []) :
    Function.Injective (List.flatMap code) := by
  intro as bs h
  induction as generalizing bs with
  | nil =>
      cases bs with
      | nil => rfl
      | cons b bs => simp [hne] at h
  | cons a as ih =>
      cases bs with
      | nil => simp [hne] at h
      | cons b bs =>
          rw [List.flatMap_cons, List.flatMap_cons] at h
          obtain ⟨hab, h⟩ := hcode _ _ _ _ h
          rw [hab, ih h]

theorem intercalate_injective [DecidableEq B] {sep : B} {xs ys : List (List B)} (hx : ∀ l ∈ xs, sep ∉ l ∧ l ≠ [])
    (hy : ∀ l ∈ ys, sep ∉ l ∧ l ≠ []) (h : [sep].intercalate xs = [sep].intercalate ys) : xs = ys := by
  have hsplit : ∀ zs : List (List B), (∀ l ∈ zs, sep ∉ l ∧ l ≠ []) → zs ≠ [] →
      List.splitOn sep ([sep].intercalate zs) = zs :=
    fun zs hz hne => List.splitOn_intercalate sep (fun l hl => (hz l hl).1) hne
  have hempty : ∀ zs : List (List B), (∀ l ∈ zs, sep ∉ l ∧ l ≠ []) → [] = [sep].intercalate zs → zs = [] := by
    intro zs hz hnil
    by_contra hne
    have hzs := hsplit zs hz hne
    rw [← hnil, List.splitOn_nil] at hzs
    rw [← hzs] at hz
    exact (hz [] List.mem_cons_self).2 rfl
  by_cases hxs : xs = []
  · subst hxs
    exact (hempty ys hy h).symm
  · by_cases hys : ys = []
    · subst hys
      exact hempty xs hx h.symm
    · rw [← hsplit xs hx hxs, h, hsplit ys hy hys]

end DBPlayground.Framing
