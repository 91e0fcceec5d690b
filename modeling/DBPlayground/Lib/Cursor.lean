import Mathlib.Init

namespace DBPlayground.Cursor

variable {σ ε α : Type}

/-- One call of a cursor: an item, `none` at the end, or an exception. -/
abbrev Next (σ ε α : Type) := σ → Except ε (Option α) × σ

/-- Calling the cursor until its end yields these items. -/
inductive Drains (next : Next σ ε α) : σ → List α → Prop
  | done {s t : σ} (h : next s = (.ok none, t)) : Drains next s []
  | item {s t : σ} {a : α} {as : List α} (h : next s = (.ok (some a), t)) (rest : Drains next t as) :
      Drains next s (a :: as)

inductive Throws (next : Next σ ε α) : σ → ε → Prop
  | now {s t : σ} {e : ε} (h : next s = (.error e, t)) : Throws next s e
  | later {s t : σ} {a : α} {e : ε} (h : next s = (.ok (some a), t)) (rest : Throws next t e) : Throws next s e

variable {next : Next σ ε α} {s s' : σ}

theorem Drains.unique {as bs : List α} (h : Drains next s as) (h' : Drains next s bs) : as = bs := by
  induction h generalizing bs with
  | done hn =>
      cases h' with
      | done => rfl
      | item hm _ => cases hn.symm.trans hm
  | item hn _ ih =>
      cases h' with
      | done hm => cases hn.symm.trans hm
      | item hm hrest =>
          cases hn.symm.trans hm
          rw [ih hrest]

theorem Drains.not_throws {as : List α} {e : ε} (h : Drains next s as) : ¬ Throws next s e := by
  induction h with
  | done hn =>
      intro h'
      cases h' with
      | now hm => cases hn.symm.trans hm
      | later hm _ => cases hn.symm.trans hm
  | item hn _ ih =>
      intro h'
      cases h' with
      | now hm => cases hn.symm.trans hm
      | later hm hrest =>
          cases hn.symm.trans hm
          exact ih hrest

theorem Drains.congr {as : List α} (heq : next s = next s') (h : Drains next s as) : Drains next s' as := by
  cases h with
  | done hn => exact .done (heq ▸ hn)
  | item hn rest => exact .item (heq ▸ hn) rest

theorem Throws.congr {e : ε} (heq : next s = next s') (h : Throws next s e) : Throws next s' e := by
  cases h with
  | now hn => exact .now (heq ▸ hn)
  | later hn rest => exact .later (heq ▸ hn) rest

end DBPlayground.Cursor
