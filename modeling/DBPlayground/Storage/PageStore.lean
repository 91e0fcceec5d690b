import DBPlayground.Storage.PageProgram

namespace DBPlayground.Storage

open Program Machine

/-- The pages of a pool in which every fetch and every allocation succeeds. A
deleted page is zeroed, and `nextPageId` is the next id to be handed out (the ids
of the source have 32 bits; here there is always another).

A page that is deleted leaves a frame behind that the running call still has
latched, and a page fetched from then on may be put into that frame: to latch it
is to wait for ever. `freed` says that the call has deleted a page, `waits` counts
the latches taken since then, and `blocked` says which of them, in the order of
the count, meet such a frame. -/
structure PageStore (α : Type) where
  pages : PageId → α
  nextPageId : PageId
  members : Member → PageId
  pageSet : List PageId
  freed : Bool := false
  waits : Nat := 0
  blocked : Nat → Bool := fun _ => false

namespace PageStore

/-- The requests, carried out whether they wait for ever or leave the page or not. -/
def plain {α : Type} [Inhabited α] : Handler (PoolOp α) PoolOp.Ans (PageStore α)
  | .newPage, s =>
    some (some s.nextPageId,
      { s with pages := Function.update s.pages s.nextPageId default, nextPageId := s.nextPageId + 1 })
  | .fetchPage _, s => some (true, s)
  | .unpinPage _ _, s => some ((), s)
  | .deletePage p, s => some ((), { s with pages := Function.update s.pages p default, freed := true })
  | .getData p, s => some (s.pages p, s)
  | .setData p data, s => some ((), { s with pages := Function.update s.pages p data })
  | .latch _ _, s => some ((), { s with waits := s.waits + s.freed.toNat })
  | .unlatch _ _, s => some ((), s)
  | .newTransaction, s => some ((), { s with pageSet := [], freed := false })
  | .addIntoPageSet p, s => some ((), { s with pageSet := s.pageSet ++ [p] })
  | .pageSetSize, s => some (s.pageSet.length, s)
  | .pageSetPageId i, s => s.pageSet[i]?.map fun p => (p, s)
  | .pageSetUnlatch _ _, s => some ((), s)
  | .clearPageSet, s => some ((), { s with pageSet := [] })
  | .lockRoot, s => some ((), s)
  | .unlockRoot, s => some ((), s)
  | .getMember m, s => some (s.members m, s)
  | .setMember m p, s => some ((), { s with members := Function.update s.members m p })

variable {α β : Type} [Overlay α] {s t : PageStore α}

/-- The latch does not wait for ever, and nothing is written past the end of a page. -/
def legal : PoolOp α → PageStore α → Bool
  | .latch _ _, s => !(s.freed && s.blocked s.waits)
  | .setData _ data, _ => Overlay.inside data
  | _, _ => true

def handler : Handler (PoolOp α) PoolOp.Ans (PageStore α) := guard plain legal

theorem inside_of_legal {o : PoolOp α} (ho : legal o s = true) : o.inside = true := by
  cases o with
  | setData p data => exact ho
  | _ => rfl

/-- None of the latches counted between two states is blocked. -/
def Clear (s t : PageStore α) : Prop := ∀ j, s.waits ≤ j → j < t.waits → s.blocked j = false

omit [Overlay α] in
theorem clear_iff {w : Nat} (hw : t.waits = s.waits + w) : Clear s t ↔ ∀ j < w, s.blocked (s.waits + j) = false := by
  unfold Clear
  rw [hw]
  refine ⟨fun h j hj => h _ (Nat.le_add_right _ _) (Nat.add_lt_add_left hj _), fun h j h₁ h₂ => ?_⟩
  obtain ⟨i, rfl⟩ := Nat.exists_eq_add_of_le h₁
  exact h i (Nat.lt_of_add_lt_add_left h₂)

theorem legal_plain {o : PoolOp α} {r : o.Ans} (ho : plain o s = some (r, t)) :
    t.blocked = s.blocked ∧ s.waits ≤ t.waits ∧ (legal o s = true ↔ o.inside = true ∧ Clear s t) := by
  have hsame : ∀ {t : PageStore α}, t.waits = s.waits → Clear s t := fun hw j h₁ h₂ => absurd h₁ (by omega)
  cases o with
  | latch p op =>
      cases ho
      refine ⟨rfl, Nat.le_add_right _ _, ?_⟩
      cases hf : s.freed with
      | false => simp [legal, PoolOp.inside, Clear, hf]; intros; omega
      | true =>
          simp only [legal, PoolOp.inside, Clear, hf, Bool.true_and, Bool.not_eq_true', true_and, Bool.toNat_true]
          exact ⟨fun hb j h₁ h₂ => (show j = s.waits by omega) ▸ hb, fun h => h _ (Nat.le_refl _) (Nat.lt_succ_self _)⟩
  | setData p data =>
      cases ho
      exact ⟨rfl, Nat.le_refl _, (and_iff_left (hsame rfl)).symm⟩
  | pageSetPageId i =>
      obtain ⟨p, _, hp⟩ := Option.map_eq_some_iff.mp ho
      cases hp
      exact ⟨rfl, Nat.le_refl _, iff_of_true rfl ⟨rfl, hsame rfl⟩⟩
  | _ =>
      cases ho
      exact ⟨rfl, Nat.le_refl _, iff_of_true rfl ⟨rfl, hsame rfl⟩⟩

/-- A run is legal if it writes no page past its end and no latch of it is blocked. -/
theorem always_legal_iff {p : Prog (PoolOp α) PoolOp.Ans β} {b : β} (hr : run plain p s = some (b, t)) :
    s.waits ≤ t.waits ∧ t.blocked = s.blocked ∧ (Always plain (fun o s => legal o s = true) p s ↔
      Always plain (fun o _ => o.inside = true) p s ∧ Clear s t) := by
  induction p generalizing s with
  | ret a =>
      cases hr
      exact ⟨Nat.le_refl _, rfl, iff_of_true trivial ⟨trivial, fun j h₁ h₂ => absurd h₁ (Nat.not_le.mpr h₂)⟩⟩
  | call o k ih =>
      unfold run at hr
      cases ho : plain o s with
      | none =>
          rw [ho] at hr
          cases hr
      | some y =>
          rw [ho] at hr
          obtain ⟨hb, hle, hlegal⟩ := legal_plain (show plain o s = some (y.1, y.2) from ho)
          obtain ⟨hle', hb', hrest⟩ := ih y.1 hr
          have hnext : ∀ {P : PoolOp α → PageStore α → Prop}, (∀ r t, plain o s = some (r, t) → Always plain P (k r) t) ↔
              Always plain P (k y.1) y.2 := by
            refine ⟨fun h => h _ _ ho, fun h r t hr => ?_⟩
            cases ho.symm.trans hr
            exact h
          refine ⟨Nat.le_trans hle hle', hb'.trans hb, ?_⟩
          rw [Always, Always, hnext, hnext, hrest, hlegal]
          unfold Clear
          rw [hb]
          constructor
          · rintro ⟨⟨hin, h₁⟩, hins, h₂⟩
            refine ⟨⟨hin, hins⟩, fun j hj hjt => ?_⟩
            by_cases hj' : j < y.2.waits
            · exact h₁ j hj hj'
            · exact h₂ j (Nat.not_lt.mp hj') hjt
          · rintro ⟨⟨hin, hins⟩, h⟩
            exact ⟨⟨hin, fun j hj hjt => h j hj (Nat.lt_of_lt_of_le hjt hle')⟩, hins,
              fun j hj hjt => h j (Nat.le_trans hle hj) hjt⟩

/-- A method that stays inside of the pages returns as it does when no latch waits, if none
of its latches is blocked, and does not return otherwise. -/
theorem returns_iff {m : PageM α β} {b : β} (hr : Returns plain m s b t)
    (hin : Always plain (fun o _ => o.inside = true) m.run s) (b' : β) (t' : PageStore α) :
    Returns handler m s b' t' ↔ (b' = b ∧ t' = t) ∧ Clear s t := by
  unfold Returns handler
  rw [run_guard, (always_legal_iff hr).2.2, and_iff_right hin]
  refine and_congr_left fun _ => ⟨fun h => ?_, ?_⟩
  · cases Option.some.inj (h.symm.trans hr)
    exact ⟨rfl, rfl⟩
  · rintro ⟨rfl, rfl⟩
    exact hr

end PageStore

end DBPlayground.Storage
