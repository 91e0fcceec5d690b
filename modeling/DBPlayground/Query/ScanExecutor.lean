import DBPlayground.Lib.Cursor
import DBPlayground.Table.CheckedColumn

namespace DBPlayground.Query

open ByteReader Table Cursor

variable {σ : Type}

/-- `CollectProjected` on the cursor of a scan, `none` when the fuel runs out
before the cursor's end. -/
def collectProjected (next : Next σ Failure Chunk) : Nat → σ → Option (Except Failure (List (List Value)))
  | 0, _ => none
  | fuel + 1, s =>
    match next s with
    | (.error e, _) => some (.error e)
    | (.ok none, _) => some (.ok [])
    | (.ok (some chunk), s') =>
      match chunk.readRows with
      | .error e => some (.error e)
      | .ok rows => (collectProjected next fuel s').map fun r => r.map (rows ++ ·)

def Collects (next : Next σ Failure Chunk) (s : σ) (result : Except Failure (List (List Value))) : Prop :=
  ∃ fuel, collectProjected next fuel s = some result

variable {next : Next σ Failure Chunk} {s : σ}

theorem collects_of_drains {chunks : List Chunk} (h : Drains next s chunks) {rows : List (List (List Value))}
    (hrows : chunks.mapM Chunk.readRows = .ok rows) : Collects next s (.ok rows.flatten) := by
  induction h generalizing rows with
  | done hn =>
      cases hrows
      exact ⟨1, by rw [collectProjected, hn]; rfl⟩
  | @item s t chunk chunks hn _ ih =>
      rw [mapM_ok] at hrows
      cases hrows with
      | cons hchunk hrest =>
          obtain ⟨fuel, hfuel⟩ := ih (mapM_ok.mpr hrest)
          refine ⟨fuel + 1, ?_⟩
          simp only [collectProjected, hn, hchunk, hfuel]
          rfl

theorem collectProjected_succ {fuel : Nat} {result : Except Failure (List (List Value))}
    (h : collectProjected next fuel s = some result) : collectProjected next (fuel + 1) s = some result := by
  induction fuel generalizing s result with
  | zero => cases h
  | succ fuel ih =>
      rw [collectProjected] at h ⊢
      rcases hn : next s with ⟨_ | _ | chunk, t⟩
      · rw [hn] at h
        exact h
      · rw [hn] at h
        exact h
      · rw [hn] at h
        dsimp only at h ⊢
        rcases hr : chunk.readRows with e | rows
        · rw [hr] at h
          exact h
        · rw [hr] at h
          obtain ⟨r, hr', rfl⟩ := Option.map_eq_some_iff.mp h
          exact Option.map_eq_some_iff.mpr ⟨r, ih hr', rfl⟩

theorem Collects.unique {r r' : Except Failure (List (List Value))} (h : Collects next s r)
    (h' : Collects next s r') : r = r' := by
  have hmono : ∀ {fuel result} (n : Nat), collectProjected next fuel s = some result →
      collectProjected next (fuel + n) s = some result := by
    intro fuel result n hf
    induction n with
    | zero => exact hf
    | succ n ih => exact collectProjected_succ ih
  obtain ⟨f, hf⟩ := h
  obtain ⟨g, hg⟩ := h'
  have h1 := hmono g hf
  have h2 := hmono f hg
  rw [Nat.add_comm] at h2
  exact Option.some.inj (h1.symm.trans h2)

end DBPlayground.Query
