import DBPlayground.Table.RowTableSource

namespace DBPlayground.RowTableSource

open ByteReader Table Cursor RowCodec

def picked (pos : Nat → Option Nat) (k i : Nat) (row : List Value) : List Value :=
  (row.zipIdx i).filterMap fun p => if pos p.2 = some k then some p.1 else none

theorem getElem?_appendAt (pos : Option Nat) (v : Value) (cols : List Column) (k : Nat) :
    (appendAt pos v cols)[k]? = if pos = some k then cols[k]?.map (·.appendValue v) else cols[k]? := by
  cases pos with
  | none => rfl
  | some j =>
      rw [appendAt, List.getElem?_modify]
      by_cases h : j = k
      · subst h
        simp
      · simp [h]

theorem getElem?_appendFields (pos : Nat → Option Nat) (k i : Nat) (row : List Value) (cols : List Column) :
    (appendFields pos i row cols)[k]? = cols[k]?.map (·.appendAll (picked pos k i row)) := by
  induction row generalizing i cols with
  | nil =>
      rw [appendFields, picked, List.zipIdx_nil, List.filterMap_nil]
      simp [Column.appendAll]
  | cons v row ih =>
      rw [appendFields, ih, getElem?_appendAt]
      by_cases h : pos i = some k
      · have hp : picked pos k i (v :: row) = v :: picked pos k (i + 1) row := by
          rw [picked, List.zipIdx_cons, List.filterMap_cons, if_pos h]
          rfl
        rw [if_pos h, hp, Option.map_map]
        rfl
      · have hp : picked pos k i (v :: row) = picked pos k (i + 1) row := by
          rw [picked, List.zipIdx_cons, List.filterMap_cons, if_neg h]
          rfl
        rw [if_neg h, hp]

theorem outPos_append_singleton (projection : List Int) (field : Int) (i : Nat) :
    outPos (projection ++ [field]) i = if field = (i : Int) then some projection.length else outPos projection i := by
  rw [outPos, List.zipIdx_append, List.foldl_append]
  simp [outPos]

theorem outPos_eq_some_iff {projection : List Int} {i k : Nat} :
    outPos projection i = some k ↔
      projection[k]? = some (i : Int) ∧ ∀ j, k < j → projection[j]? ≠ some (i : Int) := by
  induction projection using List.reverseRecOn with
  | nil => simp [outPos]
  | append_singleton projection field ih =>
      rw [outPos_append_singleton]
      by_cases hf : field = (i : Int)
      · subst hf
        rw [if_pos rfl, Option.some.injEq]
        constructor
        · rintro rfl
          refine ⟨by simp, ?_⟩
          intro j hj
          rw [List.getElem?_eq_none (by simp; omega)]
          exact nofun
        · rintro ⟨hk, hlast⟩
          have hlt := (List.getElem?_eq_some_iff.mp hk).1
          rw [List.length_append, List.length_singleton] at hlt
          by_contra hne
          exact hlast projection.length (by omega) (by simp)
      · rw [if_neg hf, ih]
        have hget : ∀ j : Nat, (projection ++ [field])[j]? = some (i : Int) ↔ projection[j]? = some (i : Int) := by
          intro j
          rcases Nat.lt_trichotomy j projection.length with hj | rfl | hj
          · rw [List.getElem?_append_left hj]
          · simp [hf]
          · rw [List.getElem?_eq_none (by simp; omega), List.getElem?_eq_none (by omega)]
        simp only [hget, ne_eq]

theorem picked_eq {pos : Nat → Option Nat} {k m : Nat} (h : ∀ j, pos j = some k ↔ j = m) (i : Nat)
    (row : List Value) (hi : i ≤ m) : picked pos k i row = row[m - i]?.toList := by
  induction row generalizing i with
  | nil => rfl
  | cons v row ih =>
      rw [picked, List.zipIdx_cons, List.filterMap_cons]
      by_cases hm : i = m
      · subst hm
        have hrest : (row.zipIdx (i + 1)).filterMap (fun p => if pos p.2 = some k then some p.1 else none) = [] := by
          refine List.filterMap_eq_nil_iff.mpr ?_
          rintro ⟨w, j⟩ hw
          have hj := List.le_snd_of_mem_zipIdx hw
          have hne : pos j ≠ some k := fun he => by
            have := (h j).mp he
            omega
          exact if_neg hne
        rw [if_pos ((h i).mpr rfl), Nat.sub_self, hrest]
        rfl
      · rw [if_neg (fun he => hm ((h i).mp he))]
        show picked pos k (i + 1) row = _
        rw [ih (i + 1) (by omega), show m - i = (m - (i + 1)) + 1 by omega, List.getElem?_cons_succ]

theorem picked_none {pos : Nat → Option Nat} {k : Nat} (h : ∀ j, pos j ≠ some k) (i : Nat) (row : List Value) :
    picked pos k i row = [] := by
  refine List.filterMap_eq_nil_iff.mpr ?_
  rintro ⟨w, j⟩ _
  exact if_neg (h j)

def columnOf (rows : List (List Value)) (k : Nat) : List Value := rows.filterMap (·[k]?)

theorem picked_last {projection : List Int} {k m : Nat} (h : outPos projection m = some k) (row : List Value) :
    picked (outPos projection) k 0 row = row[m]?.toList := by
  have huniq : ∀ j, outPos projection j = some k ↔ j = m := by
    intro j
    constructor
    · intro hj
      have hjm := (outPos_eq_some_iff.mp hj).1.symm.trans (outPos_eq_some_iff.mp h).1
      exact Int.ofNat.inj (Option.some.inj hjm)
    · rintro rfl
      exact h
  rw [picked_eq huniq 0 row (Nat.zero_le m), Nat.sub_zero]

theorem picked_hidden {projection : List Int} {k m : Nat} (hk : projection[k]? = some (m : Int))
    (h : outPos projection m ≠ some k) (row : List Value) : picked (outPos projection) k 0 row = [] := by
  refine picked_none ?_ 0 row
  intro j hj
  have hjm := (outPos_eq_some_iff.mp hj).1.symm.trans hk
  rw [Int.ofNat.inj (Option.some.inj hjm)] at hj
  exact h hj

/-- The entries hold the encodings of the rows, each small enough for a
length of 32 bits. -/
def Encodes (schema : Schema) (entries : List (Bytes × Bytes)) (rows : List (List Value)) : Prop :=
  List.Forall₂ (fun kv row => Typed schema row ∧ encode schema row = .ok kv.2 ∧ kv.2.length < 2 ^ 32) entries rows

variable {src : Source} {entries : List (Bytes × Bytes)} {rows : List (List Value)}

theorem fillBatch_encodes (h : Encodes src.schema entries rows) (n : Nat) (cols : List Column) :
    ∃ cols', fillBatch src entries n cols = (.ok (cols', n + (rows.take (src.batchRows.toNat - n)).length),
        entries.drop (src.batchRows.toNat - n)) ∧
      ∀ k : Nat, cols'[k]? = cols[k]?.map
        (·.appendAll ((rows.take (src.batchRows.toNat - n)).flatMap (picked (outPos src.projection) k 0))) := by
  induction h generalizing n cols with
  | nil =>
      refine ⟨cols, by simp [fillBatch], ?_⟩
      intro k
      simp [Column.appendAll]
  | @cons kv row entries rows hkv _ ih =>
      obtain ⟨ht, hb, hs⟩ := hkv
      by_cases hn : n < src.batchRows.toNat
      · obtain ⟨cols', hfill, hcols'⟩ := ih (n + 1) (appendFields (outPos src.projection) 0 row cols)
        have hsub : src.batchRows.toNat - n = (src.batchRows.toNat - (n + 1)) + 1 := by omega
        refine ⟨cols', ?_, ?_⟩
        · rw [fillBatch, if_pos hn, decodeInto_typed _ _ ht hb hs]
          dsimp only
          rw [hfill, hsub, List.take_succ_cons, List.length_cons, List.drop_succ_cons, Nat.add_right_comm n 1]
          rfl
        · intro k
          rw [hcols' k, getElem?_appendFields, Option.map_map, hsub, List.take_succ_cons, List.flatMap_cons]
          refine congrArg (fun f => Option.map f cols[k]?) ?_
          funext c
          rw [Function.comp_apply, Column.appendAll, Column.appendAll, Column.appendAll, List.foldl_append]
      · have hsub : src.batchRows.toNat - n = 0 := by omega
        refine ⟨cols, ?_, ?_⟩
        · rw [fillBatch, if_neg hn, hsub]
          rfl
        · intro k
          rw [hsub]
          simp [Column.appendAll]

end DBPlayground.RowTableSource
