import DBPlayground.Query.SourcesAgree

namespace DBPlayground.RowCodec

open ByteReader Table
open Format (InRange projectRow)

variable {schema : Schema} {row : List Value} {blob : Bytes} {projection : List Int} {cols : List Column}

section Prefixes

theorem extends_readField (place : String) (type : FieldType) : Extends (readField place type) := by
  have hfixed : ∀ (n : Nat) (f : Bytes → Value),
      Extends (do let p ← raw (truncated place) n; pure (f p) : Reader Exn Value) :=
    fun n f => (Extends.raw _ n).bind fun p => Extends.pure (f p)
  have hvar : Extends (do
      let len ← raw (truncated place) 4
      let s ← raw (truncated place) (leNat len)
      pure (.string s) : Reader Exn Value) :=
    (Extends.raw _ 4).bind fun len => hfixed (leNat len) Value.string
  cases type with
  | string | blob => exact hvar
  | invalid | unknown c =>
      intro s rest a t h
      cases h
  | _ => exact hfixed _ _

theorem extends_readRow (place : String) (schema : Schema) : Extends (readRow place schema) := by
  induction schema with
  | nil => exact Extends.pure []
  | cons f fs ih =>
      exact (extends_readField place f.type).bind fun v => ih.bind fun row => Extends.pure (v :: row)

theorem exists_encodeField {type : FieldType} {v : Value} (ht : v.hasType type = true) :
    ∃ b, encodeField type v = .ok b := by
  cases type with
  | invalid | unknown c => cases v <;> cases ht
  | _ => exact ⟨_, rfl⟩

/-- A row of matching types is encoded, and read back from the front of any
bytes that start with its encoding. -/
theorem reads_readRow (place : String) (ht : Typed schema row) (hs : ∀ v ∈ row, v.asString.length < 2 ^ 32) :
    ∃ b, encodeFields schema row = .ok b ∧ Reads (readRow place schema) b row := by
  induction ht with
  | nil => exact ⟨[], rfl, Reads.pure []⟩
  | @cons f v fs row hv _ ih =>
      obtain ⟨b₁, h₁⟩ := exists_encodeField hv
      obtain ⟨b₂, h₂, hread⟩ := ih fun u hu => hs u (List.mem_cons_of_mem v hu)
      refine ⟨b₁ ++ b₂, Except.bind_ok.mpr ⟨b₁, h₁, Except.bind_ok.mpr ⟨b₂, h₂, rfl⟩⟩, ?_⟩
      exact (readField_encodeField hv h₁ (hs v List.mem_cons_self)).bind (hread.map fun row => v :: row)

end Prefixes

section Projected

theorem raw_ok_congr {ε : Type} {e₁ e₂ : ε} {n : Nat} {s : Bytes} {x : Bytes × Bytes} (h : raw e₁ n s = .ok x) :
    raw e₂ n s = .ok x := by
  unfold raw at h ⊢
  split at h
  · next hn => rw [if_pos hn, h]
  · cases h

theorem readField_ok_congr {place place' : String} {type : FieldType} {s : Bytes} {x : Value × Bytes}
    (h : readField place type s = .ok x) : readField place' type s = .ok x := by
  have hfixed : ∀ {n : Nat} {f : Bytes → Value} {s : Bytes} {x : Value × Bytes},
      (do let p ← raw (truncated place) n; pure (f p) : Reader Exn Value) s = .ok x →
      (do let p ← raw (truncated place') n; pure (f p) : Reader Exn Value) s = .ok x := by
    intro n f s x h
    obtain ⟨p, t, hp, h⟩ := run_bind_ok.mp h
    exact run_bind_ok.mpr ⟨p, t, raw_ok_congr hp, h⟩
  have hvar : (do
      let len ← raw (truncated place) 4
      let s ← raw (truncated place) (leNat len)
      pure (.string s) : Reader Exn Value) s = .ok x →
      (do
      let len ← raw (truncated place') 4
      let s ← raw (truncated place') (leNat len)
      pure (.string s) : Reader Exn Value) s = .ok x := by
    intro h
    obtain ⟨len, t, hlen, h⟩ := run_bind_ok.mp h
    exact run_bind_ok.mpr ⟨len, t, raw_ok_congr hlen, hfixed h⟩
  cases type with
  | string | blob => exact hvar h
  | invalid | unknown c => cases h
  | _ => exact hfixed h

theorem readRow_ok_congr {place place' : String} {s : Bytes} {x : List Value × Bytes}
    (h : readRow place schema s = .ok x) : readRow place' schema s = .ok x := by
  induction schema generalizing s x with
  | nil => exact h
  | cons f fs ih =>
      obtain ⟨v, t, hv, h⟩ := run_bind_ok.mp h
      obtain ⟨row, u, hrow, h⟩ := run_bind_ok.mp h
      exact run_bind_ok.mpr ⟨v, t, readField_ok_congr hv, run_bind_ok.mpr ⟨row, u, ih hrow, h⟩⟩

theorem decodeFields_ok {pos : Nat → Option Nat} {i : Nat} {s t : Bytes} {cols' : List Column} :
    decodeFields pos i schema cols s = .ok (cols', t) ↔
      ∃ row, readRow "DecodeInto" schema s = .ok (row, t) ∧ cols' = appendFields pos i row cols := by
  induction schema generalizing s i cols with
  | nil =>
      constructor
      · intro h
        cases h
        exact ⟨[], rfl, rfl⟩
      · rintro ⟨row, h, rfl⟩
        cases h
        rfl
  | cons f fs ih =>
      constructor
      · intro h
        obtain ⟨v, u, hv, h⟩ := run_bind_ok.mp h
        obtain ⟨row, hrow, rfl⟩ := ih.mp h
        exact ⟨v :: row, run_bind_ok.mpr ⟨v, u, hv, run_bind_ok.mpr ⟨row, t, hrow, rfl⟩⟩, rfl⟩
      · rintro ⟨row, h, rfl⟩
        obtain ⟨v, u, hv, h⟩ := run_bind_ok.mp h
        obtain ⟨rest, w, hrest, h⟩ := run_bind_ok.mp h
        cases h
        exact run_bind_ok.mpr ⟨v, u, hv, ih.mpr ⟨rest, hrest, rfl⟩⟩

theorem decode_ok : decode schema blob = .ok row ↔ ∃ t, readRow "Decode" schema blob = .ok (row, t) := by
  constructor
  · intro h
    obtain ⟨⟨row', t⟩, hr, h⟩ := Except.bind_ok.mp h
    cases h
    exact ⟨t, hr⟩
  · rintro ⟨t, h⟩
    exact Except.bind_ok.mpr ⟨(row, t), h, rfl⟩

theorem decodeInto_ok {cols' : List Column} : decodeInto schema blob projection cols = .ok cols' ↔
    ∃ row, decode schema blob = .ok row ∧ cols' = appendFields (outPos projection) 0 row cols := by
  constructor
  · intro h
    obtain ⟨⟨cols'', t⟩, hr, h⟩ := Except.bind_ok.mp h
    cases h
    obtain ⟨row, hrow, heq⟩ := decodeFields_ok.mp hr
    exact ⟨row, decode_ok.mpr ⟨t, readRow_ok_congr hrow⟩, heq⟩
  · rintro ⟨row, h, rfl⟩
    obtain ⟨t, hrow⟩ := decode_ok.mp h
    exact Except.bind_ok.mpr ⟨(_, t), decodeFields_ok.mpr ⟨row, readRow_ok_congr hrow, rfl⟩, rfl⟩

theorem length_of_decode (h : decode schema blob = .ok row) : row.length = schema.length := by
  obtain ⟨t, h⟩ := decode_ok.mp h
  induction schema generalizing blob row with
  | nil =>
      cases h
      rfl
  | cons f fs ih =>
      obtain ⟨v, u, _, h⟩ := run_bind_ok.mp h
      obtain ⟨rest, w, hrest, h⟩ := run_bind_ok.mp h
      cases h
      rw [List.length_cons, List.length_cons, ih (decode_ok.mpr ⟨_, hrest⟩) hrest]

theorem error_iff {ε α : Type} {x : Except ε α} : (∃ e, x = .error e) ↔ ∀ a, x ≠ .ok a := by
  cases x with
  | error e => simp
  | ok a => simp

/-- `DecodeInto` fails where `Decode` does, and otherwise adds to each column
the field that the projection names for it. -/
theorem decodeInto_projects (hproj : InRange schema projection) (hnd : projection.Nodup)
    (hlen : cols.length = projection.length) :
    ((∃ e, decodeInto schema blob projection cols = .error e) ↔ ∃ e, decode schema blob = .error e) ∧
      ∀ row, decode schema blob = .ok row → ∃ cols', decodeInto schema blob projection cols = .ok cols' ∧
        cols'.length = cols.length ∧ ∀ (k : Nat) field, projection[k]? = some field →
          ∃ col v, cols[k]? = some col ∧ row[field.toNat]? = some v ∧ cols'[k]? = some (col.appendValue v) := by
  constructor
  · rw [error_iff, error_iff]
    constructor
    · intro h row hrow
      exact h _ (decodeInto_ok.mpr ⟨row, hrow, rfl⟩)
    · intro h cols' hcols
      obtain ⟨row, hrow, _⟩ := decodeInto_ok.mp hcols
      exact h row hrow
  · intro row hrow
    have hget := fun k => RowTableSource.getElem?_appendFields (outPos projection) k 0 row cols
    refine ⟨_, decodeInto_ok.mpr ⟨row, hrow, rfl⟩, ?_, ?_⟩
    · refine Nat.le_antisymm ?_ ?_
      · rw [← List.getElem?_eq_none_iff, hget, List.getElem?_eq_none (Nat.le_refl _)]
        rfl
      · rw [← List.getElem?_eq_none_iff, ← Option.map_eq_none_iff, ← hget, List.getElem?_eq_none (Nat.le_refl _)]
    · intro k field hfield
      have hk : k < cols.length := by
        rw [hlen]
        exact (List.getElem?_eq_some_iff.mp hfield).1
      obtain ⟨h0, hlt⟩ := hproj field (List.mem_of_getElem? hfield)
      rw [← length_of_decode hrow] at hlt
      have hlast : outPos projection field.toNat = some k :=
        Query.outPos_of_nodup hnd (by rw [hfield, Int.toNat_of_nonneg h0])
      refine ⟨cols[k], row[field.toNat], List.getElem?_eq_getElem hk, List.getElem?_eq_getElem hlt, ?_⟩
      rw [hget, List.getElem?_eq_getElem hk, RowTableSource.picked_last hlast, List.getElem?_eq_getElem hlt]
      rfl

/-- The second of three fields, from nine bytes and from too few of them. -/
theorem decodeInto_projects_middle :
    ((∃ e, decodeInto [⟨[], .bool⟩, ⟨[], .int32⟩, ⟨[], .string⟩] [1, 7, 0, 0, 0, 0, 0, 0] [1] [Column.new .int32] =
        .error e) ↔ ∃ e, decode [⟨[], .bool⟩, ⟨[], .int32⟩, ⟨[], .string⟩] [1, 7, 0, 0, 0, 0, 0, 0] = .error e) ∧
      ∃ cols', decodeInto [⟨[], .bool⟩, ⟨[], .int32⟩, ⟨[], .string⟩] [1, 7, 0, 0, 0, 0, 0, 0, 0] [1]
        [Column.new .int32] = .ok cols' ∧ cols'[0]? = some ((Column.new .int32).appendValue (.int32 7)) := by
  have hproj : InRange [⟨[], .bool⟩, ⟨[], .int32⟩, ⟨[], .string⟩] [1] := by
    unfold InRange
    decide
  refine ⟨(decodeInto_projects hproj (by decide) rfl).1, ?_⟩
  have hdecode : decode [⟨[], .bool⟩, ⟨[], .int32⟩, ⟨[], .string⟩] [1, 7, 0, 0, 0, 0, 0, 0, 0] =
      .ok [.bool true, .int32 7, .string []] := rfl
  obtain ⟨cols', hcols, _, hk⟩ := (decodeInto_projects hproj (by decide)
    (show [Column.new .int32].length = 1 from rfl)).2 _ hdecode
  obtain ⟨col, v, hcol₀, hv, hcol⟩ := hk 0 1 rfl
  cases hcol₀
  cases hv
  exact ⟨cols', hcols, hcol⟩

end Projected

/-- A row is decoded from its encoding, and from no part of it, whole or
through a projection. -/
theorem decode_encode_row (ht : Typed schema row) (hs : ∀ v ∈ row, v.asString.length < 2 ^ 32) :
    ∃ b, encode schema row = .ok b ∧ decode schema b = .ok row ∧ ∀ p, p <+: b → p ≠ b →
      (∃ e, decode schema p = .error e) ∧
        ∀ projection cols, InRange schema projection → projection.Nodup → cols.length = projection.length →
          ∃ e, decodeInto schema p projection cols = .error e := by
  obtain ⟨b, hb, hread⟩ := reads_readRow "Decode" ht hs
  have hfails : ∀ p, p <+: b → p ≠ b → ∃ e, decode schema p = .error e := by
    intro p hp hne
    refine error_iff.mpr ?_
    intro row' hrow
    obtain ⟨t, h⟩ := decode_ok.mp hrow
    exact hread.fails_on_part (extends_readRow _ _) hp hne _ h
  refine ⟨b, Except.bind_ok.mpr ⟨(), throwIf_ok.mpr fun hne => hne ht.length_eq.symm, hb⟩, ?_, ?_⟩
  · have h := hread []
    rw [List.append_nil] at h
    exact decode_ok.mpr ⟨[], h⟩
  · intro p hp hne
    refine ⟨hfails p hp hne, ?_⟩
    intro projection cols _ _ _
    refine error_iff.mpr ?_
    intro cols' hcols
    obtain ⟨row', hrow, _⟩ := decodeInto_ok.mp hcols
    exact error_iff.mp (hfails p hp hne) row' hrow

theorem decode_encode_pair :
    ∃ b, encode [⟨[], .string⟩, ⟨[], .int32⟩] [.string [5], .int32 7] = .ok b ∧
      decode [⟨[], .string⟩, ⟨[], .int32⟩] b = .ok [.string [5], .int32 7] ∧ ∀ p, p <+: b → p ≠ b →
        (∃ e, decode [⟨[], .string⟩, ⟨[], .int32⟩] p = .error e) ∧
          ∀ projection cols, InRange [⟨[], .string⟩, ⟨[], .int32⟩] projection → projection.Nodup →
            cols.length = projection.length →
            ∃ e, decodeInto [⟨[], .string⟩, ⟨[], .int32⟩] p projection cols = .error e :=
  decode_encode_row (.cons rfl (.cons rfl .nil)) (by decide)

end DBPlayground.RowCodec
