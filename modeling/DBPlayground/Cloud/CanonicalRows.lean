import DBPlayground.Cloud.RecordsExact
import DBPlayground.Cloud.TornWals
import DBPlayground.Query.RowDecoding
import Mathlib.Algebra.BigOperators.Group.List.Basic

namespace DBPlayground.RowCodec

open ByteReader Table

variable {schema : Schema} {row : List Value} {rows : List (List Value)}

section Blobs

def fieldSize (type : FieldType) (blob : Bytes) : Nat :=
  match type with
  | .int32 | .float => 4
  | .int64 | .double => 8
  | .bool => 1
  | .string | .blob => 4 + leNat (blob.take 4)
  | .invalid | .unknown _ => 0

/-- A flag is stored as 0 or 1, and a float is no signaling NaN. -/
def CanonicalField (type : FieldType) (blob : Bytes) : Prop :=
  match type with
  | .bool => blob.head? = some 0 ∨ blob.head? = some 1
  | .float => signaling (BitVec.ofNat 32 (leNat (blob.take 4))) = false
  | _ => True

/-- The blob ends with its last field, and its fields are canonical. -/
def CanonicalRow : Schema → Bytes → Prop
  | [], blob => blob = []
  | f :: fs, blob => CanonicalField f.type blob ∧ CanonicalRow fs (blob.drop (fieldSize f.type blob))

theorem raw_ok {ε : Type} {e : ε} {n : Nat} {s p t : Bytes} (h : raw e n s = .ok (p, t)) :
    n ≤ s.length ∧ p = s.take n ∧ t = s.drop n := by
  unfold raw at h
  split at h
  · next hn =>
      cases h
      exact ⟨hn, rfl, rfl⟩
  · cases h

theorem leBytes_ofNat_leNat {w k : Nat} {p : Bytes} (hw : 2 ^ w = 256 ^ k) (hp : p.length = k) :
    leBytes k (BitVec.ofNat w (leNat p)).toNat = p := by
  have hlt : leNat p < 2 ^ w := by
    rw [hw, ← hp]
    exact leNat_lt p
  rw [BitVec.toNat_ofNat, Nat.mod_eq_of_lt hlt, ← hp, leBytes_leNat]

theorem float_stored {p : Bytes} (hp : p.length = 4) :
    leBytes 4 (quieted (BitVec.ofNat 32 (leNat p))).toNat = p ↔ signaling (BitVec.ofNat 32 (leNat p)) = false := by
  rw [← quieted_eq_iff]
  constructor
  · intro h
    have hbits := congrArg (fun p => BitVec.ofNat 32 (leNat p)) h
    rwa [ofNat_leNat_leBytes _ (by decide)] at hbits
  · intro h
    rw [h]
    exact leBytes_ofNat_leNat (by decide) hp

theorem flag_stored {s : Bytes} (hs : 1 ≤ s.length) :
    leBytes 1 (if decide (leNat (s.take 1) ≠ 0) = true then 1 else 0) = s.take 1 ↔
      s.head? = some 0 ∨ s.head? = some 1 := by
  obtain ⟨b, bs, rfl⟩ := List.exists_cons_of_length_pos hs
  have hb : leNat [b] = b.toNat := by simp [leNat]
  simp only [List.take_succ_cons, List.take_zero, hb, List.head?_cons, Option.some.injEq]
  by_cases h0 : b.toNat = 0
  · have hzero : b = 0 := BitVec.eq_of_toNat_eq h0
    subst hzero
    decide
  · have hne : b ≠ 0 := fun h => h0 (congrArg BitVec.toNat h)
    simp only [h0, ne_eq, not_false_iff, decide_true, if_true, hne, false_or, leBytes, List.cons.injEq, and_true]
    exact eq_comm

/-- A field that was read encodes to as many bytes as it was read from, and to
the same ones unless it is a flag stored as something else than 0 or 1, or a
signaling NaN. -/
theorem readField_ok {place : String} {type : FieldType} {s t : Bytes} {v : Value}
    (h : readField place type s = .ok (v, t)) : v.hasType type = true ∧
      t = s.drop (fieldSize type s) ∧ fieldSize type s ≤ s.length ∧ v.asString.length ≤ fieldSize type s ∧
      ∃ c, encodeField type v.viaDouble = .ok c ∧ c.length = fieldSize type s ∧
        (c = s.take (fieldSize type s) ↔ CanonicalField type s) := by
  have hfixed : ∀ {n : Nat} {f : Bytes → Value},
      (do let p ← raw (truncated place) n; pure (f p) : Reader Exn Value) s = .ok (v, t) →
        n ≤ s.length ∧ v = f (s.take n) ∧ t = s.drop n := by
    intro n f h
    obtain ⟨p, u, hp, h⟩ := run_bind_ok.mp h
    cases h
    obtain ⟨hn, rfl, rfl⟩ := raw_ok hp
    exact ⟨hn, rfl, rfl⟩
  have hvar : (do
      let len ← raw (truncated place) 4
      let s ← raw (truncated place) (leNat len)
      pure (.string s) : Reader Exn Value) s = .ok (v, t) →
        4 + leNat (s.take 4) ≤ s.length ∧ v = .string ((s.drop 4).take (leNat (s.take 4))) ∧
          t = s.drop (4 + leNat (s.take 4)) := by
    intro h
    obtain ⟨len, u, hlen, h⟩ := run_bind_ok.mp h
    obtain ⟨h4, rfl, rfl⟩ := raw_ok hlen
    obtain ⟨q, w, hq, h⟩ := run_bind_ok.mp h
    cases h
    obtain ⟨hn, rfl, rfl⟩ := raw_ok hq
    rw [List.length_drop] at hn
    exact ⟨by omega, rfl, List.drop_drop⟩
  have hstring : ∀ {k : Nat}, 4 + k ≤ s.length → k = leNat (s.take 4) →
      leBytes 4 ((s.drop 4).take k).length ++ (s.drop 4).take k = s.take (4 + k) := by
    intro k hk hlen
    have h4 : (s.take 4).length = 4 := List.length_take_of_le (by omega)
    have hbytes := leBytes_leNat (s.take 4)
    rw [h4, ← hlen] at hbytes
    rw [List.length_take_of_le (by rw [List.length_drop]; omega), hbytes, List.take_add]
  cases type with
  | invalid | unknown c => cases h
  | int32 | int64 | double =>
      obtain ⟨hn, rfl, rfl⟩ := hfixed h
      refine ⟨rfl, rfl, hn, Nat.zero_le _, _, rfl, length_leBytes _ _, iff_of_true ?_ trivial⟩
      exact leBytes_ofNat_leNat (by decide) (List.length_take_of_le hn)
  | float =>
      obtain ⟨hn, rfl, rfl⟩ := hfixed h
      exact ⟨rfl, rfl, hn, Nat.zero_le _, _, rfl, length_leBytes _ _, float_stored (List.length_take_of_le hn)⟩
  | bool =>
      obtain ⟨hn, rfl, rfl⟩ := hfixed h
      exact ⟨rfl, rfl, hn, Nat.zero_le _, _, rfl, length_leBytes _ _, flag_stored hn⟩
  | string | blob =>
      obtain ⟨hn, rfl, rfl⟩ := hvar h
      have hk : ((s.drop 4).take (leNat (s.take 4))).length = leNat (s.take 4) :=
        List.length_take_of_le (by rw [List.length_drop]; omega)
      refine ⟨rfl, rfl, hn, ?_, _, rfl, ?_, ?_⟩
      · rw [Value.asString, hk, fieldSize]
        omega
      · show (leBytes 4 _ ++ (s.drop 4).take (leNat (s.take 4))).length = _
        rw [List.length_append, length_leBytes, hk]
        rfl
      · exact iff_of_true (hstring hn rfl) trivial

theorem append_eq_iff_of_length {c d s : Bytes} {k : Nat} (hk : c.length = k) :
    c ++ d = s ↔ c = s.take k ∧ d = s.drop k := by
  constructor
  · rintro rfl
    exact ⟨(List.take_left' hk).symm, (List.drop_left' hk).symm⟩
  · rintro ⟨hc, hd⟩
    rw [hc, hd, List.take_append_drop]

theorem readRow_ok {place : String} {s t : Bytes} (h : readRow place schema s = .ok (row, t)) :
    Typed schema row ∧ (row.flatMap Value.asString).length ≤ s.length ∧
      ∃ c, encodeFields schema (row.map Value.viaDouble) = .ok c ∧ (c = s ↔ CanonicalRow schema s) := by
  induction schema generalizing s row with
  | nil =>
      cases h
      exact ⟨.nil, Nat.zero_le _, [], rfl, eq_comm⟩
  | cons f fs ih =>
      obtain ⟨v, u, hv, h⟩ := run_bind_ok.mp h
      obtain ⟨vs, w, hvs, h⟩ := run_bind_ok.mp h
      cases h
      obtain ⟨htype, rfl, hsize, hstring, c, hc, hclen, hciff⟩ := readField_ok hv
      obtain ⟨htyped, hstrings, d, hd, hdiff⟩ := ih hvs
      refine ⟨.cons htype htyped, ?_, c ++ d, Except.bind_ok.mpr ⟨c, hc, Except.bind_ok.mpr ⟨d, hd, rfl⟩⟩, ?_⟩
      · rw [List.length_drop] at hstrings
        rw [List.flatMap_cons, List.length_append]
        omega
      · rw [append_eq_iff_of_length hclen, hciff, hdiff]
        rfl

theorem canonical_of_encode {c : Bytes} (ht : Typed schema row) (hq : row.map Value.viaDouble = row)
    (hc : encode schema row = .ok c) (hs : c.length < 2 ^ 32) : CanonicalRow schema c := by
  obtain ⟨_, _, hc⟩ := Except.bind_ok.mp hc
  have hshort : ∀ v ∈ row, v.asString.length < 2 ^ 32 := by
    intro v hv
    exact Nat.lt_of_le_of_lt (length_asString_le_row ht hc hv) hs
  obtain ⟨b, hb, hread⟩ := reads_readRow "Decode" ht hshort
  rw [hc] at hb
  cases hb
  have hread := hread []
  rw [List.append_nil] at hread
  obtain ⟨_, _, d, hd, hiff⟩ := readRow_ok hread
  rw [hq, hc] at hd
  cases hd
  exact hiff.mp rfl

end Blobs

section Columns

def columnsOf (schema : Schema) (rows : List (List Value)) : List Column :=
  rows.foldl (List.zipWith Column.appendValue) (schema.map (Column.new ·.type))

theorem foldl_zipWith_cons (pairs : List (Value × List Value)) (col : Column) (cols : List Column) :
    (pairs.map fun p => p.1 :: p.2).foldl (List.zipWith Column.appendValue) (col :: cols) =
      (pairs.map Prod.fst).foldl Column.appendValue col ::
        (pairs.map Prod.snd).foldl (List.zipWith Column.appendValue) cols := by
  induction pairs generalizing col cols with
  | nil => rfl
  | cons p pairs ih => exact ih (col.appendValue p.1) (List.zipWith Column.appendValue cols p.2)

theorem columnsOf_cons {f : Field} {fs : Schema} (ht : ∀ row ∈ rows, Typed (f :: fs) row) :
    ∃ pairs : List (Value × List Value), rows = pairs.map (fun p => p.1 :: p.2) ∧
      (∀ v ∈ pairs.map Prod.fst, v.hasType f.type = true) ∧ (∀ row ∈ pairs.map Prod.snd, Typed fs row) ∧
      columnsOf (f :: fs) rows =
        Column.ofValues f.type (pairs.map Prod.fst) :: columnsOf fs (pairs.map Prod.snd) := by
  have hpairs : ∃ pairs : List (Value × List Value), rows = pairs.map (fun p => p.1 :: p.2) ∧
      ∀ p ∈ pairs, p.1.hasType f.type = true ∧ Typed fs p.2 := by
    induction rows with
    | nil => exact ⟨[], rfl, nofun⟩
    | cons row rows ih =>
        obtain ⟨pairs, rfl, hall⟩ := ih fun r hr => ht r (List.mem_cons_of_mem row hr)
        cases ht row List.mem_cons_self with
        | @cons _ v _ vs hv hvs => exact ⟨(v, vs) :: pairs, rfl, List.forall_mem_cons.mpr ⟨⟨hv, hvs⟩, hall⟩⟩
  obtain ⟨pairs, rfl, hall⟩ := hpairs
  refine ⟨pairs, rfl, ?_, ?_, foldl_zipWith_cons pairs _ _⟩
  · intro v hv
    obtain ⟨p, hp, rfl⟩ := List.mem_map.mp hv
    exact (hall p hp).1
  · intro row hrow
    obtain ⟨p, hp, rfl⟩ := List.mem_map.mp hrow
    exact (hall p hp).2

theorem columnsOf_shape (ht : ∀ row ∈ rows, Typed schema row) :
    List.Forall₂ (fun f col => col.type = f.type ∧ col.size = rows.length) schema (columnsOf schema rows) := by
  induction schema generalizing rows with
  | nil =>
      have hnil : columnsOf [] rows = [] := by
        induction rows with
        | nil => rfl
        | cons row rows ih => exact ih fun r hr => ht r (List.mem_cons_of_mem row hr)
      rw [hnil]
      exact .nil
  | cons f fs ih =>
      obtain ⟨pairs, rfl, _, hts, hcols⟩ := columnsOf_cons ht
      rw [hcols, List.length_map]
      refine .cons ⟨Column.type_ofValues, by rw [Column.size_ofValues, List.length_map]⟩ ?_
      simpa only [List.length_map] using ih hts

def textLength (row : List Value) : Nat := (row.flatMap Value.asString).length

theorem cells_columnsOf (ht : ∀ row ∈ rows, Typed schema row) (hlen : (rows.map textLength).sum < 2 ^ 32)
    {r : Nat} (hr : r < rows.length) :
    List.Forall₂ (fun col v => WalCodec.cell col r = .ok v) (columnsOf schema rows) (rows[r].map Value.viaDouble) := by
  induction schema generalizing rows with
  | nil =>
      rw [List.forall₂_nil_left_iff.mp (columnsOf_shape ht), List.forall₂_nil_left_iff.mp (ht _ (List.getElem_mem hr))]
      exact .nil
  | cons f fs ih =>
      obtain ⟨pairs, rfl, htf, hts, hcols⟩ := columnsOf_cons ht
      rw [List.length_map] at hr
      have hsum : ((pairs.map Prod.fst).map fun v => v.asString.length).sum +
          ((pairs.map Prod.snd).map textLength).sum < 2 ^ 32 := by
        rw [List.map_map, List.map_map, ← List.sum_map_add]
        simpa [textLength, Function.comp_def] using hlen
      have hcell : (Column.ofValues f.type (pairs.map Prod.fst)).cell? r = some (pairs[r]).1.viaDouble := by
        rw [Column.cell_ofValues htf (by rw [List.length_flatMap]; omega) (by rwa [List.length_map]), List.getElem_map]
      rw [hcols]
      have htail := ih hts (by omega) (by rwa [List.length_map])
      simp only [List.getElem_map] at htail ⊢
      exact .cons (WalRoundTrip.cell_ok.mpr hcell) htail

end Columns

end DBPlayground.RowCodec

namespace DBPlayground.WalCodec

open ByteReader Table Wire Records WalRoundTrip
open RowCodec (Typed CanonicalRow columnsOf textLength decode)

variable {H : Hashes} {schema : Schema}

section Rows

theorem getRows_ok {n : Nat} {cols cols' : List Column} {s t : Bytes} (hl : cols.length = schema.length)
    (h : getRows schema n cols s = .ok (cols', t)) :
    ∃ blobs rows, times n getString s = .ok (blobs, t) ∧
      List.Forall₂ (fun blob row => decode schema blob = .ok row) blobs rows ∧
      cols' = rows.foldl (List.zipWith Column.appendValue) cols := by
  induction n generalizing cols s with
  | zero =>
      cases h
      exact ⟨[], [], rfl, .nil, rfl⟩
  | succ n ih =>
      obtain ⟨blob, u, hblob, h₁⟩ := run_bind_ok.mp h
      obtain ⟨next, v, hnext, h₂⟩ := run_bind_ok.mp h₁
      obtain ⟨hinto, hv⟩ := fromExcept_run_ok.mp hnext
      obtain ⟨row, hrow, hcols⟩ := RowCodec.decodeInto_ok.mp hinto
      have hrl := RowCodec.length_of_decode hrow
      rw [hv, hcols, columnIds, RowCodec.appendFields_identity hl hrl] at h₂
      obtain ⟨blobs, rows, hblobs, hrows, rfl⟩ := ih (by rw [List.length_zipWith, hl, hrl, Nat.min_self]) h₂
      refine ⟨blob :: blobs, row :: rows, ?_, .cons hrow hrows, rfl⟩
      exact run_bind_ok.mpr ⟨blob, _, hblob, run_bind_ok.mpr ⟨blobs, t, hblobs, rfl⟩⟩

theorem typed_of_blobs {blobs : List Bytes} {rows : List (List Value)}
    (h : List.Forall₂ (fun blob row => decode schema blob = .ok row) blobs rows) :
    (∀ row ∈ rows, Typed schema row) ∧ (rows.map textLength).sum ≤ (blobs.flatMap spellString).length := by
  induction h with
  | nil => exact ⟨nofun, Nat.le_refl _⟩
  | @cons blob row blobs rows hrow _ ih =>
      obtain ⟨t, hread⟩ := RowCodec.decode_ok.mp hrow
      obtain ⟨ht, hlen, _⟩ := RowCodec.readRow_ok hread
      refine ⟨List.forall_mem_cons.mpr ⟨ht, ih.1⟩, ?_⟩
      rw [List.map_cons, List.sum_cons, List.flatMap_cons, List.length_append, spellString, List.length_append,
        textLength]
      have := ih.2
      omega

theorem encode_of_canonical {blob : Bytes} {row : List Value} (h : decode schema blob = .ok row)
    (hc : CanonicalRow schema blob) : RowCodec.encode schema (row.map Value.viaDouble) = .ok blob := by
  obtain ⟨t, hread⟩ := RowCodec.decode_ok.mp h
  obtain ⟨ht, _, c, henc, hiff⟩ := RowCodec.readRow_ok hread
  rw [hiff.mpr hc] at henc
  refine Except.bind_ok.mpr ⟨(), throwIf_ok.mpr fun hne => hne ?_, henc⟩
  rw [List.length_map, ht.length_eq]

theorem isFullSchemaChunk_columnsOf {rows : List (List Value)} (ht : ∀ row ∈ rows, Typed schema row)
    (hn : rows.length ≠ 0) :
    isFullSchemaChunk ⟨columnIds schema, columnsOf schema rows, rows.length⟩ schema = true := by
  have hshape := RowCodec.columnsOf_shape ht
  simp only [isFullSchemaChunk, columnIds, List.length_map, List.length_range, ← hshape.length_eq,
    Bool.and_eq_true, bne_iff_ne, beq_self_eq_true, List.all_eq_true, List.mem_range, beq_iff_eq]
  refine ⟨⟨⟨hn, trivial⟩, trivial⟩, ?_⟩
  intro i hi
  have hi' : i < (columnsOf schema rows).length := by rwa [← hshape.length_eq]
  obtain ⟨htype, hsize⟩ := List.forall₂_iff_get.mp hshape |>.2 i hi hi'
  simp only [List.get_eq_getElem] at htype hsize
  rw [List.getElem?_map, List.getElem?_range hi, List.getElem?_eq_getElem hi, List.getElem?_eq_getElem hi']
  simp [htype, hsize]

theorem chunkEntry_of_canonical {n : Nat} {p : Bytes} {cols : List Column} {blobs : List Bytes}
    (hn0 : n ≠ 0) (hn : n < 2 ^ 32) (hp : p.length < 2 ^ 32)
    (hrows : parse (getRows schema n (schema.map (Column.new ·.type))) p = .ok cols)
    (hblobs : parse (times n getString) p = .ok blobs) (hc : ∀ blob ∈ blobs, CanonicalRow schema blob) :
    chunkEntry schema ⟨columnIds schema, cols, n⟩ = .ok (entry n p.length p) := by
  obtain ⟨blobs', rows, htimes, hdecode, hcols⟩ := getRows_ok (List.length_map _) (parse_ok.mp hrows)
  cases (parse_ok.mp hblobs).symm.trans htimes
  have hspell : p = blobs.flatMap spellString := by
    have h := Spells.times spells_string n htimes
    rwa [List.append_nil] at h
  have hlen : rows.length = n := by rw [← hdecode.length_eq, length_times htimes]
  obtain ⟨ht, htext⟩ := typed_of_blobs hdecode
  rw [← hspell] at htext
  have hcols : cols = columnsOf schema rows := hcols
  subst hcols hlen
  have hvalid : ¬ (isFullSchemaChunk ⟨columnIds schema, columnsOf schema rows, rows.length⟩ schema = false ∨
      rows.length > uint32Max) := by
    rw [isFullSchemaChunk_columnsOf ht hn0]
    simp only [uint32Max, Bool.true_eq_false, false_or]
    omega
  refine Except.bind_ok.mpr ⟨(), throwIf_ok.mpr hvalid, Except.bind_ok.mpr ⟨p, ?_, rfl⟩⟩
  refine putAll_ok.mpr ⟨blobs.map spellString, ?_, by rw [hspell, List.flatMap_def]⟩
  rw [List.forall₂_map_right_iff]
  refine List.forall₂_iff_get.mpr ⟨by rw [List.length_range, hdecode.length_eq], ?_⟩
  intro r hr hr'
  rw [List.length_range] at hr
  simp only [List.get_eq_getElem, List.getElem_range]
  have hblob := (List.forall₂_iff_get.mp hdecode).2 r hr' hr
  simp only [List.get_eq_getElem] at hblob
  have hsize : blobs[r].length < 2 ^ 32 := by
    have hle := (List.sublist_flatten_of_mem
      (List.mem_map_of_mem (f := spellString) (List.getElem_mem hr'))).length_le
    rw [← List.flatMap_def, ← hspell, spellString, List.length_append] at hle
    omega
  refine Except.bind_ok.mpr ⟨rows[r].map Value.viaDouble, mapM_ok.mpr (RowCodec.cells_columnsOf ht (by omega) hr), ?_⟩
  refine Except.bind_ok.mpr ⟨blobs[r], encode_of_canonical hblob (hc _ (List.getElem_mem hr')), ?_⟩
  exact putString_ok.mpr ⟨hsize, rfl⟩

end Rows

end DBPlayground.WalCodec
