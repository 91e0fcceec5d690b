import DBPlayground.Cloud.CanonicalRows

namespace DBPlayground.WalCodec

open ByteReader Table Wire Records WalRoundTrip
open RowCodec (Typed CanonicalRow)

variable {H : Hashes} {schema : Schema}

section Header

theorem putString_of_get {s t a : Bytes} (h : getString s = .ok (a, t)) :
    putString a = .ok (spellString a) ∧ s = spellString a ++ t := by
  obtain ⟨n, u, hn, hraw⟩ := run_bind_ok.mp h
  have hlt : a.length < 2 ^ 32 := (Spells.raw short n hraw).2 ▸ le_lt hn
  exact ⟨putString_ok.mpr ⟨hlt, rfl⟩, spells_string h⟩

theorem putAll_of_times {n : Nat} {s t : Bytes} {xs : List Bytes} (h : times n getString s = .ok (xs, t)) :
    putAll putString xs = .ok (xs.flatMap spellString) := by
  induction n generalizing s xs with
  | zero =>
      cases h
      rfl
  | succ n ih =>
      obtain ⟨x, u, hx, h⟩ := run_bind_ok.mp h
      obtain ⟨ys, v, hys, h⟩ := run_bind_ok.mp h
      cases h
      exact Except.bind_ok.mpr ⟨_, (putString_of_get hx).1, Except.bind_ok.mpr ⟨_, ih hys, rfl⟩⟩

theorem putStrings_of_get {s t : Bytes} {xs : List Bytes} (h : getStrings s = .ok (xs, t)) :
    putStrings xs = .ok (spellStrings xs) ∧ s = spellStrings xs ++ t := by
  obtain ⟨n, u, hn, htimes⟩ := run_bind_ok.mp h
  have htimes := getBounded_ok htimes
  have hlt : xs.length < 2 ^ 32 := length_times htimes ▸ le_lt hn
  exact ⟨putStrings_ok.mpr ⟨hlt, _, putAll_of_times htimes, rfl⟩, spells_strings h⟩

theorem code_of_kind {s t : Bytes} {kind : WalKind} (h : getKind s = .ok (kind, t)) : s = [kind.code] ++ t := by
  obtain ⟨code, u, hcode, h⟩ := run_bind_ok.mp h
  rw [Spells.byte short hcode]
  split at h
  · next hc =>
      cases h
      rw [hc]
  · split at h
    · next hc =>
        cases h
        rw [hc]
    · cases h

theorem putWalHeader_of_get {s t : Bytes} {wal : SequentialWal} (h : getWalHeader s = .ok (wal, t)) :
    ∃ header, putWalHeader wal = .ok header ∧ putStrings wal.batchIds = .ok (spellStrings wal.batchIds) ∧
      s = header ++ t := by
  obtain ⟨_, _, hmagic, h⟩ := run_bind_ok.mp h
  obtain ⟨kind, _, hkind, h⟩ := run_bind_ok.mp h
  obtain ⟨tableId, _, htable, h⟩ := run_bind_ok.mp h
  obtain ⟨seq, _, hseq, h⟩ := run_bind_ok.mp h
  obtain ⟨epoch, _, hepoch, h⟩ := run_bind_ok.mp h
  obtain ⟨version, _, hversion, h⟩ := run_bind_ok.mp h
  obtain ⟨operation, _, hoperation, h⟩ := run_bind_ok.mp h
  obtain ⟨ids, _, hids, h⟩ := run_bind_ok.mp h
  cases h
  obtain ⟨htable, hs₁⟩ := putString_of_get htable
  obtain ⟨hoperation, hs₂⟩ := putString_of_get hoperation
  obtain ⟨hids, hs₃⟩ := putStrings_of_get hids
  refine ⟨_, Except.bind_ok.mpr ⟨_, htable, Except.bind_ok.mpr ⟨_, hoperation, Except.bind_ok.mpr ⟨_, hids, rfl⟩⟩⟩,
    hids, ?_⟩
  rw [spells_header hmagic, code_of_kind hkind, hs₁, spells_u64 hseq, spells_u64 hepoch, spells_u64 hversion, hs₂,
    hs₃]
  simp only [List.append_assoc]

end Header

section Chunks

/-- The row blobs of the next chunk, whatever its checksum is. -/
def getRowBlobs : Reader Exn (List Bytes) := do
  let rows ← getU32
  let size ← getU32
  let payload ← getRaw size
  let _ ← getU32
  fromExcept (parse (times rows getString) payload)

/-- The blobs in which the bytes of a WAL store its rows. -/
def rowBlobs (bytes : Bytes) : Except Exn (List Bytes) := do
  let r ← (do
    let _ ← getWalHeader
    let count ← getU32
    times count getRowBlobs : Reader Exn (List (List Bytes))) bytes
  pure r.1.flatten

theorem getChunk_ok {s t e : Bytes} {chunk : Chunk} (h : getChunk H schema s = .ok ((e, chunk), t)) :
    s = e ++ (u32 (crc H e) ++ t) ∧ ∃ blobs, getRowBlobs s = .ok (blobs, t) ∧
      ((∀ blob ∈ blobs, CanonicalRow schema blob) → chunkEntry schema chunk = .ok e) := by
  obtain ⟨rows, s₁, hrows, h₁⟩ := run_bind_ok.mp h
  obtain ⟨_, s₂, hempty, h₂⟩ := run_bind_ok.mp h₁
  obtain ⟨hpos, hs₂⟩ := throwIf_run_ok.mp hempty
  rw [hs₂] at h₂
  obtain ⟨size, s₃, hsize, h₃⟩ := run_bind_ok.mp h₂
  obtain ⟨p, s₄, hp, h₄⟩ := run_bind_ok.mp h₃
  obtain ⟨checksum, s₅, hsum, h₅⟩ := run_bind_ok.mp h₄
  obtain ⟨_, s₆, hcheck, h₆⟩ := run_bind_ok.mp h₅
  obtain ⟨hcrc, hs₆⟩ := throwIf_run_ok.mp hcheck
  rw [hs₆] at h₆
  obtain ⟨cols, s₇, hdecode, h₇⟩ := run_bind_ok.mp h₆
  obtain ⟨hcols, hs₇⟩ := fromExcept_run_ok.mp hdecode
  cases h₇
  obtain ⟨hs₄, hlen⟩ := Spells.raw short size hp
  have hplt : p.length < 2 ^ 32 := hlen ▸ le_lt hsize
  obtain ⟨blobs, _, hblobs, _⟩ := getRows_ok (List.length_map _) (parse_ok.mp hcols)
  have hparse := parse_ok.mpr hblobs
  refine ⟨?_, blobs, ?_, ?_⟩
  · rw [spells_u32 hrows, spells_u32 hsize, hs₄, spells_u32 hsum, not_not.mp hcrc, hs₇, entry]
    simp only [List.append_assoc]
  · refine run_bind_ok.mpr ⟨rows, _, hrows, run_bind_ok.mpr ⟨size, _, hsize, run_bind_ok.mpr ⟨p, _, hp, ?_⟩⟩⟩
    exact run_bind_ok.mpr ⟨checksum, _, hsum, fromExcept_run_ok.mpr ⟨hparse, hs₇⟩⟩
  · intro hcanonical
    rw [← hlen]
    exact chunkEntry_of_canonical hpos (le_lt hrows) hplt hcols hparse hcanonical

theorem getChunks_ok {n : Nat} {s t : Bytes} {parts : List (Bytes × Chunk)}
    (h : times n (getChunk H schema) s = .ok (parts, t)) :
    s = (parts.map (·.1)).flatMap (fun e => e ++ u32 (crc H e)) ++ t ∧
      ∃ blobs, times n getRowBlobs s = .ok (blobs, t) ∧
        ((∀ blob ∈ blobs.flatten, CanonicalRow schema blob) →
          List.Forall₂ (fun c e => chunkEntry schema c = .ok e) (parts.map (·.2)) (parts.map (·.1))) := by
  induction n generalizing s parts with
  | zero =>
      cases h
      exact ⟨rfl, [], rfl, fun _ => .nil⟩
  | succ n ih =>
      obtain ⟨⟨e, chunk⟩, u, hchunk, h⟩ := run_bind_ok.mp h
      obtain ⟨rest, v, hrest, h⟩ := run_bind_ok.mp h
      cases h
      obtain ⟨hs, blobs, hblobs, hentry⟩ := getChunk_ok hchunk
      obtain ⟨hu, more, hmore, hentries⟩ := ih hrest
      refine ⟨?_, blobs :: more, run_bind_ok.mpr ⟨blobs, u, hblobs, run_bind_ok.mpr ⟨more, t, hmore, rfl⟩⟩, ?_⟩
      · rw [hs, hu]
        simp only [List.map_cons, List.flatMap_cons, List.append_assoc]
      · intro hc
        rw [List.flatten_cons] at hc
        exact .cons (hentry fun b hb => hc b (List.mem_append_left _ hb))
          (hentries fun b hb => hc b (List.mem_append_right _ hb))

theorem settled_cells {cols : List Column} {r : Nat} {vs : List Value}
    (h : List.Forall₂ (fun col v => cell col r = .ok v) cols vs) : vs.map Value.viaDouble = vs := by
  induction h with
  | nil => rfl
  | cons hv _ ih => rw [List.map_cons, ih, Column.viaDouble_of_cell (cell_ok.mp hv)]

theorem reads_blobs {chunk : Chunk} {p : Bytes} (hf : isFullSchemaChunk chunk schema = true)
    (hp : payload schema chunk = .ok p) :
    ∃ blobs, Reads (times chunk.rowCount getString) p blobs ∧ ∀ blob ∈ blobs, CanonicalRow schema blob := by
  have hall : ∀ {rs : List Nat} {p : Bytes}, putAll (putRow schema chunk) rs = .ok p →
      ∃ blobs, Reads (times rs.length getString) p blobs ∧ ∀ blob ∈ blobs, CanonicalRow schema blob := by
    intro rs
    induction rs with
    | nil =>
        intro p h
        cases h
        exact ⟨[], Reads.pure [], nofun⟩
    | cons r rs ih =>
        intro p h
        obtain ⟨c, hc, h⟩ := Except.bind_ok.mp h
        obtain ⟨cs, hcs, h⟩ := Except.bind_ok.mp h
        cases h
        obtain ⟨vs, e, hv, he, hlen, rfl⟩ := putRow_ok hc
        obtain ⟨blobs, hblobs, hcanonical⟩ := ih hcs
        have htyped := typed_cells (isFullSchemaChunk_types hf) hv
        refine ⟨e :: blobs, (reads_string hlen).bind (hblobs.map fun bs => e :: bs), ?_⟩
        exact List.forall_mem_cons.mpr ⟨RowCodec.canonical_of_encode htyped (settled_cells hv) he hlen, hcanonical⟩
  have h := hall hp
  rwa [List.length_range] at h

theorem reads_rowBlobs {chunks : List Chunk} {entries : List Bytes}
    (h : List.Forall₂ (fun c e => chunkEntry schema c = .ok e) chunks entries)
    (hs : ∀ c ∈ chunks, ∀ p, payload schema c = .ok p → p.length < 2 ^ 32) :
    ∃ blobs, Reads (times chunks.length getRowBlobs) (entries.flatMap fun e => e ++ u32 (crc H e)) blobs ∧
      ∀ blob ∈ blobs.flatten, CanonicalRow schema blob := by
  induction h with
  | nil => exact ⟨[], Reads.pure [], nofun⟩
  | @cons c e chunks entries hc _ ih =>
      obtain ⟨more, hmore, hcmore⟩ := ih (fun d hd => hs d (List.mem_cons_of_mem c hd))
      obtain ⟨hf, hn, p, hp, rfl⟩ := chunkEntry_ok hc
      obtain ⟨blobs, hblobs, hcblobs⟩ := reads_blobs hf hp
      have hfirst : Reads getRowBlobs (entry c.rowCount p.length p ++ u32 (crc H (entry c.rowCount p.length p)))
          blobs := by
        rw [entry, List.append_assoc, List.append_assoc]
        refine (reads_u32 hn).bind ((reads_u32 (hs c List.mem_cons_self p hp)).bind ((reads_raw rfl).bind ?_))
        exact (reads_u32 (BitVec.isLt _)).finish (Reads.fromExcept (parse_of_reads hblobs))
      refine ⟨blobs :: more, hfirst.bind (hmore.map fun bs => blobs :: bs), ?_⟩
      rw [List.flatten_cons]
      intro blob hblob
      rcases List.mem_append.mp hblob with hblob | hblob
      · exact hcblobs blob hblob
      · exact hcmore blob hblob

end Chunks

theorem getWalContents_ok {b rest : Bytes} {w : SequentialWal} (h : getWalContents H schema b = .ok (w, rest)) :
    ∃ header ids entries blobs, putWalHeader w = .ok header ∧ putStrings w.batchIds = .ok ids ∧
      w.chunks.length ≤ 1000000 ∧ b = walBody H header ids w entries ++ rest ∧ rowBlobs b = .ok blobs ∧
      ((∀ blob ∈ blobs, CanonicalRow schema blob) →
        List.Forall₂ (fun c e => chunkEntry schema c = .ok e) w.chunks entries) := by
  obtain ⟨head, s₁, hhead, h₁⟩ := run_bind_ok.mp h
  obtain ⟨count, s₂, hcount, h₂⟩ := run_bind_ok.mp h₁
  obtain ⟨_, s₃, hmany, h₃⟩ := run_bind_ok.mp h₂
  obtain ⟨hle, hs₃⟩ := throwIf_run_ok.mp hmany
  rw [hs₃] at h₃
  obtain ⟨ids, s₄, hput, h₄⟩ := run_bind_ok.mp h₃
  obtain ⟨hids, hs₄⟩ := fromExcept_run_ok.mp hput
  rw [hs₄] at h₄
  obtain ⟨parts, s₅, hparts, h₅⟩ := run_bind_ok.mp h₄
  obtain ⟨total, s₆, htotal, h₆⟩ := run_bind_ok.mp h₅
  obtain ⟨_, s₇, hcheck, h₇⟩ := run_bind_ok.mp h₆
  obtain ⟨hsum, hs₇⟩ := throwIf_run_ok.mp hcheck
  rw [hs₇] at h₇
  obtain ⟨digest, s₈, hdigest, h₈⟩ := run_bind_ok.mp h₇
  obtain ⟨_, s₉, hcheck, h₉⟩ := run_bind_ok.mp h₈
  obtain ⟨hsha, hs₉⟩ := throwIf_run_ok.mp hcheck
  cases h₉
  obtain ⟨header, hheader, _, hb⟩ := putWalHeader_of_get hhead
  obtain ⟨hs₂, blobs, hblobs, hentries⟩ := getChunks_ok hparts
  have hlen := length_times hparts
  refine ⟨header, ids, parts.map (·.1), blobs.flatten, hheader, hids, ?_, ?_, ?_, hentries⟩
  · rw [List.length_map, hlen]
    omega
  · rw [hb, spells_u32 hcount, hs₂, spells_u64 htotal, (Spells.raw short 32 hdigest).1, hs₉, not_not.mp hsum,
      not_not.mp hsha, walBody, List.length_map, hlen]
    simp only [List.append_assoc]
  · refine Except.bind_ok.mpr ⟨(blobs, s₅), ?_, rfl⟩
    exact run_bind_ok.mpr ⟨head, s₁, hhead, run_bind_ok.mpr ⟨count, s₂, hcount, hblobs⟩⟩

theorem wellFormed_of_decode {b : Bytes} {w : SequentialWal} (h : decodeSequentialWal H schema b = .ok w)
    (hv : w.schemaVersion = 1) (hcount : w.chunks.length < 2 ^ 32) : WellFormed w := by
  obtain ⟨_, _, h⟩ := Except.bind_ok.mp h
  obtain ⟨w', _, h⟩ := Except.bind_ok.mp h
  obtain ⟨_, hcheck, h⟩ := Except.bind_ok.mp h
  cases h
  have hcheck := throwIf_ok.mp hcheck
  simp only [not_or] at hcheck
  obtain ⟨h₁, h₂, h₃, h₄, h₅, h₆⟩ := hcheck
  exact ⟨by tauto, h₅, h₆, hv, hcount⟩

/-- A WAL that passes the checks of a load is written back as the same bytes
exactly when its row blobs are canonical: they end with their last field,
store flags as 0 or 1, and hold no signaling NaN. -/
theorem encode_of_load_iff {t : TableDescriptor} {seq : U64} {b : Bytes} {w : SequentialWal}
    (hd : decodeSequentialWal H t.schema b = .ok w)
    (hid : ¬ (w.seq ≠ seq ∨ w.tableId ≠ t.tableId ∨ w.schemaVersion ≠ 1)) :
    encodeSequentialWal H t.schema w = .ok b ↔
      ∃ blobs, rowBlobs b = .ok blobs ∧ ∀ blob ∈ blobs, CanonicalRow t.schema blob := by
  simp only [not_or, not_not] at hid
  constructor
  · intro h
    obtain ⟨hw, header, ids, entries, hh, hi, he, rfl⟩ := encode_ok.mp h
    obtain ⟨blobs, hblobs, hcanonical⟩ := reads_rowBlobs (H := H) he (WalLimits.fits_of_decode h hd).payload
    refine ⟨blobs.flatten, ?_, hcanonical⟩
    have hread := (reads_walHeader hh).bind (f := fun _ => getU32 >>= fun count => times count getRowBlobs)
      ((reads_u32 hw.count).bind hblobs)
    rw [walBody]
    simp only [List.append_assoc] at hread ⊢
    exact Except.bind_ok.mpr ⟨_, by simpa only [List.append_assoc] using hread _, rfl⟩
  · rintro ⟨blobs, hblobs, hcanonical⟩
    obtain ⟨rest, hcontents, height, hrest⟩ := contents_of_decode hd
    obtain ⟨header, ids, entries, blobs', hh, hi, hlen, hb, hblobs', he⟩ := getWalContents_ok hcontents
    cases hblobs.symm.trans hblobs'
    have htake : b.take (b.length - 8) = walBody H header ids w entries := by
      rw [hb, List.length_append, height, Nat.add_sub_cancel, List.take_left' rfl]
    rw [htake] at hrest
    refine encode_ok.mpr ⟨wellFormed_of_decode hd hid.2.2 (by omega), header, ids, entries, hh, hi,
      he hcanonical, ?_⟩
    rw [← hrest]
    exact hb

theorem encode_of_load_number :
    ∃ b w blobs, decodeSequentialWal constantHashes [⟨ascii "n", .int32⟩] b = .ok w ∧ rowBlobs b = .ok blobs ∧
      ∀ blob ∈ blobs, CanonicalRow [⟨ascii "n", .int32⟩] blob := by
  have henc : encodeSequentialWal constantHashes [⟨ascii "n", .int32⟩] numberWal = .ok _ := rfl
  have hfits : Fits [⟨ascii "n", .int32⟩] numberWal := by
    refine ⟨by decide, ?_⟩
    intro c hc p hp
    obtain rfl := List.mem_singleton.mp hc
    cases hp
    decide
  obtain ⟨ids, entries, _, _, hd⟩ := decode_encode_wal henc hfits
  have hiff := @encode_of_load_iff constantHashes ⟨ascii "t", [], [], [⟨ascii "n", .int32⟩]⟩ 3 _ _ hd
    (by simp [reread, numberWal])
  obtain ⟨blobs, hblobs, hcanonical⟩ := hiff.mp (WalLimits.encode_reread henc hfits)
  exact ⟨_, _, blobs, hd, hblobs, hcanonical⟩

def flagTable : TableDescriptor := ⟨ascii "t", [], [], [⟨ascii "f", .bool⟩]⟩

def flagWal : SequentialWal where
  tableId := ascii "t"
  seq := 3
  writerEpoch := 2
  operationId := ascii "b"
  batchIds := [ascii "b"]
  chunks := [⟨[0], [Column.ofValues .bool [.bool true]], 1⟩]

def flagPayload : Bytes := u32 1 ++ [2]

def flagEntry : Bytes := entry 1 flagPayload.length flagPayload

theorem decode_flag (H : Hashes) {header ids : Bytes} (hh : putWalHeader flagWal = .ok header)
    (hi : putStrings flagWal.batchIds = .ok ids) :
    decodeSequentialWal H flagTable.schema (walBody H header ids flagWal [flagEntry] ++
        (u32 (crc H (walBody H header ids flagWal [flagEntry])) ++ ascii "DBW2")) =
      .ok { flagWal with payloadDigest := H.sha256 (logical flagWal.schemaVersion ids [flagEntry]) } := by
  have hrows : parse (getRows flagTable.schema 1 (flagTable.schema.map (Column.new ·.type))) flagPayload =
      .ok [Column.ofValues .bool [.bool true]] := rfl
  have hsize : flagPayload.length < 2 ^ 32 := by decide
  have hentry := reads_entry_of_rows (H := H) Nat.one_ne_zero (show 1 < 2 ^ 32 by decide) hsize hrows
  have hparts : Reads (times 1 (getChunk H flagTable.schema)) ([flagEntry].flatMap fun e => e ++ u32 (crc H e))
      (flagWal.chunks.map (flagEntry, ·)) := by
    rw [List.flatMap_singleton]
    exact hentry.finish ((Reads.pure []).map fun ps => (flagEntry, _) :: ps)
  have hread := @reads_parts H flagTable.schema flagWal header ids (flagWal.chunks.map (flagEntry, ·)) hh hi hparts
    (by decide) rfl rfl
  have hw : WellFormed flagWal := ⟨by decide, by decide, by decide, rfl, by decide⟩
  exact decode_of_contents hread ⟨hw.header, hw.append, hw.fence, hw.version, hw.count⟩

/-- Whatever the checksums are, a flag stored as 2 is loaded and written back
as 1. -/
theorem flag_not_canonical : ¬ ∃ H : Hashes, ∀ (t : TableDescriptor) (seq : U64) (b : Bytes) (w : SequentialWal),
    decodeSequentialWal H t.schema b = .ok w →
      ¬ (w.seq ≠ seq ∨ w.tableId ≠ t.tableId ∨ w.schemaVersion ≠ 1) → encodeSequentialWal H t.schema w = .ok b := by
  rintro ⟨H, h⟩
  obtain ⟨header, hh⟩ : ∃ header, putWalHeader flagWal = .ok header := ⟨_, rfl⟩
  obtain ⟨ids, hi⟩ : ∃ ids, putStrings flagWal.batchIds = .ok ids := ⟨_, rfl⟩
  have henc := h flagTable 3 _ _ (decode_flag H hh hi) (by simp [flagWal, flagTable])
  obtain ⟨_, header', ids', entries, hh', _, he, hb⟩ := encode_ok.mp henc
  have hheader : header = header' := Except.ok.inj (hh.symm.trans hh')
  subst hheader
  cases he with
  | @cons _ e _ _ hentry hnil =>
      cases hnil
      have he : e = entry 1 5 (u32 1 ++ [1]) := (Except.ok.inj hentry).symm
      simp only [walBody, List.append_assoc, List.append_cancel_left_eq, List.flatMap_singleton] at hb
      have hsame : flagEntry = e := by
        refine (List.append_inj hb ?_).1
        rw [he]
        rfl
      rw [he] at hsame
      exact absurd hsame (by decide)

end DBPlayground.WalCodec
