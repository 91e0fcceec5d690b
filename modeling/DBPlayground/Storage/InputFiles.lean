import DBPlayground.Format.Columnar

namespace DBPlayground.Storage

open ByteReader Table

/-- The bytes of a file. No string and no file has more than `2 ^ 63 - 1` of them. -/
structure FileContent where
  bytes : Bytes
  length_lt : bytes.length < 2 ^ 63

namespace FileContent

def size (c : FileContent) : BitVec 64 := BitVec.ofNat 64 c.bytes.length

@[simp] theorem toNat_size (c : FileContent) : c.size.toNat = c.bytes.length := by
  have := c.length_lt
  simp only [size, BitVec.toNat_ofNat]
  omega

def range (c : FileContent) (offset len : BitVec 64) : Option Bytes :=
  if offset.toNat ≤ c.bytes.length ∧ len.toNat ≤ c.bytes.length - offset.toNat then
    some ((c.bytes.drop offset.toNat).take len.toNat)
  else none

end FileContent

def MemInputFile.readAt (c : FileContent) (offset len : BitVec 64) : Option Bytes :=
  Format.readAt c.bytes offset len

/-- `seekg` and `read` on a stream that is good: what was read. A seek to a negative
position fails, and then nothing is read. -/
def seekRead (file : Bytes) (position count : Int) : Bytes :=
  if position < 0 then [] else (file.drop position.toNat).take count.toNat

def LocalInputFile.readAt (c : FileContent) (offset len : BitVec 64) : Except Exn (Option Bytes) :=
  if c.size < offset ∨ c.size - offset < len then .ok none
  else
    let out := seekRead c.bytes offset.toInt len.toInt
    if (out.length : Int) ≠ len.toInt then .error (.runtimeError "LocalStorage: short read") else .ok (some out)

structure S3Response where
  transportError : Bool
  status : Nat
  body : Bytes

/-- `S3Client::GetRange`, over what answers a `GET` with or without a `Range` header. -/
def getRange (get : Option (Nat × Nat) → S3Response) (offset length : BitVec 64) : S3Response :=
  if length = 0 then get none else get (some (offset.toNat, (offset + length - 1).toNat))

def S3InputFile.readAt (get : Option (Nat × Nat) → S3Response) (key : String) (size offset len : BitVec 64) :
    Except Exn (Option Bytes) :=
  if size < offset ∨ size < offset + len then .ok none
  else if len = 0 then .ok (some [])
  else
    let r := getRange get offset len
    if r.transportError then .error (.runtimeError ("S3InputFile: transport error reading " ++ key))
    else if r.status = 206 ∨ r.status = 200 then .ok (some r.body)
    else if r.status = 416 ∨ r.status = 404 then .ok none
    else .error (.runtimeError ("S3InputFile: unexpected status " ++ toString r.status ++ " reading " ++ key))

/-- What a server that has the content does with a range. One that ends before it begins
is no range: some servers ignore it and serve the whole content, others refuse it. -/
structure Serves (content : Bytes) (ignores : Bool) (get : Option (Nat × Nat) → S3Response) : Prop where
  within : ∀ first last, first ≤ last → first < content.length →
    get (some (first, last)) = ⟨false, 206, (content.drop first).take (last - first + 1)⟩
  behind : ∀ first last, first ≤ last → content.length ≤ first → ∃ body, get (some (first, last)) = ⟨false, 416, body⟩
  ignored : ignores = true → ∀ first last, last < first → get (some (first, last)) = ⟨false, 200, content⟩
  refused : ignores = false → ∀ first last, last < first → ∃ body, get (some (first, last)) = ⟨false, 416, body⟩

section agreement

variable (c : FileContent) {get : Option (Nat × Nat) → S3Response} {ignores : Bool} (key : String)
  (offset len : BitVec 64)

theorem MemInputFile.readAt_eq : readAt c offset len = c.range offset len := by
  rw [readAt, Format.readAt, FileContent.range]
  split <;> split <;> first | rfl | omega

theorem LocalInputFile.readAt_eq : readAt c offset len = .ok (c.range offset len) := by
  have hlt := c.length_lt
  have hin : (c.size < offset ∨ c.size - offset < len) ↔
      ¬ (offset.toNat ≤ c.bytes.length ∧ len.toNat ≤ c.bytes.length - offset.toNat) := by
    simp only [BitVec.lt_def, BitVec.toNat_sub, FileContent.toNat_size]
    omega
  rw [readAt, FileContent.range]
  by_cases h : offset.toNat ≤ c.bytes.length ∧ len.toNat ≤ c.bytes.length - offset.toNat
  · have hoffset : offset.toInt = offset.toNat := BitVec.toInt_eq_toNat_of_lt (by omega)
    have hlen : len.toInt = len.toNat := BitVec.toInt_eq_toNat_of_lt (by omega)
    have hread : seekRead c.bytes offset.toInt len.toInt = (c.bytes.drop offset.toNat).take len.toNat := by
      rw [seekRead, hoffset, hlen, if_neg (by omega), Int.toNat_natCast, Int.toNat_natCast]
    rw [if_neg (by rw [hin]; exact not_not.mpr h), if_pos h, hread, if_neg]
    rw [hlen, List.length_take, List.length_drop]
    omega
  · rw [if_pos (hin.mpr h), if_neg h]

theorem toNat_add_sub_one {a b : BitVec 64} (h : a.toNat + b.toNat < 2 ^ 64) (hb : 0 < b.toNat) :
    (a + b - 1).toNat = a.toNat + b.toNat - 1 := by
  rw [BitVec.toNat_sub_of_le, BitVec.toNat_add, Nat.mod_eq_of_lt h]
  · rfl
  · rw [BitVec.le_def, BitVec.toNat_add, Nat.mod_eq_of_lt h]
    exact Nat.le_add_left_of_le hb

theorem S3InputFile.readAt_of_lt (hget : Serves c.bytes ignores get) (h : offset.toNat + len.toNat < 2 ^ 64) :
    readAt get key c.size offset len = .ok (c.range offset len) := by
  have hin : (c.size < offset ∨ c.size < offset + len) ↔
      ¬ (offset.toNat ≤ c.bytes.length ∧ len.toNat ≤ c.bytes.length - offset.toNat) := by
    simp only [BitVec.lt_def, BitVec.toNat_add, FileContent.toNat_size]
    omega
  rw [readAt, FileContent.range]
  by_cases hr : offset.toNat ≤ c.bytes.length ∧ len.toNat ≤ c.bytes.length - offset.toNat
  · rw [if_neg (by rw [hin]; exact not_not.mpr hr), if_pos hr]
    by_cases hlen : len = 0
    · subst hlen
      rfl
    · have hpos : 0 < len.toNat := Nat.pos_of_ne_zero fun h0 => hlen (BitVec.eq_of_toNat_eq h0)
      have hlast := toNat_add_sub_one h hpos
      have hserve : getRange get offset len = ⟨false, 206, (c.bytes.drop offset.toNat).take len.toNat⟩ := by
        rw [getRange, if_neg hlen, hlast, hget.within _ _ (by omega) (by omega),
          show offset.toNat + len.toNat - 1 - offset.toNat + 1 = len.toNat by omega]
      rw [if_neg hlen, hserve]
      rfl
  · rw [if_pos (hin.mpr hr), if_neg hr]

theorem S3InputFile.readAt_of_wraps (hget : Serves c.bytes ignores get) (hoffset : offset.toNat ≤ c.bytes.length)
    (h : 2 ^ 64 ≤ offset.toNat + len.toNat) :
    readAt get key c.size offset len = .ok none ↔
      (offset.toNat = c.bytes.length ∧ offset.toNat + len.toNat = 2 ^ 64) ∨
        (ignores = false ∧ 2 ^ 64 < offset.toNat + len.toNat) := by
  have hlt := c.length_lt
  have hlenlt := len.isLt
  have hpass : ¬ (c.size < offset ∨ c.size < offset + len) := by
    simp only [BitVec.lt_def, BitVec.toNat_add, FileContent.toNat_size]
    omega
  have hlen : len ≠ 0 := by
    rintro rfl
    simp only [BitVec.ofNat_eq_ofNat, BitVec.toNat_zero] at h
    omega
  rw [readAt, if_neg hpass, if_neg hlen]
  by_cases hend : offset.toNat + len.toNat = 2 ^ 64
  · have hlast : (offset + len - 1).toNat = 2 ^ 64 - 1 := by
      rw [BitVec.toNat_sub, BitVec.toNat_add, hend]
      rfl
    by_cases hfull : c.bytes.length ≤ offset.toNat
    · obtain ⟨body, hserve⟩ := hget.behind offset.toNat (2 ^ 64 - 1) (by omega) hfull
      rw [getRange, if_neg hlen, hlast, hserve]
      exact iff_of_true rfl (.inl ⟨Nat.le_antisymm hoffset hfull, hend⟩)
    · rw [getRange, if_neg hlen, hlast, hget.within _ _ (by omega) (Nat.not_le.mp hfull)]
      refine iff_of_false (fun hnone => by cases hnone) ?_
      rintro (hcond | hcond)
      · exact hfull (Nat.le_of_eq hcond.1.symm)
      · exact absurd hend (Nat.ne_of_gt hcond.2)
  · have hlast : (offset + len - 1).toNat < offset.toNat := by
      rw [BitVec.toNat_sub, BitVec.toNat_add]
      show (2 ^ 64 - 1 + (offset.toNat + len.toNat) % 2 ^ 64) % 2 ^ 64 < offset.toNat
      omega
    rw [getRange, if_neg hlen]
    cases hi : ignores with
    | true =>
        rw [hget.ignored hi _ _ hlast]
        refine iff_of_false (fun hnone => by cases hnone) ?_
        rintro (hcond | hcond)
        · exact hend hcond.2
        · cases hcond.1
    | false =>
        obtain ⟨body, hserve⟩ := hget.refused hi _ _ hlast
        rw [hserve]
        exact iff_of_true rfl (.inr ⟨rfl, Nat.lt_of_le_of_ne h (Ne.symm hend)⟩)

/-- The three media accept one range alike, and deliver the same bytes, exactly if on S3
the sum of offset and length does not wrap around to a range that is answered. -/
theorem readAt_agree_iff (hget : Serves c.bytes ignores get) :
    (MemInputFile.readAt c offset len = c.range offset len ∧
      LocalInputFile.readAt c offset len = .ok (c.range offset len) ∧
      S3InputFile.readAt get key c.size offset len = .ok (c.range offset len)) ↔
    (offset.toNat ≤ c.bytes.length → offset.toNat + len.toNat < 2 ^ 64 ∨
      (offset.toNat = c.bytes.length ∧ offset.toNat + len.toNat = 2 ^ 64) ∨
        (ignores = false ∧ 2 ^ 64 < offset.toNat + len.toNat)) := by
  rw [MemInputFile.readAt_eq, LocalInputFile.readAt_eq, eq_self_iff_true, eq_self_iff_true, true_and, true_and]
  by_cases hoffset : offset.toNat ≤ c.bytes.length
  · by_cases hsum : offset.toNat + len.toNat < 2 ^ 64
    · exact iff_of_true (S3InputFile.readAt_of_lt c key offset len hget hsum) fun _ => .inl hsum
    · have hnone : c.range offset len = none := if_neg (by have := c.length_lt; omega)
      rw [hnone, S3InputFile.readAt_of_wraps c key offset len hget hoffset (Nat.not_lt.mp hsum)]
      exact ⟨fun h _ => .inr h, fun h => (h hoffset).resolve_left hsum⟩
  · have hnone : c.range offset len = none := if_neg fun h => hoffset h.1
    have hcheck : c.size < offset := by
      rw [BitVec.lt_def, FileContent.toNat_size]
      omega
    rw [hnone, S3InputFile.readAt, if_pos (.inl hcheck)]
    exact iff_of_true rfl fun h => absurd h hoffset

/-- A server that ignores a range that ends before it begins. -/
def serve (content : Bytes) : Option (Nat × Nat) → S3Response
  | none => ⟨false, 200, content⟩
  | some (first, last) =>
    if last < first then ⟨false, 200, content⟩
    else if content.length ≤ first then ⟨false, 416, []⟩
    else ⟨false, 206, (content.drop first).take (last - first + 1)⟩

theorem serves_serve (content : Bytes) : Serves content true (serve content) where
  within first last hle hlt := by rw [serve, if_neg (Nat.not_lt.mpr hle), if_neg (Nat.not_le.mpr hlt)]
  behind first last hle hlen := ⟨[], by rw [serve, if_neg (Nat.not_lt.mpr hle), if_pos hlen]⟩
  ignored _ first last hlt := by rw [serve, if_pos hlt]
  refused hi := by cases hi

def twoBytes : FileContent := ⟨ascii "ab", by decide⟩

/-- The second byte is read alike. -/
theorem readAt_agree_second :
    S3InputFile.readAt (serve twoBytes.bytes) "k" twoBytes.size 1 1 = .ok (some (ascii "b")) :=
  ((readAt_agree_iff twoBytes "k" 1 1 (serves_serve _)).mpr fun _ => .inl (by decide)).2.2

/-- Read from the second byte on with a length of `2 ^ 64 - 1`, S3 delivers that byte, and
the other media deliver nothing. -/
theorem readAt_disagree :
    MemInputFile.readAt twoBytes 1 (-1) = none ∧ LocalInputFile.readAt twoBytes 1 (-1) = .ok none ∧
    S3InputFile.readAt (serve twoBytes.bytes) "k" twoBytes.size 1 (-1) = .ok (some (ascii "b")) := by
  decide

end agreement

end DBPlayground.Storage
