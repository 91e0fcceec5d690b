import DBPlayground.Lib.RandomFile
import DBPlayground.Storage.BufferPool
import DBPlayground.Table.Column
import Mathlib.Order.CompletePartialOrder
import Mathlib.Order.Interval.Set.Disjoint

namespace DBPlayground.Storage

open ByteReader Table

abbrev PageBytes := { data : Bytes // data.length = pageSize }

instance : Inhabited PageBytes := ⟨⟨List.replicate pageSize 0, List.length_replicate⟩⟩

/-- The value of an expression of type `int`, in two's complement. -/
def int32 (x : Int) : Int := x.bmod (2 ^ 32)

structure DiskManager where
  file : RandomFile Byte
  nextPageId : PageId

namespace DiskManager

def getFileSize (d : DiskManager) : Int := int32 d.file.length

def ofFile (file : RandomFile Byte) : DiskManager :=
  let fileSize := int32 file.length
  ⟨file, if 0 < fileSize then fileSize / pageSize else 0⟩

/-- `page_id * PAGE_SIZE` in `ReadPage`. -/
def readOffset (p : Int) : Int := int32 (p * pageSize)

/-- `static_cast<size_t>(page_id) * PAGE_SIZE` in `WritePage`. -/
def writeOffset (p : Int) : Nat := (p % 2 ^ 64).toNat * pageSize % 2 ^ 64

def padded (got : Bytes) : PageBytes := ⟨(got ++ List.replicate pageSize 0).take pageSize, by simp⟩

/-- A seek to a negative position fails; then nothing is read, and the page is zeroed. -/
def readPage (d : DiskManager) (p : PageId) : Except Exn PageBytes :=
  if d.getFileSize < readOffset p then .error (.runtimeError "page id out of range")
  else .ok (padded (if readOffset p < 0 then [] else d.file.read (readOffset p).toNat pageSize))

def writePage (d : DiskManager) (p : PageId) (data : PageBytes) : DiskManager :=
  { d with file := d.file.write (writeOffset p) data.1 }

def allocatePage (d : DiskManager) : PageId × DiskManager :=
  (d.nextPageId, { d with nextPageId := d.nextPageId + 1 })

instance : Disk DiskManager PageBytes where
  readPage d p := (d.readPage p).toOption
  writePage := writePage
  allocatePage := allocatePage

def Allocatable (p : Int) : Prop := 0 ≤ p ∧ p < 2 ^ 31 - 1

def writeAll (d : DiskManager) (ws : List (PageId × PageBytes)) : DiskManager :=
  ws.foldl (fun d w => d.writePage w.1 w.2) d

def lengthWith (n : Nat) (ids : List PageId) : Nat := ids.foldl (fun n p => max n ((p.toNat + 1) * pageSize)) n

/-- The page lies where `int` can address it, and the length of the file, as an `int`,
does not lie before it. -/
def Addressable (length : Nat) (p : Int) : Prop :=
  p < 131072 ∧ length % 2 ^ 32 < 2 ^ 31 ∧ p * pageSize ≤ (length % 2 ^ 32 : Nat)

section offsets

variable {p q : Int}

theorem int32_eq (x : Int) : int32 x = if x % 2 ^ 32 < 2 ^ 31 then x % 2 ^ 32 else x % 2 ^ 32 - 2 ^ 32 := rfl

theorem writeOffset_eq (hp : Allocatable p) : (writeOffset p : Int) = p * pageSize := by
  obtain ⟨h₀, h₁⟩ := hp
  rw [writeOffset, pageSize, Int.emod_eq_of_lt h₀ (by omega), Nat.mod_eq_of_lt (by omega)]
  omega

theorem readOffset_eq (hp : 0 ≤ p) (h : p < 131072) : readOffset p = p * pageSize := by
  rw [readOffset, int32_eq, pageSize]
  split <;> omega

theorem readOffset_far (hp : 131072 ≤ p) : readOffset p + 2 ^ 32 ≤ p * pageSize := by
  rw [readOffset, int32_eq, pageSize]
  split <;> omega

theorem writeOffset_apart (hp : Allocatable p) (hq : Allocatable q) (hne : q ≠ p) :
    writeOffset p + pageSize ≤ writeOffset q ∨ writeOffset q + pageSize ≤ writeOffset p := by
  have h₁ := writeOffset_eq hp
  have h₂ := writeOffset_eq hq
  rw [pageSize] at *
  omega

end offsets

section runs

variable {d d' : DiskManager} {p : Int} {ws : List (PageId × PageBytes)} {i : Nat}

theorem length_writePage {data : PageBytes} (hp : Allocatable p) :
    (d.writePage p data).file.length = max d.file.length ((p.toNat + 1) * pageSize) := by
  have hne : data.1 ≠ [] := by
    intro h
    have := data.2
    rw [h] at this
    cases this
  have hoff := writeOffset_eq hp
  obtain ⟨h₀, _⟩ := hp
  rw [writePage, RandomFile.length_write hne, data.2]
  rw [pageSize] at *
  omega

theorem length_writeAll (hws : ∀ w ∈ ws, Allocatable w.1) :
    (d.writeAll ws).file.length = lengthWith d.file.length (ws.map Prod.fst) := by
  induction ws generalizing d with
  | nil => rfl
  | cons w ws ih =>
      rw [writeAll, List.foldl_cons]
      refine (ih fun w hw => hws w (List.mem_cons_of_mem _ hw)).trans ?_
      rw [length_writePage (hws w List.mem_cons_self)]
      rfl

theorem le_lengthWith {n : Nat} {ids : List PageId} : n ≤ lengthWith n ids := by
  induction ids generalizing n with
  | nil => exact Nat.le_refl n
  | cons p ids ih => exact (Nat.le_max_left _ _).trans ih

theorem byte_writeAll (hp : Allocatable p) (hws : ∀ w ∈ ws, w.1 ≠ p ∧ Allocatable w.1) (hi : i < pageSize) :
    (d.writeAll ws).file.byte (writeOffset p + i) = d.file.byte (writeOffset p + i) := by
  induction ws generalizing d with
  | nil => rfl
  | cons w ws ih =>
      obtain ⟨hne, hw⟩ := hws w List.mem_cons_self
      rw [writeAll, List.foldl_cons]
      refine (ih fun w hw => hws w (List.mem_cons_of_mem _ hw)).trans ?_
      apply RandomFile.byte_write_outside
      have := writeOffset_apart hp hw hne
      have := w.2.2
      omega

theorem byte_writeAll_congr (h : d.file.byte i = d'.file.byte i) :
    (d.writeAll ws).file.byte i = (d'.writeAll ws).file.byte i := by
  induction ws generalizing d d' with
  | nil => exact h
  | cons w ws ih => exact ih (RandomFile.byte_write_congr h)

theorem readPage_congr (hlen : d.file.length = d'.file.length)
    (h : ∀ i < pageSize, d.file.byte ((readOffset p).toNat + i) = d'.file.byte ((readOffset p).toNat + i)) :
    d.readPage p = d'.readPage p := by
  rw [readPage, readPage, getFileSize, getFileSize, hlen, RandomFile.read_congr hlen h]

theorem readPage_eq {data : PageBytes} (hsize : readOffset p ≤ d.getFileSize) (hoff : readOffset p = writeOffset p)
    (hlen : writeOffset p + pageSize ≤ d.file.length)
    (h : ∀ i, (hi : i < data.1.length) → d.file.byte (writeOffset p + i) = data.1[i]) : d.readPage p = .ok data := by
  have hread : d.file.read (writeOffset p) pageSize = data.1 := by
    have heq := RandomFile.read_eq (by rw [data.2]; exact hlen) h
    rwa [data.2] at heq
  have hpadded : padded data.1 = data := Subtype.ext (List.take_left' data.2)
  rw [readPage, if_neg (not_lt.mpr hsize), hoff, if_neg (not_lt.mpr (Int.natCast_nonneg _)), Int.toNat_natCast, hread,
    hpadded]

end runs

section delivery

variable {d : DiskManager} {p : Int} {ws : List (PageId × PageBytes)}

def filled (c : Byte) : PageBytes := ⟨List.replicate pageSize c, List.length_replicate⟩

theorem filled_ne : filled 1 ≠ filled 0 := by
  intro h
  have hhead := congrArg (fun x : PageBytes => x.1.head?) h
  rw [filled, filled, List.head?_replicate, List.head?_replicate] at hhead
  revert hhead
  decide

theorem length_after (hp : Allocatable p) (hws : ∀ w ∈ ws, w.1 ≠ p ∧ Allocatable w.1) (data : PageBytes) :
    ((d.writePage p data).writeAll ws).file.length = lengthWith d.file.length (p :: ws.map Prod.fst) := by
  rw [length_writeAll fun w hw => (hws w hw).2, length_writePage hp]
  rfl

theorem delivers_of_addressable (hp : Allocatable p) (hws : ∀ w ∈ ws, w.1 ≠ p ∧ Allocatable w.1)
    (h : Addressable (lengthWith d.file.length (p :: ws.map Prod.fst)) p) (data : PageBytes) :
    ((d.writePage p data).writeAll ws).readPage p = .ok data := by
  obtain ⟨hnear, hint, hsize⟩ := h
  have hoff := readOffset_eq hp.1 hnear
  have hlen := length_after (d := d) hp hws data
  have hend : writeOffset p + pageSize ≤ lengthWith d.file.length (p :: ws.map Prod.fst) := by
    have hle : max d.file.length ((p.toNat + 1) * pageSize) ≤ lengthWith d.file.length (p :: ws.map Prod.fst) :=
      le_lengthWith
    have := writeOffset_eq hp
    have := hp.1
    rw [pageSize] at *
    omega
  apply readPage_eq
  · rw [getFileSize, hlen, hoff, int32_eq, if_pos (by omega)]
    omega
  · rw [hoff, writeOffset_eq hp]
  · rw [hlen]
    exact hend
  · intro i hi
    rw [byte_writeAll hp hws (data.2 ▸ hi)]
    exact RandomFile.byte_write_inside hi

theorem addressable_of_delivers (hp : Allocatable p) (hws : ∀ w ∈ ws, w.1 ≠ p ∧ Allocatable w.1)
    (h : ∀ data, ((d.writePage p data).writeAll ws).readPage p = .ok data) :
    Addressable (lengthWith d.file.length (p :: ws.map Prod.fst)) p := by
  have hnear : p < 131072 := by
    by_contra hfar
    have hoff := readOffset_far (Int.not_lt.mp hfar)
    have hwrite := writeOffset_eq hp
    have hbyte : ∀ data : PageBytes, ∀ i < pageSize,
        (d.writePage p data).file.byte ((readOffset p).toNat + i) = d.file.byte ((readOffset p).toNat + i) := by
      intro data i hi
      apply RandomFile.byte_write_outside
      rw [pageSize] at *
      omega
    -- what is read does not depend on what was written
    have hsame : ((d.writePage p (filled 1)).writeAll ws).readPage p =
        ((d.writePage p (filled 0)).writeAll ws).readPage p := by
      apply readPage_congr
      · rw [length_after hp hws, length_after hp hws]
      · intro i hi
        apply byte_writeAll_congr
        rw [hbyte _ i hi, hbyte _ i hi]
    rw [h, h, Except.ok.injEq] at hsame
    exact filled_ne hsame
  have hsize : readOffset p ≤ ((d.writePage p (filled 0)).writeAll ws).getFileSize := by
    by_contra hlt
    have hthrow := h (filled 0)
    rw [readPage, if_pos (not_le.mp hlt)] at hthrow
    cases hthrow
  have hpos := hp.1
  rw [getFileSize, length_after hp hws, readOffset_eq hpos hnear, int32_eq, pageSize] at hsize
  refine ⟨hnear, ?_⟩
  rw [pageSize]
  split at hsize <;> omega

/-- The pages that are read back, at their own place in the file, after any writes to
other pages. -/
theorem page_addressing_iff (d : DiskManager) (ws : List (PageId × PageBytes)) (hp : Allocatable p)
    (hws : ∀ w ∈ ws, w.1 ≠ p ∧ Allocatable w.1) :
    ((∀ data, ((d.writePage p data).writeAll ws).readPage p = .ok data) ∧ readOffset p = writeOffset p ∧
      ∀ q, Allocatable q → q ≠ p → Disjoint (Set.Ico (writeOffset p) (writeOffset p + pageSize))
        (Set.Ico (writeOffset q) (writeOffset q + pageSize))) ↔
    Addressable (lengthWith d.file.length (p :: ws.map Prod.fst)) p := by
  constructor
  · rintro ⟨h, _⟩
    exact addressable_of_delivers hp hws h
  · intro h
    refine ⟨delivers_of_addressable hp hws h, ?_, fun q hq hne => ?_⟩
    · rw [readOffset_eq hp.1 h.1, writeOffset_eq hp]
    · rw [Set.Ico_disjoint_Ico]
      have := writeOffset_apart hp hq hne
      omega

/-- The first page of a new file, with another one written after it. -/
theorem page_addressing_first : Addressable (lengthWith 0 [0, 1]) 0 ∧
    (((ofFile .empty).writePage 0 (filled 7)).writeAll [(1, filled 8)]).readPage 0 = .ok (filled 7) := by
  have hlow : Addressable (lengthWith 0 [0, 1]) 0 := ⟨by decide, by decide, by decide⟩
  refine ⟨hlow, ((page_addressing_iff (ofFile .empty) [(1, filled 8)] ⟨by decide, by decide⟩ ?_).mpr hlow).1 (filled 7)⟩
  intro w hw
  rw [List.mem_singleton.mp hw]
  exact ⟨by decide, by decide, by decide⟩

/-- Once the file has `2 ^ 31` bytes, the read of its last page throws; the page after
that is read as zeros. -/
theorem far_pages_lost :
    ((ofFile .empty).writePage 131071 (filled 1)).readPage 131071 = .error (.runtimeError "page id out of range") ∧
    ((ofFile .empty).writePage 131072 (filled 1)).readPage 131072 = .ok (filled 0) := by
  constructor
  · rw [readPage, getFileSize, length_writePage ⟨by decide, by decide⟩, if_pos]
    decide
  · have hzero : padded [] = filled 0 := Subtype.ext (List.take_of_length_le List.length_replicate.le)
    rw [readPage, getFileSize, length_writePage ⟨by decide, by decide⟩, if_neg, if_pos, hzero]
    · decide
    · decide

end delivery

end DiskManager

end DBPlayground.Storage
