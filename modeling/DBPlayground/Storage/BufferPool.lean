import Mathlib.Data.List.AList
import DBPlayground.Storage.Config
import DBPlayground.Storage.LRUReplacer

namespace DBPlayground.Storage

/-- What the buffer pool asks of its `DiskManager`: `readPage` throws as
`none`, and `allocatePage` hands out the next page id. -/
class Disk (D : Type) (α : outParam Type) where
  readPage : D → PageId → Option α
  writePage : D → PageId → α → D
  allocatePage : D → PageId × D

/-- A `Page` object, one frame of the pool. The type `α` stands for the page's
bytes, and its default for the zeroed page. The pin count has no bound here; in the
source it has 32 bits. -/
structure Page (α : Type) where
  data : α
  pageId : PageId
  pinCount : Nat
  isDirty : Bool

def Page.new {α : Type} [Inhabited α] : Page α := ⟨default, invalidPageId, 0, false⟩

structure BufferPool (n : Nat) (D α : Type) where
  pages : Fin n → Page α
  freeList : List (Fin n)
  pageTable : AList fun _ : PageId => Fin n
  replacer : LRUReplacer (Fin n) n
  disk : D

namespace BufferPool

variable {n : Nat} {D α : Type} [Inhabited α]

def new (n : Nat) (disk : D) : BufferPool n D α :=
  ⟨fun _ => .new, List.finRange n, ∅, .new n, disk⟩

def setPage (b : BufferPool n D α) (f : Fin n) (page : Page α) : BufferPool n D α :=
  { b with pages := Function.update b.pages f page }

def writeData (b : BufferPool n D α) (f : Fin n) (data : α) : BufferPool n D α :=
  b.setPage f { b.pages f with data := data }

/-- `ResetMemory` and the reset of the frame's id and dirty flag. The pin
count stays. -/
def Page.reset (page : Page α) : Page α :=
  { page with data := default, pageId := invalidPageId, isDirty := false }

section

variable [Disk D α]

/-- The eviction that `FetchPage` and `NewPage` make when the free list is
empty; `none` when no frame can be evicted. -/
def evict (b : BufferPool n D α) : Option (BufferPool n D α) :=
  match b.replacer.victim with
  | none => none
  | some (f, r) =>
    let page := b.pages f
    some
      { pages := Function.update b.pages f (Page.reset page)
        freeList := b.freeList ++ [f]
        pageTable := b.pageTable.erase page.pageId
        replacer := r
        disk := if page.isDirty then Disk.writePage b.disk page.pageId page.data else b.disk }

def makeRoom (b : BufferPool n D α) : Option (BufferPool n D α) :=
  if b.freeList = [] then b.evict else some b

/-- The part of `FetchPage` that follows the search for a free frame. An
exception of `ReadPage` is swallowed and leaves the frame's data as it is. -/
def load (b : BufferPool n D α) (p : PageId) (f : Fin n) : BufferPool n D α :=
  let page := b.pages f
  { pages := Function.update b.pages f
      ⟨(Disk.readPage b.disk p).getD page.data, p, page.pinCount + 1, false⟩
    freeList := b.freeList.dropLast
    pageTable := b.pageTable.insert p f
    replacer := b.replacer.pin f
    disk := b.disk }

/-- The part of `FetchPage` for a page that is resident. -/
def pinAgain (b : BufferPool n D α) (f : Fin n) : BufferPool n D α :=
  let page := b.pages f
  { b.setPage f { page with pinCount := page.pinCount + 1 } with replacer := b.replacer.pin f }

/-- `FetchPage`; `none` is the null pointer, and then nothing has changed. -/
def fetchPage (b : BufferPool n D α) (p : PageId) : Option (Fin n × BufferPool n D α) :=
  match b.pageTable.lookup p with
  | some f => some (f, b.pinAgain f)
  | none => do
    let b ← b.makeRoom
    let f ← b.freeList.getLast?
    pure (f, b.load p f)

/-- The part of `NewPage` that follows the search for a free frame. -/
def create (b : BufferPool n D α) (f : Fin n) : BufferPool n D α :=
  let (p, disk) := Disk.allocatePage b.disk
  { pages := Function.update b.pages f ⟨(b.pages f).data, p, 1, false⟩
    freeList := b.freeList.tail
    pageTable := b.pageTable.insert p f
    replacer := b.replacer.pin f
    disk := disk }

/-- `NewPage`; `none` is the null pointer, and then nothing has changed. -/
def newPage (b : BufferPool n D α) : Option (Fin n × BufferPool n D α) :=
  if b.freeList = [] ∧ b.replacer.size = 0 then none
  else do
    let b ← b.makeRoom
    let f ← b.freeList.head?
    pure (f, b.create f)

end

def unpinPage (b : BufferPool n D α) (p : PageId) (isDirty : Bool) : Bool × BufferPool n D α :=
  match b.pageTable.lookup p with
  | none => (false, b)
  | some f =>
    let page := { b.pages f with isDirty := (b.pages f).isDirty || isDirty }
    if page.pinCount ≤ 0 then (false, b.setPage f page)
    else
      let b := b.setPage f { page with pinCount := page.pinCount - 1 }
      (true, if page.pinCount - 1 = 0 then { b with replacer := b.replacer.unpin f } else b)

/-- The frame's data written to the disk under the id that the page table has
for the frame. -/
def writeBack [Disk D α] (b : BufferPool n D α) (p : PageId) (f : Fin n) : BufferPool n D α :=
  { b.setPage f { b.pages f with isDirty := false } with disk := Disk.writePage b.disk p (b.pages f).data }

def flushPage [Disk D α] (b : BufferPool n D α) (p : PageId) : Bool × BufferPool n D α :=
  match b.pageTable.lookup p with
  | none => (false, b)
  | some f => (true, b.writeBack p f)

def deletePage (b : BufferPool n D α) (p : PageId) : Bool × BufferPool n D α :=
  match b.pageTable.lookup p with
  | none => (true, b)
  | some f =>
    (true,
      { b.setPage f (Page.reset (b.pages f)) with
        pageTable := b.pageTable.erase p
        replacer := b.replacer.unpin f
        freeList := b.freeList ++ [f] })

def flushAllPages [Disk D α] (b : BufferPool n D α) : BufferPool n D α :=
  b.pageTable.entries.foldl (fun b item => b.writeBack item.1 item.2) b

end BufferPool

/-- A disk that returns the last bytes written under a page id, and zeros for
an id never written. The ids of the source have 32 bits; here there is always another. -/
structure MemDisk (α : Type) where
  content : PageId → α
  nextPageId : PageId

def MemDisk.empty {α : Type} [Inhabited α] : MemDisk α := ⟨fun _ => default, 0⟩

instance {α : Type} : Disk (MemDisk α) α where
  readPage d p := some (d.content p)
  writePage d p data := { d with content := Function.update d.content p data }
  allocatePage d := (d.nextPageId, { d with nextPageId := d.nextPageId + 1 })

end DBPlayground.Storage
