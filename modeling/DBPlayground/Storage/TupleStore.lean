import DBPlayground.Storage.PageProgram

namespace DBPlayground.Storage.TupleStore

open ByteReader PageM

variable {K V : Type}

/-- The walk along the chain for a page with `need` free bytes; the page found
stays pinned. -/
def findPageWithSpace (need : Nat) : Nat → PageId → PageM (PageData K V) (Option PageId)
  | 0, _ => throw .outOfFuel
  | fuel + 1, pid =>
    if pid = invalidPageId then pure none
    else do
      fetch pid
      let page ← getValuePage pid
      if need ≤ page.freeSpace.toNat then pure (some pid)
      else do
        unpinPage pid false
        findPageWithSpace need fuel page.nextPageId

def findOrCreatePageWithSpace (fuel need : Nat) : PageM (PageData K V) PageId := do
  let first ← getMember .firstPageId
  match ← findPageWithSpace need fuel first with
  | some pid => pure pid
  | none =>
    match ← newPage with
    | none => throwRuntime "TupleStore: buffer pool full, cannot allocate value page"
    | some newPid =>
      let page ← getValuePage newPid
      setData newPid (.value (page.init first))
      setMember .firstPageId newPid
      pure newPid

def put (fuel : Nat) (value : Bytes) : PageM (PageData K V) RID :=
  if value.length > maxValueSize then throwRuntime "TupleStore: value too large for a single page"
  else do
    let pid ← findOrCreatePageWithSpace fuel (valueSlotSize + value.length)
    let page ← getValuePage pid
    let (idx, page) ← defined (page.put value)
    setData pid (.value page)
    unpinPage pid true
    pure ⟨pid, idx⟩

def get (rid : RID) : PageM (PageData K V) (Option Bytes) := do
  if ← fetchPage rid.pageId then
    let page ← getValuePage rid.pageId
    let out ← defined (page.get rid.slotNum)
    unpinPage rid.pageId false
    pure out
  else pure none

def delete (rid : RID) : PageM (PageData K V) Bool := do
  if ← fetchPage rid.pageId then
    let page ← getValuePage rid.pageId
    let (removed, page) ← defined (page.delete rid.slotNum)
    if removed then setData rid.pageId (.value page)
    unpinPage rid.pageId removed
    pure removed
  else pure false

/-- The end of `Update` for a value that does not fit in place. -/
def relocate (fuel : Nat) (rid : RID) (value : Bytes) : PageM (PageData K V) RID := do
  let _ ← delete rid
  put fuel value

def update (fuel : Nat) (rid : RID) (value : Bytes) : PageM (PageData K V) RID := do
  if ← fetchPage rid.pageId then
    let page ← getValuePage rid.pageId
    match ← defined (page.update rid.slotNum value) with
    | some page =>
      setData rid.pageId (.value page)
      unpinPage rid.pageId true
      pure rid
    | none =>
      unpinPage rid.pageId false
      relocate fuel rid value
  else relocate fuel rid value

end DBPlayground.Storage.TupleStore
