import DBPlayground.Storage.PageProgram

namespace DBPlayground.Storage

/-- `leaf_max_size_` and `internal_max_size_`. -/
structure Fanout where
  leafMaxSize : Nat
  internalMaxSize : Nat
  two_le_leaf : 2 ≤ leafMaxSize
  three_le_internal : 3 ≤ internalMaxSize

/-- A page has room for `MaxSize` entries and `extra` more. -/
def Fanout.InPage (f : Fanout) (extra : Nat) : Prop :=
  24 + 16 * (f.leafMaxSize - 1 + extra) ≤ pageSize ∧ 24 + 12 * (f.internalMaxSize + extra) ≤ pageSize

instance (f : Fanout) (extra : Nat) : Decidable (f.InPage extra) := inferInstanceAs (Decidable (_ ∧ _))

theorem Fanout.InPage.mono {f : Fanout} {m n : Nat} (h : f.InPage n) (hle : m ≤ n) : f.InPage m := by
  obtain ⟨h₁, h₂⟩ := h
  exact ⟨by omega, by omega⟩

inductive TreePage (K V : Type)
  | leaf (page : LeafPage K V)
  | internal (page : InternalPage K)

namespace TreePage

variable {K V : Type}

def data : TreePage K V → PageData K V
  | .leaf page => .leaf page
  | .internal page => .internal page

def size : TreePage K V → Nat
  | .leaf page => page.size
  | .internal page => page.size

def pageId : TreePage K V → PageId
  | .leaf page => page.pageId
  | .internal page => page.pageId

def parentPageId : TreePage K V → PageId
  | .leaf page => page.parentPageId
  | .internal page => page.parentPageId

def isRootPage (node : TreePage K V) : Bool := node.parentPageId = invalidPageId

def setParentPageId (parent : PageId) : TreePage K V → TreePage K V
  | .leaf page => .leaf { page with parentPageId := parent }
  | .internal page => .internal { page with parentPageId := parent }

def minSize (f : Fanout) : TreePage K V → Nat
  | .leaf _ => f.leafMaxSize / 2
  | .internal _ => (f.internalMaxSize + 1) / 2

def maxSize (f : Fanout) : TreePage K V → Nat
  | .leaf _ => f.leafMaxSize - 1
  | .internal _ => f.internalMaxSize

end TreePage

namespace PageM

def when {α : Type} (c : Bool) (m : PageM α Unit) : PageM α Unit := if c then m else pure ()

variable {K V : Type}

def getTreePage (p : PageId) : PageM (PageData K V) (TreePage K V) := do
  match ← getData p with
  | .leaf page => pure (.leaf page)
  | .internal page => pure (.internal page)
  | _ => throw .undefined

end PageM

namespace BPlusTree

open PageM

variable {K V : Type} [LinearOrder K] [Inhabited K] (f : Fanout)

def isSafe (node : TreePage K V) : OpType → Bool
  | .insert => node.size < node.maxSize f
  | _ =>
    if node.isRootPage then
      match node with
      | .leaf _ => true
      | .internal page => 2 < page.size
    else node.minSize f < node.size

/-- The descent gives back the pages above a node when it reaches it. -/
def releases (node : TreePage K V) (op : OpType) : Bool := op = .read ∨ isSafe f node op

def fitOne (node₁ node₂ : TreePage K V) : Bool :=
  match node₁ with
  | .leaf page => page.size + node₂.size ≤ f.leafMaxSize - 1
  | .internal page => page.size + node₂.size ≤ f.internalMaxSize

/-- The loop of `UnlatchAndUnpin` over the pages from index `i` on. -/
def unlatchAndUnpinFrom (op : OpType) (i : Nat) : Nat → PageM (PageData K V) Unit
  | 0 => pure ()
  | n + 1 => do
    let pid ← pageSetPageId i
    pageSetUnlatch i op
    unpinPage pid (op ≠ .read)
    unlatchAndUnpinFrom op (i + 1) n

def unlatchAndUnpin (op : OpType) : PageM (PageData K V) Unit := do
  let n ← pageSetSize
  unlatchAndUnpinFrom op 0 n
  clearPageSet

/-- The loop of `FindLeafPageRW`, entered with a page that was fetched. -/
def findLeafFrom (key : K) (leftMost : Bool) (op : OpType) : Nat → PageId → PageM (PageData K V) PageId
  | 0, _ => throw .outOfFuel
  | fuel + 1, p => do
    let node ← getTreePage p
    latch p op
    PageM.when (releases f node op) (unlatchAndUnpin op)
    addIntoPageSet p
    match node with
    | .leaf _ => pure p
    | .internal page => do
      let child ← defined (if leftMost then page.valueAt 0 else page.lookup key)
      if ← fetchPage child then findLeafFrom key leftMost op fuel child
      else throwRuntime "FetchPage returns nullptr"

def findLeafPageRW (fuel : Nat) (key : K) (leftMost : Bool) (op : OpType) : PageM (PageData K V) PageId := do
  let root ← getMember .rootPageId
  if ← fetchPage root then findLeafFrom f key leftMost op fuel root
  else throwRuntime "FetchPage returns nullptr"

/-- Whether the root's lock was given back right after the descent. -/
def releaseRoot : PageM (PageData K V) Bool := do
  let front ← pageSetPageId 0
  let root ← getMember .rootPageId
  if front ≠ root then do
    unlockRoot
    pure true
  else pure false

/-- The end of the scope of `root_lock`. -/
def leaveRoot (released : Bool) : PageM (PageData K V) Unit :=
  if released then pure () else unlockRoot

def getValue (fuel : Nat) (key : K) : PageM (PageData K V) (Option V) := do
  let root ← getMember .rootPageId
  if root = invalidPageId then pure none
  else do
    newTransaction
    lockRoot
    let p ← findLeafPageRW f fuel key false .read
    let released ← releaseRoot
    let leaf ← getLeaf p
    unlatchAndUnpin .read
    leaveRoot released
    pure (leaf.lookup key)

def startNewTree (key : K) (value : V) : PageM (PageData K V) Unit := do
  match ← newPage with
  | none => throwRuntime "out of memory"
  | some p => do
    setMember .rootPageId p
    setData p (.leaf ((LeafPage.init p invalidPageId f.leafMaxSize).insert key value))
    unpinPage p true

def updateParentPageId (p parent : PageId) : PageM (PageData K V) Unit := do
  fetch p
  let node ← getTreePage p
  setData p (node.setParentPageId parent).data
  unpinPage p true

def updateParentPageIds (parent : PageId) : List PageId → PageM (PageData K V) Unit
  | [] => pure ()
  | p :: rest => do
    updateParentPageId p parent
    updateParentPageIds parent rest

/-- `BPlusTreeInternalPage::MoveHalfTo`, to a page just set up. -/
def moveHalfTo (p recipient : PageId) : PageM (PageData K V) Unit := do
  let page ← getInternal p
  let page' ← getInternal recipient
  updateParentPageIds page'.pageId (page.halves.2.map Prod.snd)
  setData recipient (.internal { page' with array := page.halves.2 })
  setData p (.internal { page with array := page.halves.1 })

/-- `Split` once it has a new page. -/
def splitInto (p new : PageId) : PageM (PageData K V) Unit := do
  match ← getTreePage p with
  | .leaf page =>
    match page.moveHalfTo (LeafPage.init new page.parentPageId f.leafMaxSize) with
    | none => throwRuntime "CopyNFrom: will overflow page"
    | some (page, page') => do
      setData new (.leaf { page' with nextPageId := page.nextPageId })
      setData p (.leaf { page with nextPageId := new })
  | .internal page => do
    setData new (.internal (InternalPage.init new page.parentPageId))
    moveHalfTo p new

def split (p : PageId) : PageM (PageData K V) PageId := do
  match ← newPage with
  | none => throwRuntime "out of memory"
  | some new => do
    splitInto f p new
    pure new

def setParentPageId (p parent : PageId) : PageM (PageData K V) Unit := do
  let node ← getTreePage p
  setData p (node.setParentPageId parent).data

def insertIntoParent : Nat → PageId → K → PageId → PageM (PageData K V) Unit
  | 0, _, _, _ => throw .outOfFuel
  | fuel + 1, old, key, new => do
    let node ← getTreePage old
    if node.isRootPage then
      match ← newPage with
      | none => throwRuntime "out of memory"
      | some parent => do
        setMember .rootPageId parent
        setData parent (.internal ((InternalPage.init parent invalidPageId).populateNewRoot old key new))
        setParentPageId old parent
        setParentPageId new parent
        unpinPage parent true
    else do
      let parent := node.parentPageId
      fetch parent
      let page ← getInternal parent
      let page := page.insertNodeAfter old key new
      setData parent (.internal page)
      PageM.when (page.size = f.internalMaxSize + 1) do
        let new' ← split f parent
        let page' ← getInternal new'
        let middleKey ← defined (page'.keyAt 0)
        insertIntoParent fuel parent middleKey new'
        unpinPage new' true
      unpinPage parent true

def insert (fuel : Nat) (key : K) (value : V) : PageM (PageData K V) Bool := do
  lockRoot
  let root ← getMember .rootPageId
  if root = invalidPageId then do
    startNewTree f key value
    unlockRoot
    pure true
  else do
    newTransaction
    let p ← findLeafPageRW f fuel key false .insert
    let released ← releaseRoot
    let leaf ← getLeaf p
    if (leaf.lookup key).isSome then do
      unlatchAndUnpin .insert
      leaveRoot released
      pure false
    else do
      let leaf := leaf.insert key value
      setData p (.leaf leaf)
      PageM.when (leaf.size = f.leafMaxSize - 1 + 1) do
        let new ← split f p
        let leaf' ← getLeaf new
        let middleKey ← defined (leaf'.keyAt 0)
        insertIntoParent f fuel p middleKey new
        unpinPage new true
      unlatchAndUnpin .insert
      leaveRoot released
      pure true

def moveAllTo (p recipient : PageId) (middleKey : K) : PageM (PageData K V) Unit := do
  let page ← getInternal p
  let page' ← getInternal recipient
  updateParentPageIds page'.pageId (page.array.map Prod.snd)
  setData recipient (.internal { page' with array := page'.array ++ InternalPage.withFirstKey page.array middleKey })
  setData p (.internal { page with array := [] })

def moveFirstToEndOf (p recipient : PageId) (middleKey : K) : PageM (PageData K V) Unit := do
  let page ← getInternal p
  let page' ← getInternal recipient
  let item ← defined page.array.head?
  updateParentPageId item.2 page'.pageId
  setData p (.internal { page with array := page.array.tail })
  setData recipient (.internal { page' with array := page'.array ++ [(middleKey, item.2)] })

def moveLastToFrontOf (p recipient : PageId) (middleKey : K) : PageM (PageData K V) Unit := do
  let page ← getInternal p
  let page' ← getInternal recipient
  let item ← defined page.array.getLast?
  updateParentPageId item.2 page'.pageId
  setData p (.internal { page with array := page.array.dropLast })
  setData recipient (.internal { page' with array := InternalPage.pushFront page'.array item middleKey })

def setKeyOf (parent p : PageId) (key : K) : PageM (PageData K V) Unit := do
  let page ← getInternal parent
  let index ← defined (page.valueIndex p)
  setData parent (.internal (page.setKeyAt index key))

/-- `Redistribute`, with the neighbour on the right (index 0) or on the left. -/
def redistribute (neighbor p : PageId) (onRight : Bool) : PageM (PageData K V) Unit := do
  let node ← getTreePage p
  let parent := node.parentPageId
  fetch parent
  match node with
  | .leaf leaf => do
    let leaf' ← getLeaf neighbor
    if onRight then do
      let (leaf', leaf) ← defined (leaf'.moveFirstToEndOf leaf)
      setData neighbor (.leaf leaf')
      setData p (.leaf leaf)
      let key ← defined (leaf'.keyAt 0)
      setKeyOf parent leaf'.pageId key
    else do
      let (leaf', leaf) ← defined (leaf'.moveLastToFrontOf leaf)
      setData neighbor (.leaf leaf')
      setData p (.leaf leaf)
      let key ← defined (leaf.keyAt 0)
      setKeyOf parent leaf.pageId key
  | .internal page => do
    let page' ← getInternal neighbor
    let parentPage ← getInternal parent
    if onRight then do
      let index ← defined (parentPage.valueIndex page'.pageId)
      let middleKey ← defined (parentPage.keyAt index)
      moveFirstToEndOf neighbor p middleKey
      let page' ← getInternal neighbor
      let key ← defined (page'.keyAt 0)
      setKeyOf parent page'.pageId key
    else do
      let index ← defined (parentPage.valueIndex page.pageId)
      let middleKey ← defined (parentPage.keyAt index)
      moveLastToFrontOf neighbor p middleKey
      let page ← getInternal p
      let key ← defined (page.keyAt 0)
      setKeyOf parent page.pageId key

def adjustRoot (p : PageId) : PageM (PageData K V) Bool := do
  match ← getTreePage p with
  | .internal page =>
    if page.size = 1 then do
      let child ← defined (page.valueAt 0)
      setData p (.internal { page with array := [] })
      setMember .rootPageId child
      updateParentPageId child invalidPageId
      pure true
    else pure false
  | .leaf page =>
    if page.size = 0 then do
      setMember .rootPageId invalidPageId
      pure true
    else pure false

def mergeInto (neighbor p parent : PageId) (index : Nat) : TreePage K V → PageM (PageData K V) Unit
  | .leaf leaf => do
    let leaf' ← getLeaf neighbor
    match leaf.moveAllTo leaf' with
    | none => throwRuntime "CopyNFrom: will overflow page"
    | some (leaf, leaf') => do
      setData p (.leaf leaf)
      setData neighbor (.leaf { leaf' with nextPageId := leaf.nextPageId })
  | .internal _ => do
    let parentPage ← getInternal parent
    let middleKey ← defined (parentPage.keyAt index)
    moveAllTo p neighbor middleKey

/-- `Coalesce`; `again` is `CoalesceOrRedistribute`. -/
def coalesce (again : PageId → PageM (PageData K V) Bool) (neighbor p parent : PageId) (index : Nat) :
    PageM (PageData K V) Bool := do
  let node ← getTreePage p
  mergeInto neighbor p parent index node
  unpinPage node.pageId true
  deletePage node.pageId
  let parentPage ← getInternal parent
  let parentPage := parentPage.remove index
  setData parent (.internal parentPage)
  if parentPage.size < (f.internalMaxSize + 1) / 2 then again parent else pure false

/-- A merge into the left sibling, if the entries fit; says whether they did. -/
def coalesceLeft (again : PageId → PageM (PageData K V) Bool) (p parent : PageId) (node : TreePage K V)
    (parentPage : InternalPage K) : Option Nat → PageM (PageData K V) Bool
  | none => pure false
  | some i => do
    let sib ← defined (parentPage.valueAt i)
    fetch sib
    latch sib .remove
    let sibNode ← getTreePage sib
    if fitOne f sibNode node then do
      let delParent ← coalesce f again sib p parent (i + 1)
      unlatch sib .remove
      unpinPage parent true
      unpinPage sib true
      PageM.when delParent (deletePage parent)
      pure true
    else do
      unlatch sib .remove
      unpinPage sib false
      pure false

def coalesceRight (again : PageId → PageM (PageData K V) Bool) (p parent : PageId) (node : TreePage K V)
    (parentPage : InternalPage K) (i : Nat) : PageM (PageData K V) Bool :=
  if i < parentPage.size then do
    let sib ← defined (parentPage.valueAt i)
    fetch sib
    latch sib .remove
    let sibNode ← getTreePage sib
    if fitOne f sibNode node then do
      let delParent ← coalesce f again p sib parent i
      unlatch sib .remove
      unpinPage parent true
      unpinPage node.pageId true
      PageM.when delParent (deletePage parent)
      pure true
    else do
      unlatch sib .remove
      unpinPage sib false
      pure false
  else pure false

def borrow (p parent : PageId) (node : TreePage K V) (sib : PageId) (onRight : Bool) :
    PageM (PageData K V) Bool := do
  fetch sib
  latch sib .remove
  let sibNode ← getTreePage sib
  if sibNode.minSize f < sibNode.size then do
    redistribute sib p onRight
    unlatch sib .remove
    unpinPage parent true
    unpinPage node.pageId true
    unpinPage sib true
    pure true
  else do
    unlatch sib .remove
    unpinPage sib false
    pure false

def borrowLeft (p parent : PageId) (node : TreePage K V) (parentPage : InternalPage K) :
    Option Nat → PageM (PageData K V) Bool
  | none => pure false
  | some i => do
    let sib ← defined (parentPage.valueAt i)
    borrow f p parent node sib false

def borrowRight (p parent : PageId) (node : TreePage K V) (parentPage : InternalPage K) (i : Nat) :
    PageM (PageData K V) Bool :=
  if i < parentPage.size then do
    let sib ← defined (parentPage.valueAt i)
    borrow f p parent node sib true
  else pure false

/-- The root case of `CoalesceOrRedistribute`. -/
def shrinkRoot (p : PageId) (node : TreePage K V) : PageM (PageData K V) Bool := do
  PageM.when (node.size ≤ 1) do
    let delRoot ← adjustRoot p
    PageM.when delRoot do
      unpinPage node.pageId true
      deletePage node.pageId
  pure false

def leftSibIndex : Option Nat → Option Nat
  | some (i + 1) => some i
  | _ => none

def rightSibIndex : Option Nat → Nat
  | some i => i + 1
  | none => 0

def coalesceOrRedistribute : Nat → PageId → PageM (PageData K V) Bool
  | 0, _ => throw .outOfFuel
  | fuel + 1, p => do
    let node ← getTreePage p
    if node.isRootPage then shrinkRoot p node
    else do
      let parent := node.parentPageId
      fetch parent
      let parentPage ← getInternal parent
      let index := parentPage.valueIndex node.pageId
      let again := coalesceOrRedistribute fuel
      if ← coalesceLeft f again p parent node parentPage (leftSibIndex index) then pure false
      else if ← coalesceRight f again p parent node parentPage (rightSibIndex index) then pure false
      else if ← borrowLeft f p parent node parentPage (leftSibIndex index) then pure false
      else if ← borrowRight f p parent node parentPage (rightSibIndex index) then pure false
      else throwRuntime "Not root, cannot merge, cannot redistribute? This shouldn't happen"

def remove (fuel : Nat) (key : K) : PageM (PageData K V) Unit := do
  let root ← getMember .rootPageId
  if root = invalidPageId then throwRuntime "Empty tree"
  else do
    newTransaction
    lockRoot
    let p ← findLeafPageRW f fuel key false .remove
    let released ← releaseRoot
    let leaf ← getLeaf p
    let leaf := leaf.removeAndDeleteRecord key
    setData p (.leaf leaf)
    PageM.when (leaf.size < f.leafMaxSize / 2) do
      let deleteLeaf ← coalesceOrRedistribute f fuel p
      PageM.when deleteLeaf (deletePage leaf.pageId)
    unlatchAndUnpin .remove
    leaveRoot released

def firstLeafFrom : Nat → PageId → PageM (PageData K V) PageId
  | 0, _ => throw .outOfFuel
  | fuel + 1, p => do
    fetch p
    match ← getTreePage p with
    | .leaf _ => do
      unpinPage p false
      pure p
    | .internal page => do
      let child ← defined (page.valueAt 0)
      unpinPage p false
      firstLeafFrom fuel child

def firstLeafPageId (fuel : Nat) : PageM (PageData K V) PageId := do
  let root ← getMember .rootPageId
  if root = invalidPageId then pure invalidPageId else firstLeafFrom fuel root

end BPlusTree

end DBPlayground.Storage
