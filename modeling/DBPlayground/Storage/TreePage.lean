import DBPlayground.Storage.Config
import Mathlib.Order.Lattice

namespace DBPlayground.Storage

/-- `BPlusTreeLeafPage`: the array up to the page's size, with the header. -/
structure LeafPage (K V : Type) where
  maxSize : Nat
  parentPageId : PageId
  pageId : PageId
  nextPageId : PageId
  array : List (K × V)

/-- `BPlusTreeInternalPage`. The key of its first entry is not used. -/
structure InternalPage (K : Type) where
  parentPageId : PageId
  pageId : PageId
  array : List (K × PageId)

namespace LeafPage

variable {K V : Type} [LinearOrder K]

def init (pageId parentId : PageId) (maxSize : Nat) : LeafPage K V :=
  ⟨maxSize, parentId, pageId, invalidPageId, []⟩

def size (p : LeafPage K V) : Nat := p.array.length

def getMaxSize (p : LeafPage K V) : Nat := p.maxSize - 1

/-- `std::lower_bound` on the array, which is sorted wherever it is called. -/
def keyIndex (p : LeafPage K V) (key : K) : Nat := (p.array.takeWhile (·.1 < key)).length

def lookup (p : LeafPage K V) (key : K) : Option V :=
  match p.array[p.keyIndex key]? with
  | some (k, v) => if k = key then some v else none
  | none => none

def insert (p : LeafPage K V) (key : K) (value : V) : LeafPage K V :=
  { p with array := p.array.insertIdx (p.keyIndex key) (key, value) }

def removeAndDeleteRecord (p : LeafPage K V) (key : K) : LeafPage K V :=
  if (p.lookup key).isSome then { p with array := p.array.eraseIdx (p.keyIndex key) } else p

end LeafPage

namespace LeafPage

variable {K V : Type}

def keyAt (p : LeafPage K V) (index : Nat) : Option K := p.array[index]?.map Prod.fst

/-- `CopyNFrom` with the size update its callers make; `none` is its throw. -/
def copyNFrom (p : LeafPage K V) (items : List (K × V)) : Option (LeafPage K V) :=
  if p.size + items.length > p.getMaxSize then none else some { p with array := p.array ++ items }

/-- `MoveHalfTo`: this page and the recipient afterwards. -/
def moveHalfTo (p recipient : LeafPage K V) : Option (LeafPage K V × LeafPage K V) := do
  let moveStart := (p.size + 1) / 2
  let recipient ← recipient.copyNFrom (p.array.drop moveStart)
  pure ({ p with array := p.array.take moveStart }, recipient)

def moveAllTo (p recipient : LeafPage K V) : Option (LeafPage K V × LeafPage K V) := do
  let recipient ← recipient.copyNFrom p.array
  pure ({ p with array := [] }, { recipient with nextPageId := p.nextPageId })

/-- `MoveFirstToEndOf`; `none` stands for a read of an entry that is not there. -/
def moveFirstToEndOf (p recipient : LeafPage K V) : Option (LeafPage K V × LeafPage K V) :=
  match p.array with
  | [] => none
  | item :: rest => some ({ p with array := rest }, { recipient with array := recipient.array ++ [item] })

def moveLastToFrontOf (p recipient : LeafPage K V) : Option (LeafPage K V × LeafPage K V) :=
  match p.array.getLast? with
  | none => none
  | some item =>
    some ({ p with array := p.array.dropLast }, { recipient with array := item :: recipient.array })

end LeafPage

namespace InternalPage

variable {K : Type}

def init (pageId parentId : PageId) : InternalPage K := ⟨parentId, pageId, []⟩

def size (p : InternalPage K) : Nat := p.array.length

/-- `ValueIndex`; `none` is its result -1. -/
def valueIndex (p : InternalPage K) (value : PageId) : Option Nat := p.array.findIdx? (·.2 = value)

def keyAt (p : InternalPage K) (index : Nat) : Option K := p.array[index]?.map Prod.fst

def valueAt (p : InternalPage K) (index : Nat) : Option PageId := p.array[index]?.map Prod.snd

def setKeyAt (p : InternalPage K) (index : Nat) (key : K) : InternalPage K :=
  { p with array := p.array.modify index fun item => (key, item.2) }

section

variable [LinearOrder K]

/-- The search loop of `Lookup`, with the child left of the keys to come. -/
def lookupFrom (key : K) (child : PageId) : List (K × PageId) → PageId
  | [] => child
  | (k, next) :: rest => if key < k then child else lookupFrom key next rest

/-- `Lookup`; `none` stands for a read of an entry that is not there. -/
def lookup (p : InternalPage K) (key : K) : Option PageId :=
  match p.array with
  | [] => none
  | (_, child) :: rest => some (lookupFrom key child rest)

end

/-- `PopulateNewRoot` on a page just allocated, whose first key is zero. -/
def populateNewRoot [Inhabited K] (p : InternalPage K) (old : PageId) (key : K) (new : PageId) : InternalPage K :=
  { p with
    array := if old ≤ new then [(default, old), (key, new)] else [(default, new), (key, old)] }

def insertNodeAfter (p : InternalPage K) (old : PageId) (key : K) (new : PageId) : InternalPage K :=
  let position := match p.valueIndex old with
    | some i => i + 1
    | none => 0
  { p with array := p.array.insertIdx position (key, new) }

def remove (p : InternalPage K) (index : Nat) : InternalPage K :=
  { p with array := p.array.eraseIdx index }

def halves (p : InternalPage K) : List (K × PageId) × List (K × PageId) :=
  let moveStart := (p.size + 1) / 2
  (p.array.take moveStart, p.array.drop moveStart)

/-- What `MoveAllTo` appends to the recipient. -/
def withFirstKey (array : List (K × PageId)) (middleKey : K) : List (K × PageId) :=
  array.modify 0 fun item => (middleKey, item.2)

/-- What `MoveLastToFrontOf` makes of the recipient: its entries move by two
places, the pair taken from the neighbour goes to index 1, the first pointer
is set to `INVALID_PAGE_ID`, and the size grows by one. -/
def pushFront [Inhabited K] (array : List (K × PageId)) (moved : K × PageId) (middleKey : K) : List (K × PageId) :=
  let firstKey := (array.head?.map Prod.fst).getD default
  ((firstKey, invalidPageId) :: moved :: withFirstKey array middleKey).take (array.length + 1)

end InternalPage

end DBPlayground.Storage
