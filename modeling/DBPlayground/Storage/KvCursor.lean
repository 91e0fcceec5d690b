import DBPlayground.Storage.BPlusTree
import DBPlayground.Storage.EncodedKey
import DBPlayground.Storage.TupleStore

namespace DBPlayground.Storage

open ByteReader PageM

structure KvCursor where
  entries : List (EncodedKey × RID)
  pos : Nat
  nextLeaf : PageId
  key : Bytes
  value : Bytes
  valid : Bool

namespace KvCursor

abbrev EnginePage := PageData EncodedKey RID

def init : KvCursor := ⟨[], 0, invalidPageId, [], [], false⟩

/-- `Materialize`; a value that `Get` does not find is left empty. -/
def materialize (c : KvCursor) : PageM EnginePage KvCursor := do
  let e ← defined c.entries[c.pos]?
  let value ← TupleStore.get e.2
  pure { c with key := e.1.bytes, value := value.getD [] }

/-- The loop of `LoadLeaf`, entered with no entries buffered. -/
def loadLeaf : Nat → KvCursor → PageId → PageM EnginePage KvCursor
  | 0, _, _ => throw .outOfFuel
  | fuel + 1, c, pid =>
    if pid = invalidPageId then pure { c with valid := false }
    else do
      fetch pid
      let leaf ← getLeaf pid
      let c := { c with entries := leaf.array, nextLeaf := leaf.nextPageId }
      unpinPage pid false
      if c.entries.isEmpty then loadLeaf fuel c c.nextLeaf
      else materialize { c with valid := true }

def newCursor (fuel : Nat) : PageM EnginePage KvCursor := do
  let first ← BPlusTree.firstLeafPageId fuel
  loadLeaf fuel init first

def next (fuel : Nat) (c : KvCursor) : PageM EnginePage KvCursor :=
  if c.valid then
    if c.entries.length ≤ c.pos + 1 then loadLeaf fuel { c with entries := [], pos := 0 } c.nextLeaf
    else materialize { c with pos := c.pos + 1 }
  else pure c

def collect : Nat → KvCursor → PageM EnginePage (List (Bytes × Bytes))
  | 0, _ => throw .outOfFuel
  | fuel + 1, c =>
    if c.valid then do
      let c' ← next fuel c
      let rest ← collect fuel c'
      pure ((c.key, c.value) :: rest)
    else pure []

def scan (fuel : Nat) : PageM EnginePage (List (Bytes × Bytes)) := do
  let c ← newCursor fuel
  collect fuel c

end KvCursor

end DBPlayground.Storage
