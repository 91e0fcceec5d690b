import DBPlayground.Lib.Machine
import DBPlayground.Storage.TreePage
import DBPlayground.Storage.ValuePage
import DBPlayground.Table.Column

namespace DBPlayground.Storage

open ByteReader Program Machine Table

structure MetaPage where
  magic : BitVec 32
  version : BitVec 32
  keyType : Byte
  valueType : Byte
  rootPageId : PageId
  tupleFirstPageId : PageId
  deriving DecidableEq

/-- The bytes of a page, as the component that uses the page overlays them. -/
inductive PageData (K V : Type)
  | zero
  | catalog (page : MetaPage)
  | value (page : ValuePage)
  | leaf (page : LeafPage K V)
  | internal (page : InternalPage K)

/-- What pages are overlaid with: a zeroed page, and what stays inside the page. -/
class Overlay (α : Type) extends Inhabited α where
  inside : α → Bool

/-- The entries of a tree page lie behind a header of 24 bytes: pairs of a key and a `RID`
with 16 bytes each in a leaf, pairs of a key and a page id with 12 in an internal page. -/
def PageData.inside {K V : Type} : PageData K V → Bool
  | .leaf page => 24 + 16 * page.array.length ≤ pageSize
  | .internal page => 24 + 12 * page.array.length ≤ pageSize
  | _ => true

instance {K V : Type} : Overlay (PageData K V) := { default := .zero, inside := PageData.inside }

inductive Member
  | rootPageId
  | firstPageId
  deriving DecidableEq

inductive OpType
  | read | insert | remove
  deriving DecidableEq

/-- What the components ask of the buffer pool, of a transaction's page set and
of their own members. A pointer to a frame is named by the page for which
`NewPage` or `FetchPage` handed it out last; the page set keeps pointers. -/
inductive PoolOp (α : Type)
  | newPage
  | fetchPage (p : PageId)
  | unpinPage (p : PageId) (isDirty : Bool)
  | deletePage (p : PageId)
  | getData (p : PageId)
  | setData (p : PageId) (data : α)
  | latch (p : PageId) (op : OpType)
  | unlatch (p : PageId) (op : OpType)
  | newTransaction
  | addIntoPageSet (p : PageId)
  | pageSetSize
  | pageSetPageId (i : Nat)
  | pageSetUnlatch (i : Nat) (op : OpType)
  | clearPageSet
  | lockRoot
  | unlockRoot
  | getMember (m : Member)
  | setMember (m : Member) (p : PageId)

/-- A page is not written past its end. -/
def PoolOp.inside {α : Type} [Overlay α] : PoolOp α → Bool
  | .setData _ data => Overlay.inside data
  | _ => true

/-- The answers: `NewPage` and `FetchPage` may answer with a null pointer. -/
abbrev PoolOp.Ans {α : Type} : PoolOp α → Type
  | .newPage => Option PageId
  | .fetchPage _ => Bool
  | .getData _ => α
  | .pageSetSize => Nat
  | .pageSetPageId _ => PageId
  | .getMember _ => PageId
  | _ => Unit

inductive Abort
  | threw (e : Exn)
  /-- A null pointer, an entry that is not there, or a page overlaid as what it is not. -/
  | undefined
  | outOfFuel
  deriving DecidableEq

abbrev PageM (α : Type) := Method (PoolOp α) PoolOp.Ans Abort

namespace PageM

section

variable {α β : Type}

def newPage : PageM α (Option PageId) := perform PoolOp.newPage

def fetchPage (p : PageId) : PageM α Bool := perform (PoolOp.fetchPage p)

/-- `FetchPage` where the result is used without a check for null. -/
def fetch (p : PageId) : PageM α Unit := do
  if ← fetchPage p then pure () else throw .undefined

def unpinPage (p : PageId) (isDirty : Bool) : PageM α Unit := perform (PoolOp.unpinPage p isDirty)

def deletePage (p : PageId) : PageM α Unit := perform (PoolOp.deletePage p)

def getData (p : PageId) : PageM α α := perform (PoolOp.getData p)

def setData (p : PageId) (data : α) : PageM α Unit := perform (PoolOp.setData p data)

def latch (p : PageId) (op : OpType) : PageM α Unit := perform (PoolOp.latch p op)

def unlatch (p : PageId) (op : OpType) : PageM α Unit := perform (PoolOp.unlatch p op)

def newTransaction : PageM α Unit := perform PoolOp.newTransaction

def addIntoPageSet (p : PageId) : PageM α Unit := perform (PoolOp.addIntoPageSet p)

def pageSetSize : PageM α Nat := perform PoolOp.pageSetSize

/-- `GetPageId` through the pointer at an index of the page set. -/
def pageSetPageId (i : Nat) : PageM α PageId := perform (PoolOp.pageSetPageId i)

def pageSetUnlatch (i : Nat) (op : OpType) : PageM α Unit := perform (PoolOp.pageSetUnlatch i op)

def clearPageSet : PageM α Unit := perform PoolOp.clearPageSet

def lockRoot : PageM α Unit := perform PoolOp.lockRoot

def unlockRoot : PageM α Unit := perform PoolOp.unlockRoot

def getMember (m : Member) : PageM α PageId := perform (PoolOp.getMember m)

def setMember (m : Member) (p : PageId) : PageM α Unit := perform (PoolOp.setMember m p)

def throwRuntime (what : String) : PageM α β := throw (.threw (.runtimeError what))

/-- A value computed from page contents, where `none` is undefined behaviour. -/
def defined : Option β → PageM α β
  | some b => pure b
  | none => throw .undefined

end

variable {K V : Type}

def getLeaf (p : PageId) : PageM (PageData K V) (LeafPage K V) := do
  match ← getData p with
  | .leaf page => pure page
  | _ => throw .undefined

def getInternal (p : PageId) : PageM (PageData K V) (InternalPage K) := do
  match ← getData p with
  | .internal page => pure page
  | _ => throw .undefined

/-- A page overlaid as a value page; a zeroed page can be one. -/
def getValuePage (p : PageId) : PageM (PageData K V) ValuePage := do
  match ← getData p with
  | .value page => pure page
  | .zero => pure .zero
  | _ => throw .undefined

def getCatalog (p : PageId) : PageM (PageData K V) MetaPage := do
  match ← getData p with
  | .catalog page => pure page
  | .zero => pure ⟨0, 0, 0, 0, 0, 0⟩
  | _ => throw .undefined

section ends

variable {α β γ σ : Type} {s t u : σ} {r : Except Abort β} {p : PageId}

theorem ends_fetch {M : Handler (PoolOp α) PoolOp.Ans σ} {f : Unit → PageM α β} {b : Bool}
    (hp : M (.fetchPage p) s = some (b, u)) (hb : b = true) (hf : Ends M (f ()) u r t) : Ends M (fetch p >>= f) s r t := by
  unfold fetch
  rw [bind_assoc]
  refine ends_perform hp ?_
  rw [hb]
  exact hf

theorem ends_defined {M : Handler (PoolOp α) PoolOp.Ans σ} {f : γ → PageM α β} {x : Option γ} {c : γ} (hx : x = some c)
    (hf : Ends M (f c) s r t) : Ends M (defined x >>= f) s r t := by
  subst hx
  exact hf

theorem ends_getValuePage {M : Handler (PoolOp (PageData K V)) PoolOp.Ans σ} {f : ValuePage → PageM (PageData K V) β}
    {data : PageData K V} {v : ValuePage} (hp : M (.getData p) s = some (data, u)) (hd : data = .value v)
    (hf : Ends M (f v) u r t) : Ends M (getValuePage p >>= f) s r t := by
  unfold getValuePage
  rw [bind_assoc]
  refine ends_perform hp ?_
  rw [hd]
  exact hf

end ends

end PageM

end DBPlayground.Storage
