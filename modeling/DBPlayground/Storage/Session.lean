import DBPlayground.Storage.BufferPool
import DBPlayground.Storage.PageProgram

namespace DBPlayground.Storage

open Machine

/-- A client of the real pool: for each page the frame handed out for it last, the page
set of its transaction as the frames it points to, its members, and the latches it has, which
are on frames. -/
structure Session (n : Nat) (α : Type) where
  pool : BufferPool n (MemDisk α) α
  handle : PageId → Option (Fin n)
  pageSet : List (Fin n)
  members : Member → PageId
  latches : List (Fin n × OpType) := []

namespace Session

variable {n : Nat} {α : Type} [Overlay α]

def hand (s : Session n α) (p : PageId) (f : Fin n) (b : BufferPool n (MemDisk α) α) : Session n α :=
  { s with pool := b, handle := Function.update s.handle p (some f) }

def setPool (s : Session n α) (b : BufferPool n (MemDisk α) α) : Session n α := { s with pool := b }

/-- The client has the frame latched already, and not both are read latches. -/
def latched (s : Session n α) (f : Fin n) (op : OpType) : Bool :=
  s.latches.any fun l => l.1 == f && (l.2 != .read || op != .read)

def unlatch (s : Session n α) (op : OpType) : Option (Fin n) → Session n α
  | none => s
  | some f => { s with latches := s.latches.erase (f, op) }

/-- The requests carried out by the pool. A page is read, written and latched through the
pointer to its frame, and the page set gives the id that a frame has by then. To latch a frame
a second time is to wait for ever. -/
def handler : Handler (PoolOp α) PoolOp.Ans (Session n α)
  | .newPage, s =>
    match s.pool.newPage with
    | none => some (none, s)
    | some (f, b) => some (some (b.pages f).pageId, s.hand (b.pages f).pageId f b)
  | .fetchPage p, s =>
    match s.pool.fetchPage p with
    | none => some (false, s)
    | some (f, b) => some (true, s.hand p f b)
  | .unpinPage p isDirty, s => some ((), s.setPool (s.pool.unpinPage p isDirty).2)
  | .deletePage p, s => some ((), s.setPool (s.pool.deletePage p).2)
  | .getData p, s => (s.handle p).map fun f => ((s.pool.pages f).data, s)
  | .setData p data, s =>
    if Overlay.inside data then (s.handle p).map fun f => ((), s.setPool (s.pool.writeData f data)) else none
  | .latch p op, s =>
    (s.handle p).bind fun f => if s.latched f op then none else some ((), { s with latches := (f, op) :: s.latches })
  | .unlatch p op, s => some ((), s.unlatch op (s.handle p))
  | .newTransaction, s => some ((), { s with pageSet := [] })
  | .addIntoPageSet p, s => (s.handle p).map fun f => ((), { s with pageSet := s.pageSet ++ [f] })
  | .pageSetSize, s => some (s.pageSet.length, s)
  | .pageSetPageId i, s => s.pageSet[i]?.map fun f => ((s.pool.pages f).pageId, s)
  | .pageSetUnlatch i op, s => some ((), s.unlatch op s.pageSet[i]?)
  | .clearPageSet, s => some ((), { s with pageSet := [] })
  | .lockRoot, s => some ((), s)
  | .unlockRoot, s => some ((), s)
  | .getMember m, s => some (s.members m, s)
  | .setMember m p, s => some ((), { s with members := Function.update s.members m p })

/-- The frame handed out is none that the page set points to, unless that one is free or has
the page already. -/
def spares (s : Session n α) : Option (Fin n × BufferPool n (MemDisk α) α) → Bool
  | none => false
  | some (_, b) => s.pageSet.all fun g => s.pool.freeList.contains g || (b.pages g).pageId == (s.pool.pages g).pageId

/-- There are frames enough for a request: the pool finds one, and it does not have to take
one from the page set. A page to be latched is in a frame that is not latched. -/
def room : PoolOp α → Session n α → Bool
  | .newPage, s => s.spares s.pool.newPage
  | .fetchPage p, s => s.spares (s.pool.fetchPage p)
  | .latch p op, s => (s.handle p).all fun f => !s.latched f op
  | _, _ => true

def Unpinned (s : Session n α) : Prop := ∀ p f, s.pool.pageTable.lookup p = some f → (s.pool.pages f).pinCount = 0

end Session

end DBPlayground.Storage
