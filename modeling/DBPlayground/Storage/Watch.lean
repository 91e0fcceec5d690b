import DBPlayground.Storage.PageStore

namespace DBPlayground.Storage

open Machine

/-- What a running call holds besides its pins: the pages it has write-latched, the
pages it has allocated, and whether it has `root_mutex_`. -/
structure Watch where
  latched : List PageId
  created : List PageId
  rootLocked : Bool

namespace Watch

def start : Watch := ⟨[], [], false⟩

def record {α : Type} (w : Watch) (pageSet : List PageId) : (o : PoolOp α) → o.Ans → Watch
  | .newPage, some p => { w with created := p :: w.created }
  | .latch p op, _ => if op = .read then w else { w with latched := p :: w.latched }
  | .unlatch p op, _ => if op = .read then w else { w with latched := w.latched.erase p }
  | .pageSetUnlatch i op, _ =>
    if op = .read then w
    else match pageSet[i]? with
      | some p => { w with latched := w.latched.erase p }
      | none => w
  | .lockRoot, _ => { w with rootLocked := true }
  | .unlockRoot, _ => { w with rootLocked := false }
  | _, _ => w

end Watch

namespace PageData

variable {K V : Type}

def SameEntries : PageData K V → PageData K V → Prop
  | .leaf page, .leaf page' => page.array = page'.array
  | .internal page, .internal page' => page.array = page'.array
  | _, _ => False

def parentPageId : PageData K V → PageId
  | .leaf page => page.parentPageId
  | .internal page => page.parentPageId
  | _ => invalidPageId

end PageData

namespace PageStore

/-- The page store together with a watch over the call that runs on it. -/
def watching {α : Type} (M : Handler (PoolOp α) PoolOp.Ans (PageStore α)) :
    Handler (PoolOp α) PoolOp.Ans (PageStore α × Watch) :=
  fun o x => (M o x.1).map fun y => (y.1, y.2, x.2.record x.1.pageSet o y.1)

variable {K V : Type}

/-- The call may change the entries of a page: the page is in its page set, the call
allocated it, or it is write-latched while its parent is in the page set. -/
def Covered (x : PageStore (PageData K V) × Watch) (p : PageId) : Prop :=
  p ∈ x.1.pageSet ∨ p ∈ x.2.created ∨ p ∈ x.2.latched ∧ (x.1.pages p).parentPageId ∈ x.1.pageSet

/-- A request that changes entries is for a page that is covered, and
`root_page_id_` is changed only while the root page, if there is one, is in the page
set and `root_mutex_` is held. -/
def Permitted : PoolOp (PageData K V) → PageStore (PageData K V) × Watch → Prop
  | .setData p data, x => (x.1.pages p).SameEntries data ∨ Covered x p
  | .deletePage p, x => Covered x p
  | .setMember .rootPageId _, x =>
    (x.1.members .rootPageId = invalidPageId ∨ x.1.members .rootPageId ∈ x.1.pageSet) ∧ x.2.rootLocked = true
  | _, _ => True

/-- The request is permitted, and writes no page past its end. -/
def Proper (o : PoolOp (PageData K V)) (x : PageStore (PageData K V) × Watch) : Prop := o.inside = true ∧ Permitted o x

section watching

variable {α β : Type} {M : Handler (PoolOp α) PoolOp.Ans (PageStore α)}

theorem simulates_watching : Simulates M (watching M) fun s x => x.1 = s := by
  rintro o _ x r t rfl ho
  exact ⟨_, congrArg (Option.map _) ho, rfl⟩

end watching

end PageStore

end DBPlayground.Storage
