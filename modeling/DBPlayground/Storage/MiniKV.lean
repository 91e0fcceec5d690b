import DBPlayground.Lib.Service
import DBPlayground.Storage.EngineSession

namespace DBPlayground.Storage

open Machine BufferPool Footprint Service ByteReader PageM KvCursor TupleStore

namespace BufferPool

variable {n : Nat} {α : Type} [Inhabited α] {b : BufferPool n (MemDisk α) α}

theorem foldl_writeBack_content {l : List (Sigma fun _ : PageId => Fin n)} (hi : Inv b) (hfr : Fresh b)
    (hl : ∀ x ∈ l, b.pageTable.lookup x.1 = some x.2) (q : PageId) :
    (l.foldl (fun b item => b.writeBack item.1 item.2) b).disk.content q =
      if q ∈ l.map Sigma.fst then b.view q else b.disk.content q := by
  induction l generalizing b with
  | nil => rfl
  | cons x l ih =>
      have hx := hl x List.mem_cons_self
      have hback := writeBack_writtenBack hi hfr hx
      have hrest := ih hback.inv hback.fresh fun y hy => hl y (List.mem_cons_of_mem x hy)
      rw [hback.view_eq] at hrest
      refine hrest.trans ?_
      by_cases hq : q = x.1
      · have hdata : (b.writeBack x.1 x.2).disk.content q = b.view q := by
          rw [hq, view_resident hx]
          exact Function.update_self ..
        rw [hdata, ite_self, if_pos (by rw [hq]; exact List.mem_cons_self)]
      · have hsame : (b.writeBack x.1 x.2).disk.content q = b.disk.content q := Function.update_of_ne hq ..
        rw [hsame, List.map_cons]
        simp only [List.mem_cons, hq, false_or]

theorem flushAllPages_content (hi : Inv b) (hfr : Fresh b) (q : PageId) :
    b.flushAllPages.disk.content q = b.view q := by
  refine (foldl_writeBack_content hi hfr (fun _ hx => AList.mem_lookup_iff.mpr hx) q).trans ?_
  split
  · rfl
  · next hq =>
      refine (view_absent ?_).symm
      exact AList.lookup_eq_none.mpr hq

omit [Inhabited α] in
theorem foldl_writeBack_pageId {l : List (Sigma fun _ : PageId => Fin n)} (g : Fin n) :
    ((l.foldl (fun b item => b.writeBack item.1 item.2) b).pages g).pageId = (b.pages g).pageId := by
  induction l generalizing b with
  | nil => rfl
  | cons x l ih =>
      refine ih.trans ?_
      show (Function.update b.pages x.2 { b.pages x.2 with isDirty := false } g).pageId = _
      by_cases hg : g = x.2
      · rw [hg, Function.update_self]
      · rw [Function.update_of_ne hg]

theorem makeRoom_of_unpinned (hi : Inv b) (hu : ∀ g, (b.pages g).pinCount = 0) (hn : 0 < n) :
    ∃ b', b.makeRoom = some b' ∧ b'.freeList ≠ [] := by
  unfold makeRoom
  split
  · next hfree =>
      have hmem : (⟨0, hn⟩ : Fin n) ∈ b.replacer.unpinned := by
        refine (hi.idle ?_).mpr (hu _)
        rw [hfree]
        exact List.not_mem_nil
      unfold evict
      cases hv : b.replacer.victim with
      | none =>
          rw [LRUReplacer.victim_eq_none.mp hv] at hmem
          exact absurd hmem List.not_mem_nil
      | some x => exact ⟨_, rfl, List.append_ne_nil_of_right_ne_nil _ (List.cons_ne_nil _ _)⟩
  · next hfree => exact ⟨b, rfl, hfree⟩

end BufferPool

namespace Session.Idle

variable {n : Nat} {K V : Type} {s : Session n (PageData K V)}

theorem spares (hs : s.Idle) (x : Fin n × BufferPool n (MemDisk (PageData K V)) (PageData K V)) :
    s.spares (some x) = true := by
  unfold Session.spares
  rw [hs.pageSet]
  rfl

theorem room_fetchPage (hs : s.Idle) (hn : 0 < n) (p : PageId) : s.room (.fetchPage p) = true := by
  obtain ⟨b, hb, hfree⟩ := makeRoom_of_unpinned hs.inv hs.unpinned hn
  have hfetch : ∃ x, s.pool.fetchPage p = some x := by
    unfold BufferPool.fetchPage
    split
    · exact ⟨_, rfl⟩
    · rw [hb, Option.bind_eq_bind, Option.bind_some, List.getLast?_eq_some_getLast hfree]
      exact ⟨_, rfl⟩
  obtain ⟨x, hx⟩ := hfetch
  show s.spares (s.pool.fetchPage p) = true
  rw [hx]
  exact hs.spares x

theorem room_newPage (hs : s.Idle) (hn : 0 < n) : s.room .newPage = true := by
  obtain ⟨b, hb, hfree⟩ := makeRoom_of_unpinned hs.inv hs.unpinned hn
  have hnew : ∃ x, s.pool.newPage = some x := by
    unfold BufferPool.newPage
    split
    · next hnone =>
        exfalso
        unfold makeRoom at hb
        rw [if_pos hnone.1] at hb
        unfold evict at hb
        rw [LRUReplacer.victim_eq_none.mpr (List.eq_nil_of_length_eq_zero hnone.2)] at hb
        cases hb
    · rw [hb, Option.bind_eq_bind, Option.bind_some, List.head?_eq_some_head hfree]
      exact ⟨_, rfl⟩
  obtain ⟨x, hx⟩ := hnew
  show s.spares s.pool.newPage = true
  rw [hx]
  exact hs.spares x

theorem lt_nextPageId (hs : s.Idle) {p : PageId} (hp : s.store.pages p ≠ default) : p < s.store.nextPageId := by
  by_contra hle
  have hle : s.pool.disk.nextPageId ≤ p := Int.not_lt.mp hle
  refine hp ?_
  cases hl : s.pool.pageTable.lookup p with
  | none => exact (view_absent hl).trans (hs.fresh.unwritten hle)
  | some g => exact absurd (hs.fresh.resident_lt hl) (Int.not_lt.mpr hle)

theorem flushAllPages (hs : s.Idle) : (s.setPool s.pool.flushAllPages).Idle ∧
    (s.setPool s.pool.flushAllPages).store = s.store := by
  have hb := flushAllPages_writtenBack hs.inv hs.fresh
  refine ⟨⟨hb.inv, hb.fresh, fun p => hb.clean p (hs.clean p), fun g => (hb.pinCount g).trans (hs.unpinned g),
    fun g hg => ?_,
    fun hp => hs.resident ((congrArg (AList.lookup _) hb.table).symm.trans hp), ?_, hs.pageSet⟩, ?_⟩
  · exact (foldl_writeBack_pageId g).trans (hs.blank g (hb.free ▸ hg))
  · show 0 ≤ s.pool.flushAllPages.disk.nextPageId
    rw [hb.next_eq]
    exact hs.next
  · show ({ pages := s.pool.flushAllPages.view, nextPageId := s.pool.flushAllPages.disk.nextPageId
            members := s.members, pageSet := [] } : PageStore (PageData K V)) = _
    rw [show s.pool.flushAllPages.view = s.pool.view from funext hb.view_eq, hb.next_eq]
    rfl

end Session.Idle

namespace BPlusTreeEngine

def kMetaMagic : BitVec 32 := 0x44425047

def kMetaVersion : BitVec 32 := 1

def notReserved : String := "BPlusTreeEngine: could not reserve the meta page (HEADER_PAGE_ID)"

/-- The constructor, with `key_type_` and `value_type_` as its result. -/
def construct (isNew : Bool) (keyType valueType : Byte) : PageM EnginePage (Byte × Byte) :=
  if isNew then do
    match ← newPage with
    | none => throwRuntime notReserved
    | some p =>
      if p = headerPageId then do
        setData p (.catalog ⟨kMetaMagic, kMetaVersion, keyType, valueType, invalidPageId, invalidPageId⟩)
        unpinPage headerPageId true
        setMember .rootPageId invalidPageId
        setMember .firstPageId invalidPageId
        pure (keyType, valueType)
      else throwRuntime notReserved
  else do
    if ← fetchPage headerPageId then
      let page ← getCatalog headerPageId
      unpinPage headerPageId false
      if page.magic = kMetaMagic then
        setMember .rootPageId page.rootPageId
        setMember .firstPageId page.tupleFirstPageId
        pure (page.keyType, page.valueType)
      else throwRuntime "BPlusTreeEngine: not a dbplayground file (bad magic)"
    else throwRuntime "BPlusTreeEngine: could not read the meta page"

/-- What `Flush` does before `FlushAllPages`. -/
def saveCatalog : PageM EnginePage Unit := do
  if ← fetchPage headerPageId then
    let page ← getCatalog headerPageId
    let root ← getMember .rootPageId
    let first ← getMember .firstPageId
    setData headerPageId (.catalog { page with rootPageId := root, tupleFirstPageId := first })
    unpinPage headerPageId true
  else pure ()

end BPlusTreeEngine

open BPlusTreeEngine

/-- An open database: the pool with the engine's members, the declared types, and `closed_`. -/
structure MiniKV (n : Nat) where
  session : Session n EnginePage
  keyType : Byte
  valueType : Byte
  closed : Bool

namespace MiniKV

variable {n : Nat}

def mount (n : Nat) (disk : MemDisk EnginePage) : Session n EnginePage :=
  ⟨.new n disk, fun _ => none, [], fun _ => invalidPageId, []⟩

/-- The constructor, which takes a file without pages for a new one. -/
def new (n : Nat) (disk : MemDisk EnginePage) (keyType valueType : Byte) : ExceptT Abort Option (MiniKV n) :=
  (Machine.run Session.handler (construct (disk.nextPageId = 0) keyType valueType).run (mount n disk)).map fun x =>
    x.1.map fun types => ⟨x.2, types.1, types.2, false⟩

def close (kv : MiniKV n) : ExceptT Abort Option (MiniKV n) :=
  if kv.closed then pure kv
  else (Machine.run Session.handler saveCatalog.run kv.session).map fun x =>
    x.1.map fun _ => { kv with session := x.2.setPool x.2.pool.flushAllPages, closed := true }

/-- The destructor, and the constructor on the file again. The allocator resumes from `next`. -/
def reopen (next : PageId) (keyType valueType : Byte) (kv : MiniKV n) : ExceptT Abort Option (MiniKV n) := do
  let kv ← kv.close
  new n ⟨kv.session.pool.disk.content, next⟩ keyType valueType

inductive Event
  | call (c : Call)
  | close
  | reopen (next : PageId) (keyType valueType : Byte)

inductive Outcome
  | reply (r : Except Abort Reply)
  | closed
  | opened (keyType valueType : Byte)

/-- The calls go to the engine, `closed_` or not. -/
def step (f : Fanout) (fuel : Nat) : Event → MiniKV n → Option (Outcome × MiniKV n)
  | .call c, kv => (BPlusTreeEngine.step f fuel c kv.session).map fun x => (.reply x.1, { kv with session := x.2 })
  | .close, kv => (kv.close.run.bind Except.toOption).map fun kv => (.closed, kv)
  | .reopen next keyType valueType, kv =>
    ((kv.reopen next keyType valueType).run.bind Except.toOption).map fun kv => (.opened kv.keyType kv.valueType, kv)

end MiniKV

namespace Heap

variable {β : Type} {K V : Type} {h : Heap (PageData K V)} {p : PageId} {Q : β → Heap (PageData K V) → Prop}

theorem ensures_getCatalog {page : MetaPage} {g : MetaPage → PageM (PageData K V) β} (hp : h.Held p)
    (hpage : h.data p = .catalog page) (hg : Ensures (g page) h Q) : Ensures (getCatalog p >>= g) h Q := by
  unfold getCatalog
  rw [bind_assoc]
  refine ensures_getData hp ?_
  rw [hpage]
  exact hg

end Heap

namespace BPlusTreeEngine

open Heap

variable {n : Nat} {f : Fanout} {s t : Session n EnginePage} {ix : Index EncodedKey RID} {m : EncodedKey → Option RID}
  {dir : Directory} {cat cat' : MetaPage} {a : KvMap} {h : Heap EnginePage} {keyType valueType : Byte}

theorem yields_construct_old (hc : h.Calm) (hlive : h.Live headerPageId) (hpage : h.data headerPageId = .catalog cat)
    (hmagic : cat.magic = kMetaMagic) :
    Yields (construct false keyType valueType) h (cat.keyType, cat.valueType)
      ((h.setMember .rootPageId cat.rootPageId).setMember .firstPageId cat.tupleFirstPageId) := by
  unfold construct
  rw [if_neg Bool.false_ne_true]
  refine ensures_fetchPage hlive ?_
  rw [if_pos rfl]
  refine ensures_getCatalog (held_pin hlive) hpage (ensures_giveBack hc hlive ?_)
  rw [if_pos hmagic]
  exact ensures_setMember (ensures_setMember (ensures_pure ⟨rfl, rfl⟩))

def saved (cat : MetaPage) (members : Member → PageId) : MetaPage :=
  { cat with rootPageId := members .rootPageId, tupleFirstPageId := members .firstPageId }

theorem yields_saveCatalog (hc : h.Calm) (hlive : h.Live headerPageId) (hpage : h.data headerPageId = .catalog cat) :
    Yields saveCatalog h () (h.write headerPageId (.catalog (saved cat h.members))) := by
  unfold saveCatalog
  refine ensures_fetchPage hlive ?_
  rw [if_pos rfl]
  refine ensures_getCatalog (held_pin hlive) hpage (ensures_getMember (ensures_getMember ?_))
  refine ensures_setData rfl (held_pin hlive) ?_
  have hback := ensures_writeBack
    (Q := fun r t => r = () ∧ t = h.write headerPageId (.catalog (saved cat h.members))) hc hlive
    (ensures_pure (b := ()) ⟨rfl, rfl⟩)
  rwa [bind_pure] at hback

theorem always_getCatalog {p : PageId} : s.HasRoom (getCatalog p : PageM EnginePage MetaPage) :=
  ⟨rfl, fun data _ _ => by cases data <;> trivial⟩

theorem room_saveCatalog (hs : s.Idle) (hn : 0 < n) : s.HasRoom saveCatalog := by
  refine ⟨hs.room_fetchPage hn _, fun r t _ => ?_⟩
  cases r with
  | false => trivial
  | true =>
      exact always_getCatalog.bindM fun _ _ _ =>
        ⟨rfl, fun _ _ _ => ⟨rfl, fun _ _ _ => ⟨rfl, fun _ _ _ => ⟨rfl, fun _ _ _ => trivial⟩⟩⟩⟩

theorem room_construct (hs : s.Idle) (hn : 0 < n) (isNew : Bool) : s.HasRoom (construct isNew keyType valueType) := by
  unfold construct
  cases isNew with
  | true =>
      refine ⟨hs.room_newPage hn, fun r t _ => ?_⟩
      cases r with
      | none => trivial
      | some p =>
          show Always _ _ (ExceptT.run (if p = headerPageId then _ else _)) t
          split
          · exact ⟨rfl, fun _ _ _ => ⟨rfl, fun _ _ _ => ⟨rfl, fun _ _ _ => ⟨rfl, fun _ _ _ => trivial⟩⟩⟩⟩
          · trivial
  | false =>
      refine ⟨hs.room_fetchPage hn _, fun r t _ => ?_⟩
      cases r with
      | false => trivial
      | true =>
          refine always_getCatalog.bindM fun page _ _ => ⟨rfl, fun _ t _ => ?_⟩
          show Always _ _ (ExceptT.run (if page.magic = kMetaMagic then _ else _)) t
          split
          · exact ⟨rfl, fun _ _ _ => ⟨rfl, fun _ _ _ => trivial⟩⟩
          · trivial

/-- The engine is in its pages and members: it is the same where they are the same. The catalog
may change. -/
theorem Serves.transport (hs : Serves f s ix m dir cat a) (ht : t.Idle) (hmembers : t.members = s.members)
    (hpages : ∀ p, 0 ≤ p → p < s.store.nextPageId → p ≠ headerPageId → s.store.pages p ≠ default →
      t.store.pages p = s.store.pages p)
    (hcat : t.store.pages headerPageId = .catalog cat')
    (hlt : ∀ p, 0 ≤ p → s.store.pages p ≠ default → p < t.store.nextPageId) : Serves f t ix m dir cat' a := by
  have htree : ∀ x ∈ ix.pages f, x.1 ≠ headerPageId ∧ s.store.pages x.1 ≠ default := by
    intro x hx
    refine ⟨fun he => hs.notMem_ids hx (he ▸ List.mem_cons_self), fun he => ?_⟩
    have hnode := ix.isNode_pages x hx
    rw [← hs.keeps.holds.value x hx, he] at hnode
    exact hnode
  have hids : ∀ p ∈ dir.ids, p ≠ headerPageId ∧ s.store.pages p ≠ default := by
    intro p hp
    obtain ⟨v, hv, _⟩ := hs.stored.page hp
    refine ⟨fun he => hs.header_notMem (he ▸ hp), fun he => ?_⟩
    rw [hv] at he
    cases he
  have hstored : Stored t.store dir := by
    refine ⟨?_, hs.stored.nodup, fun p hp => ?_, hs.stored.outside, hs.stored.used, ht.next⟩
    · rw [show t.store.members .firstPageId = s.store.members .firstPageId from congrFun hmembers _]
      refine hs.stored.chained.congr fun q hq => ⟨?_, rfl⟩
      exact hpages q (hs.stored.range q hq).1 (hs.stored.range q hq).2 (hids q hq).1 (hids q hq).2
    · have h₀ := (hs.stored.range p hp).1
      exact ⟨h₀, hlt p h₀ (hids p hp).2⟩
  refine { ht with
    keeps := ⟨(congrFun hmembers _).trans hs.keeps.root, ⟨hs.keeps.holds.nodup, fun x hx => ?_⟩, fun x hx => ?_⟩
    wellFormed := hs.wellFormed
    denotes := hs.denotes
    stored := hstored
    catalog := hcat
    reserved := hlt _ (Int.le_refl 0) ?_
    linked := { hs.linked with stored := hstored } }
  · obtain ⟨h₀, h₁⟩ := hs.keeps.range x hx
    exact (hpages x.1 h₀ h₁ (htree x hx).1 (htree x hx).2).trans (hs.keeps.holds.value x hx)
  · have h₀ := (hs.keeps.range x hx).1
    exact ⟨h₀, hlt x.1 h₀ (htree x hx).2⟩
  · rw [hs.catalog]
    exact fun he => by cases he

/-- The file has all that the pool shows, and the catalog the entry points of the engine. -/
structure Saved (cat : MetaPage) (s : Session n EnginePage) : Prop where
  content : ∀ p, s.pool.disk.content p = s.pool.view p
  root : cat.rootPageId = s.members .rootPageId
  first : cat.tupleFirstPageId = s.members .firstPageId

theorem Serves.live_header (hs : Serves f s ix m dir cat a) : (lift s.store).Live headerPageId :=
  ⟨Int.le_refl 0, hs.reserved, rfl⟩

theorem Serves.flush (hs : Serves f s ix m dir cat a) (hn : 0 < n) :
    ∃ t, Returns Session.handler saveCatalog s () t ∧
      Serves f (t.setPool t.pool.flushAllPages) ix m dir (saved cat s.members) a ∧
      Saved (saved cat s.members) (t.setPool t.pool.flushAllPages) := by
  have hcalm : (lift s.store).Calm := hs.stored.rests.calm
  obtain ⟨t, stain, hr, ht, hshows⟩ := hs.toIdle.yields (room_saveCatalog hs.toIdle hn)
    (yields_saveCatalog hcalm hs.live_header hs.catalog) hcalm.write rfl
  obtain ⟨hidle, hstore⟩ := ht.flushAllPages
  have hmembers : t.members = s.members := hshows.members
  have hnext : t.store.nextPageId = s.store.nextPageId := hshows.next
  have hview : ∀ p, 0 ≤ p → p < s.store.nextPageId →
      t.store.pages p = Function.update s.store.pages headerPageId (.catalog (saved cat s.members)) p :=
    fun p h₀ h₁ => hshows.view ⟨h₀, h₁, rfl⟩
  refine ⟨t, hr, hs.transport hidle hmembers (fun p h₀ h₁ hp _ => ?_) ?_ (fun p h₀ hp => ?_), fun p => ?_, ?_, ?_⟩
  · rw [hstore, hview p h₀ h₁, Function.update_of_ne hp]
  · rw [hstore, hview headerPageId (Int.le_refl 0) hs.reserved, Function.update_self]
  · rw [hstore, hnext]
    exact hs.toIdle.lt_nextPageId hp
  · have hb := flushAllPages_writtenBack ht.inv ht.fresh
    exact (flushAllPages_content ht.inv ht.fresh p).trans (hb.view_eq p).symm
  · exact (congrFun hmembers _).symm
  · exact (congrFun hmembers _).symm

theorem idle_mount {disk : MemDisk EnginePage} (hn : 0 ≤ disk.nextPageId)
    (hfresh : ∀ {p}, disk.nextPageId ≤ p → disk.content p = default) : (MiniKV.mount n disk).Idle :=
  Session.idle_new hn hfresh

theorem Serves.construct (hs : Serves f s ix m dir cat a) (keyType valueType : Byte) (hsaved : Saved cat s)
    (hn : 0 < n) (hmagic : cat.magic = kMetaMagic)
    {next : PageId} (hnext : ∀ p, next ≤ p → s.pool.disk.content p = default) :
    ∃ t : Session n EnginePage, Returns Session.handler (construct (next = 0) keyType valueType)
      (MiniKV.mount n ⟨s.pool.disk.content, next⟩) (cat.keyType, cat.valueType) t ∧ Serves f t ix m dir cat a := by
  have hpages : (MiniKV.mount n ⟨s.pool.disk.content, next⟩).store.pages = s.store.pages := funext hsaved.content
  have hlt : ∀ p, s.store.pages p ≠ default → p < next := by
    intro p hp
    by_contra hle
    exact hp ((hsaved.content p).symm.trans (hnext p (Int.not_lt.mp hle)))
  have hpos : headerPageId < next := hlt _ (by rw [hs.catalog]; exact fun he => by cases he)
  have hidle : (MiniKV.mount n ⟨s.pool.disk.content, next⟩).Idle :=
    idle_mount (Int.le_of_lt hpos) fun {p} hp => hnext p hp
  have hcalm : (lift (MiniKV.mount n ⟨s.pool.disk.content, next⟩).store).Calm :=
    ⟨fun _ => rfl, fun _ => rfl, fun _ _ => rfl⟩
  have hfalse : decide (next = 0) = false := decide_eq_false (ne_of_gt hpos)
  have hyields : Yields (BPlusTreeEngine.construct false keyType valueType) _ _ _ :=
    yields_construct_old hcalm ⟨Int.le_refl 0, hpos, rfl⟩ ((congrFun hpages _).trans hs.catalog) hmagic
  obtain ⟨t, stain, hr, ht, hshows⟩ := hidle.yields (room_construct hidle hn false) hyields
    hcalm.setMember.setMember rfl
  have hview : ∀ p, 0 ≤ p → p < next → t.store.pages p = s.store.pages p := fun p h₀ h₁ =>
    (hshows.view ⟨h₀, h₁, rfl⟩).trans (congrFun hpages p)
  have hmembers : t.members =
      Function.update (Function.update _ .rootPageId cat.rootPageId) .firstPageId cat.tupleFirstPageId :=
    hshows.members
  rw [hfalse]
  refine ⟨t, hr, hs.transport ht ?_ (fun p h₀ _ _ hp => hview p h₀ (hlt p hp)) ?_ (fun p h₀ hp => ?_)⟩
  · funext member
    cases member with
    | rootPageId =>
        rw [hmembers, Function.update_of_ne (fun he => Member.noConfusion he), Function.update_self, hsaved.root]
    | firstPageId => rw [hmembers, Function.update_self, hsaved.first]
  · exact (hview _ (Int.le_refl 0) hpos).trans hs.catalog
  · exact (hlt p hp).trans_eq hshows.next.symm

end BPlusTreeEngine

namespace MiniKV

/-- What a database is for: a map that stays, and the types it was declared with. -/
structure Database where
  map : KvMap
  keyType : Byte
  valueType : Byte

def Database.respond (d : Database) : Event → Outcome × Database
  | .call c => (.reply (d.map.respond c).1, { d with map := (d.map.respond c).2 })
  | .close => (.closed, d)
  | .reopen _ _ _ => (.opened d.keyType d.valueType, d)

/-- No call is made after `Close`, a call has room, and the file is reopened with an allocator
that is past every page written. -/
def Event.Quiet (f : Fanout) (fuel : Nat) : Event → MiniKV n → Prop
  | .call c, kv => kv.closed = false ∧ c.Quiet f fuel kv.session
  | .close, _ => True
  | .reopen next _ _, kv =>
    ∀ t : MiniKV n, kv.close.run = some (.ok t) → ∀ p, next ≤ p → t.session.pool.disk.content p = default

structure Represents (f : Fanout) (cat : MetaPage) (kv : MiniKV n) (d : Database) : Prop where
  holding : Holding f cat kv.session d.map
  magic : cat.magic = kMetaMagic
  types : (cat.keyType, cat.valueType) = (d.keyType, d.valueType)
  declared : (kv.keyType, kv.valueType) = (d.keyType, d.valueType)
  saved : kv.closed = true → Saved cat kv.session

variable {f : Fanout} {fuel : Nat} {kv : MiniKV n} {d : Database} {cat : MetaPage}

theorem Represents.close (h : Represents f cat kv d) (hn : 0 < n) :
    ∃ t cat', kv.close.run = some (.ok t) ∧ t.closed = true ∧ Represents f cat' t d := by
  cases hc : kv.closed with
  | true =>
      refine ⟨kv, cat, ?_, hc, h⟩
      unfold MiniKV.close
      rw [if_pos hc]
      rfl
  | false =>
      obtain ⟨ix, m, dir, hs⟩ := h.holding
      obtain ⟨t, hr, ht, hsaved⟩ := hs.flush hn
      refine ⟨{ kv with session := t.setPool t.pool.flushAllPages, closed := true },
        BPlusTreeEngine.saved cat kv.session.members,
        ?_, rfl, ⟨⟨ix, m, dir, ht⟩, h.magic, h.types, h.declared, fun _ => hsaved⟩⟩
      unfold MiniKV.close
      rw [if_neg (by rw [hc]; exact Bool.false_ne_true)]
      show Option.map _ (Machine.run _ _ _) = _
      rw [show Machine.run Session.handler saveCatalog.run kv.session = some (.ok (), t) from hr]
      rfl

theorem Represents.reopen (h : Represents f cat kv d) (hn : 0 < n) {next : PageId} {keyType valueType : Byte}
    (hq : (Event.reopen next keyType valueType).Quiet f fuel kv) :
    ∃ t cat', (kv.reopen next keyType valueType).run = some (.ok t) ∧ Represents f cat' t d := by
  obtain ⟨u, cat', hclose, hc, hu⟩ := h.close hn
  obtain ⟨ix, m, dir, hs⟩ := hu.holding
  obtain ⟨t, hr, ht⟩ := hs.construct keyType valueType (hu.saved hc) hn hu.magic (hq u hclose)
  refine ⟨⟨t, cat'.keyType, cat'.valueType, false⟩, cat', ?_, ⟨ix, m, dir, ht⟩, hu.magic, hu.types, hu.types,
    fun hf => absurd hf Bool.false_ne_true⟩
  have hnew : (new n ⟨u.session.pool.disk.content, next⟩ keyType valueType).run =
      some (.ok ⟨t, cat'.keyType, cat'.valueType, false⟩) := by
    show Option.map _ (Machine.run _ _ _) = _
    rw [show Machine.run Session.handler (construct (decide (next = 0)) keyType valueType).run _ = some (.ok _, t)
      from hr]
    rfl
  show (kv.close.run).bind _ = _
  rw [hclose]
  exact hnew

theorem Represents.step (h : Represents f cat kv d) (hin : f.InPage 1) (hn : 0 < n) {e : Event} (hq : e.Quiet f fuel kv) :
    ∃ t cat', step f fuel e kv = some ((d.respond e).1, t) ∧ Represents f cat' t (d.respond e).2 := by
  cases e with
  | call c =>
      obtain ⟨s, hs, hholds⟩ := h.holding.step hin hq.2
      refine ⟨{ kv with session := s }, cat, ?_, hholds, h.magic, h.types, h.declared, fun hc => ?_⟩
      · show Option.map _ (BPlusTreeEngine.step f fuel c kv.session) = _
        rw [hs]
        rfl
      · exact absurd (hq.1.symm.trans hc) Bool.false_ne_true
  | close =>
      obtain ⟨t, cat', hclose, _, ht⟩ := h.close hn
      refine ⟨t, cat', ?_, ht⟩
      show Option.map _ (kv.close.run.bind _) = _
      rw [hclose]
      rfl
  | reopen next keyType valueType =>
      obtain ⟨t, cat', hreopen, ht⟩ := h.reopen hn hq
      refine ⟨t, cat', ?_, ht⟩
      obtain ⟨hk, hv⟩ := Prod.mk.inj ht.declared
      show Option.map _ ((kv.reopen next keyType valueType).run.bind _) = some (Outcome.opened d.keyType d.valueType, t)
      rw [hreopen, ← hk, ← hv]
      rfl

theorem Represents.unwritten (h : Represents f cat kv d) (hc : kv.closed = true) {p : PageId}
    (hp : kv.session.store.nextPageId ≤ p) : kv.session.pool.disk.content p = default := by
  obtain ⟨ix, m, dir, hs⟩ := h.holding
  rw [(h.saved hc).content]
  by_contra hne
  exact absurd (hs.toIdle.lt_nextPageId hne) (Int.not_lt.mpr hp)

end MiniKV

end DBPlayground.Storage
