import DBPlayground.Storage.EngineRuns
import DBPlayground.Storage.TreeSession
import Mathlib.Order.Interval.Finset.Basic
import Mathlib.Data.Int.Interval

namespace DBPlayground.Storage

open Machine BufferPool Footprint ByteReader

section pages

variable {K V : Type} {f : Fanout} {N : Nat} {parent next : PageId}

def PageData.IsNode : PageData K V → Prop
  | .leaf _ => True
  | .internal _ => True
  | _ => False

theorem Tree.forall_forest {P : PageId × PageData K V → Prop} {cs : List (K × Tree K V N)}
    (h : ∀ c ∈ cs, ∀ next, ∀ x ∈ c.2.pages f parent next, P x) : ∀ x ∈ forest f parent next cs, P x := by
  induction cs with
  | nil => exact fun x hx => absurd hx (Multiset.notMem_zero x)
  | cons c cs ih =>
      intro x hx
      rw [forest_cons] at hx
      rcases Multiset.mem_add.mp hx with hx | hx
      · exact h c List.mem_cons_self _ x hx
      · exact ih (fun d hd => h d (List.mem_cons_of_mem c hd)) x hx

theorem Tree.isNode_pages (T : Tree K V N) : ∀ x ∈ T.pages f parent next, x.2.IsNode := by
  induction N generalizing parent next with
  | zero =>
      intro x hx
      rw [Multiset.mem_singleton.mp hx]
      trivial
  | succ N ih =>
      intro x hx
      rcases Multiset.mem_add.mp hx with hx | hx
      · rw [Multiset.mem_singleton.mp hx]
        trivial
      · exact forall_forest (fun c _ next => ih c.2) x hx

theorem Index.isNode_pages (ix : Index K V) : ∀ x ∈ ix.pages f, x.2.IsNode := by
  cases ix with
  | none => exact fun x hx => absurd hx (Multiset.notMem_zero x)
  | some T => exact T.2.isNode_pages

theorem Tree.Sized.lt_card {T : Tree K V N} {root : Bool} (hz : T.Sized f root) :
    N < Multiset.card (T.pages f parent next) := by
  induction N generalizing root parent next with
  | zero => exact Nat.one_pos
  | succ N ih =>
      obtain ⟨p, cs⟩ := T
      cases cs with
      | nil => exact absurd hz.children_pos (Nat.lt_irrefl 0)
      | cons c cs =>
          have hc : N < Multiset.card (c.2.pages f p (headLeaf next cs)) := ih (hz.2.2 c List.mem_cons_self)
          rw [show Node.mk p (c :: cs) = node p (c :: cs) from rfl, pages_node, forest_cons, Multiset.card_add,
            Multiset.card_add, Multiset.card_singleton]
          omega

theorem card_le_of_range {S : Multiset Int} {n : Int} (hd : S.Nodup) (hr : ∀ p ∈ S, 0 ≤ p ∧ p < n) :
    Multiset.card S ≤ n.toNat := by
  have hsub : S.toFinset ⊆ Finset.Ico 0 n := fun p hp => Finset.mem_Ico.mpr (hr p (Multiset.mem_toFinset.mp hp))
  have hcard := Finset.card_le_card hsub
  rwa [Multiset.toFinset_card_of_nodup hd, Int.card_Ico, Int.sub_zero] at hcard

variable {s s' : PageStore (PageData K V)} {ix : Index K V}

theorem Keeps.depth_le [LinearOrder K] (hk : Keeps f s ix) (hw : ix.WellFormed f) : ix.depth ≤ s.nextPageId.toNat := by
  cases ix with
  | none => exact Nat.zero_le _
  | some T =>
      have hcard := card_le_of_range hk.holds.nodup fun p hp => by
        obtain ⟨x, hx, rfl⟩ := Multiset.mem_map.mp hp
        exact hk.range x hx
      rw [Multiset.card_map] at hcard
      exact Nat.le_trans (Nat.le_of_lt hw.2.lt_card) hcard

theorem TupleStore.Stored.length_ids {dir : TupleStore.Directory} (hs : TupleStore.Stored s dir) :
    dir.ids.length ≤ s.nextPageId.toNat :=
  card_le_of_range (S := ↑dir.ids) (Multiset.coe_nodup.mpr hs.nodup) hs.range

theorem Keeps.frame (hk : Keeps f s ix) (hp : ∀ x ∈ ix.pages f, s'.pages x.1 = s.pages x.1)
    (hroot : s'.members .rootPageId = s.members .rootPageId) (hnext : s.nextPageId ≤ s'.nextPageId) :
    Keeps f s' ix where
  root := hroot.trans hk.root
  holds := ⟨hk.holds.nodup, fun x hx => (hp x hx).trans (hk.holds.value x hx)⟩
  range x hx := ⟨(hk.range x hx).1, Int.lt_of_lt_of_le (hk.range x hx).2 hnext⟩

end pages

section tuples

open TupleStore

variable {n : Nat} {K V β : Type} {s : Session n (PageData K V)} {h h' : Heap (PageData K V)} {dir : Directory}

theorem simulates_heap :
    SimulatesWhile (fun o (s : Session n (PageData K V)) => s.room o = true) Heap.checked Session.handler
    fun h s => ∃ stain, Shows h s stain := by
  rintro o h s r h' ⟨stain, hs⟩ hroom ho
  obtain ⟨hl, ho⟩ := Heap.checked_eq_some.mp ho
  obtain ⟨y, stain', hy, hs'⟩ := hs.request hroom (PageStore.inside_of_legal hl) ho
  exact ⟨y, hy, stain', hs'⟩

theorem Session.Idle.yields {m : PageM (PageData K V) β} {b : β} (hs : s.Idle) (hroom : s.HasRoom m)
    (hm : Heap.Yields m (lift s.store) b h) (hc : h.Calm) (hset : h.pageSet = []) :
    ∃ s' stain, Returns Session.handler m s b s' ∧ s'.Idle ∧ Shows h s' stain := by
  obtain ⟨_, _, hr, rfl, rfl⟩ := hm
  obtain ⟨s', hs', stain, hshows⟩ := simulates_heap.run ⟨_, hs.shows⟩ hroom hr
  exact ⟨s', stain, hs', hshows.idle (fun p _ => hc.pins p) hset, hshows⟩

/-- A call on the tuple store changes its own pages and at most adds one. -/
structure Touches (dir : Directory) (h h' : Heap (PageData K V)) : Prop where
  data : ∀ p, p < h.nextPageId → p ∉ dir.ids → h'.data p = h.data p
  dead : h'.dead = h.dead
  next : h.nextPageId ≤ h'.nextPageId
  root : h'.members .rootPageId = h.members .rootPageId
  pageSet : h'.pageSet = h.pageSet

theorem Touches.refl : Touches dir h h := ⟨fun _ _ _ => rfl, rfl, Int.le_refl _, rfl, rfl⟩

theorem touches_write {p : PageId} {data : PageData K V} (hp : p ∈ dir.ids) : Touches dir h (h.write p data) where
  data q _ hq := by
    refine Function.update_of_ne ?_ ..
    rintro rfl
    exact hq hp
  dead := rfl
  next := Int.le_refl _
  root := rfl
  pageSet := rfl

theorem touches_put {value : Bytes} {need : Nat} :
    Touches dir h (afterPut h value (findSpace h.data need dir.ids)) := by
  unfold afterPut
  cases hfound : findSpace h.data need dir.ids with
  | some q =>
      obtain ⟨hq, v, hv, _⟩ := findSpace_some hfound
      dsimp only
      rw [hv]
      exact touches_write hq
  | none =>
      have hroot : Member.rootPageId ≠ .firstPageId := fun he => by cases he
      dsimp only
      exact ⟨fun p hp _ => Function.update_of_ne (ne_of_lt hp) .., rfl, Int.le_of_lt (Int.lt_succ _),
        Function.update_of_ne hroot h.nextPageId h.members, rfl⟩

theorem touches_delete {rid : RID} (hp : rid.pageId ∈ dir.ids) : Touches dir h (afterDelete h dir rid) := by
  unfold afterDelete
  split
  · exact touches_write hp
  · exact .refl

end tuples

namespace BPlusTreeEngine

open TupleStore KvCursor

variable {n : Nat} {f : Fanout} {s s' : Session n EnginePage} {ix ix' : Index EncodedKey RID}
  {m m' : EncodedKey → Option RID} {dir dir' : Directory} {cat : MetaPage} {fuel : Nat} {k : EncodedKey} {rid : RID}

/-- The engine between two calls: on the pages of an idle pool there are a tree with the entries
of `m`, the chain of value pages, and the catalog. -/
structure Kept (f : Fanout) (s : Session n EnginePage) (ix : Index EncodedKey RID) (m : EncodedKey → Option RID)
    (dir : Directory) (cat : MetaPage) : Prop extends Storage.Rests f s ix where
  wellFormed : ix.WellFormed f
  denotes : ix.Denotes m
  stored : Stored s.store dir
  catalog : s.store.pages headerPageId = .catalog cat
  reserved : headerPageId < s.store.nextPageId

def beside (s : PageStore EnginePage) (dir : Directory) : Multiset (PageId × EnginePage) :=
  ↑((headerPageId :: dir.ids).map fun p => (p, s.pages p))

theorem mem_beside {s : PageStore EnginePage} {x : PageId × EnginePage} :
    x ∈ beside s dir ↔ x.1 ∈ headerPageId :: dir.ids ∧ s.pages x.1 = x.2 := by
  obtain ⟨p, data⟩ := x
  rw [beside, Multiset.mem_coe, List.mem_map]
  constructor
  · rintro ⟨q, hq, he⟩
    cases he
    exact ⟨hq, rfl⟩
  · rintro ⟨hp, hdata⟩
    exact ⟨p, hp, congrArg (Prod.mk p) hdata⟩

namespace Kept

theorem not_node (h : Kept f s ix m dir cat) {p : PageId} (hp : p ∈ headerPageId :: dir.ids) :
    ¬ (s.store.pages p).IsNode := by
  rcases List.mem_cons.mp hp with rfl | hp
  · rw [h.catalog]
    exact id
  · obtain ⟨v, hv, _⟩ := h.stored.page hp
    rw [hv]
    exact id

theorem header_notMem (h : Kept f s ix m dir cat) : headerPageId ∉ dir.ids := by
  intro hp
  obtain ⟨v, hv, _⟩ := h.stored.page hp
  cases h.catalog.symm.trans hv

theorem notMem_ids (h : Kept f s ix m dir cat) {x : PageId × EnginePage} (hx : x ∈ ix.pages f) :
    x.1 ∉ headerPageId :: dir.ids := by
  intro hp
  refine h.not_node hp ?_
  rw [h.keeps.holds.value x hx]
  exact ix.isNode_pages x hx

theorem aside (h : Kept f s ix m dir cat) : Aside f s.store ix (beside s.store dir) where
  holds := by
    refine ⟨?_, fun x hx => ?_⟩
    · rw [Multiset.map_add, Multiset.nodup_add, beside, Multiset.map_coe, List.map_map]
      have hid : (headerPageId :: dir.ids).map (Prod.fst ∘ fun p => (p, s.store.pages p)) = headerPageId :: dir.ids :=
        List.map_id _
      rw [hid, Multiset.coe_nodup, List.nodup_cons]
      refine ⟨h.keeps.holds.nodup, ⟨h.header_notMem, h.stored.nodup⟩, Multiset.disjoint_left.mpr fun {p} hp hq => ?_⟩
      obtain ⟨x, hx, rfl⟩ := Multiset.mem_map.mp hp
      exact h.notMem_ids hx (Multiset.mem_coe.mp hq)
    · rcases Multiset.mem_add.mp hx with hx | hx
      · exact h.keeps.holds.value x hx
      · exact (mem_beside.mp hx).2
  range x hx := by
    rcases List.mem_cons.mp (mem_beside.mp hx).1 with hp | hp
    · rw [hp]
      exact ⟨Int.le_refl 0, h.reserved⟩
    · exact h.stored.range _ hp

theorem of_aside (h : Kept f s ix m dir cat) (hs : Storage.Rests f s' ix')
    (ha : Aside f s'.store ix' (beside s.store dir))
    (hfirst : s'.members .firstPageId = s.members .firstPageId) (hw : ix'.WellFormed f) (hm : ix'.Denotes m') :
    Kept f s' ix' m' dir cat := by
  have hcell : ∀ p ∈ headerPageId :: dir.ids, s'.store.pages p = s.store.pages p ∧ 0 ≤ p ∧ p < s'.store.nextPageId := by
    intro p hp
    have hx : (p, s.store.pages p) ∈ beside s.store dir := mem_beside.mpr ⟨hp, rfl⟩
    exact ⟨ha.holds.value _ (Multiset.mem_add.mpr (.inr hx)), ha.range _ hx⟩
  refine { hs with
    wellFormed := hw
    denotes := hm
    stored := ?_
    catalog := (hcell _ List.mem_cons_self).1.trans h.catalog
    reserved := (hcell _ List.mem_cons_self).2.2 }
  refine ⟨?_, h.stored.nodup, fun p hp => (hcell p (List.mem_cons_of_mem _ hp)).2, h.stored.outside, h.stored.used,
    hs.next⟩
  rw [show s'.store.members .firstPageId = s.store.members .firstPageId from hfirst]
  exact h.stored.chained.congr fun q hq => ⟨(hcell q (List.mem_cons_of_mem _ hq)).1, rfl⟩

theorem of_touches {β : Type} {call : PageM EnginePage β} {b : β} {t : Heap EnginePage} (h : Kept f s ix m dir cat)
    (hroom : s.HasRoom call) (hy : Heap.Yields call (lift s.store) b t) (ht : Touches dir (lift s.store) t)
    (hr : TupleStore.Rests t dir') : ∃ s', Returns Session.handler call s b s' ∧ Kept f s' ix m dir' cat := by
  obtain ⟨s', stain, hcall, hs, hshows⟩ := h.toIdle.yields hroom hy hr.calm ht.pageSet
  have hnext : s'.store.nextPageId = t.nextPageId := hshows.next
  have hview : ∀ p, 0 ≤ p → p < t.nextPageId → s'.store.pages p = t.data p := fun p h₀ h₁ =>
    hshows.view ⟨h₀, h₁, congrFun ht.dead p⟩
  have hsame : ∀ p, 0 ≤ p → p < s.store.nextPageId → p ∉ dir.ids →
      s'.store.pages p = s.store.pages p := fun p h₀ h₁ hp =>
    (hview p h₀ (Int.lt_of_lt_of_le h₁ ht.next)).trans (ht.data p h₁ hp)
  refine ⟨s', hcall, { hs with
    keeps := h.keeps.frame (fun x hx => ?_) ((congrFun hshows.members _).trans ht.root) (hnext ▸ ht.next)
    wellFormed := h.wellFormed
    denotes := h.denotes
    stored := ?_
    catalog := (hsame _ (Int.le_refl 0) h.reserved h.header_notMem).trans h.catalog
    reserved := Int.lt_of_lt_of_le h.reserved (hnext ▸ ht.next) }⟩
  · obtain ⟨h₀, h₁⟩ := h.keeps.range x hx
    exact hsame x.1 h₀ h₁ fun hp => h.notMem_ids hx (List.mem_cons_of_mem _ hp)
  · refine hr.stored.frame (fun p hp => ?_) (congrFun hshows.members _) (Int.le_of_eq hnext.symm)
    obtain ⟨h₀, h₁⟩ := hr.stored.range p hp
    exact hview p h₀ h₁

theorem getValue (h : Kept f s ix m dir cat) (hf : ix.depth < fuel)
    (hroom : s.HasRoom (BPlusTree.getValue f fuel k : PageM EnginePage (Option RID))) :
    ∃ s', Returns Session.handler (BPlusTree.getValue f fuel k) s (m k) s' ∧ Kept f s' ix m dir cat := by
  obtain ⟨out, s', hr, hout, hs', ha, hmembers⟩ := getValue_rests h.toRests h.aside h.wellFormed hf hroom
  obtain rfl : out = m k := Option.ext fun v => (hout v).trans (h.denotes k v).symm
  exact ⟨s', hr, h.of_aside hs' ha (congrFun hmembers _) h.wellFormed h.denotes⟩

theorem insert (h : Kept f s ix m dir cat) (hin : f.InPage 1) (hf : ix.depth < fuel) (hk : m k = none)
    (hroom : s.HasRoom (BPlusTree.insert f fuel k rid)) :
    ∃ s' ix', Returns Session.handler (BPlusTree.insert f fuel k rid) s true s' ∧
      Kept f s' ix' (Function.update m k (some rid)) dir cat := by
  obtain ⟨b, s', ix', hr, hw', hb, hc, hs', ha, hmembers⟩ := insert_rests hin h.toRests h.aside h.wellFormed hf hroom
  obtain rfl : b = true := hb.mpr fun w hw => by cases hk.symm.trans ((h.denotes k w).mpr hw)
  have hm := h.denotes.insert (x := k) (by rw [hk]; rfl) hc
  rw [hk, if_pos Option.isNone_none] at hm
  have hne : Member.firstPageId ≠ .rootPageId := fun he => by cases he
  exact ⟨s', ix', hr, h.of_aside hs' ha ((congrFun hmembers _).trans (Function.update_of_ne hne ..)) hw' hm⟩

theorem remove (h : Kept f s ix m dir cat) (hin : f.InPage 0) (hf : ix.depth < fuel) (hk : m k = some rid)
    (hroom : s.HasRoom (BPlusTree.remove f fuel k : PageM EnginePage Unit)) (hb : ¬ ix.Borrows f k)
    (hd : ¬ ix.Sheds f k) :
    ∃ s' ix', Returns Session.handler (BPlusTree.remove f fuel k : PageM EnginePage Unit) s () s' ∧
      Kept f s' ix' (Function.update m k none) dir cat := by
  cases ix with
  | none => cases (h.denotes k rid).mp hk
  | some T =>
      obtain ⟨s', hr, _, hrest⟩ := remove_rests hin h.toRests h.aside h.wellFormed hf hroom
      obtain ⟨ix', hw', hc, hs', ha, hmembers⟩ := hrest hb hd
      have hne : Member.firstPageId ≠ .rootPageId := fun he => by cases he
      exact ⟨s', ix', hr, h.of_aside hs' ha ((congrFun hmembers _).trans (Function.update_of_ne hne ..)) hw'
        (h.denotes.remove hc)⟩

theorem put {value : Bytes} (h : Kept f s ix m dir cat) (hf : dir.ids.length < fuel) (hv : value.length ≤ maxValueSize)
    (hroom : s.HasRoom (TupleStore.put fuel value : PageM EnginePage RID)) :
    ∃ p s', Returns Session.handler (TupleStore.put fuel value) s (dir.nextRid p) s' ∧
      Kept f s' ix m (dir.add p value) cat :=
  ⟨_, h.of_touches hroom (yields_put h.stored.rests hv hf) touches_put (h.stored.rests.put hv)⟩

theorem get (h : Kept f s ix m dir cat) (hi : dir.Issued rid)
    (hroom : s.HasRoom (TupleStore.get rid : PageM EnginePage (Option Bytes))) :
    ∃ s', Returns Session.handler (TupleStore.get rid) s (dir.content rid) s' ∧ Kept f s' ix m dir cat :=
  h.of_touches hroom (yields_get h.stored.rests hi) .refl h.stored.rests

theorem delete (h : Kept f s ix m dir cat) (hi : dir.Issued rid)
    (hroom : s.HasRoom (TupleStore.delete rid : PageM EnginePage Bool)) :
    ∃ s', Returns Session.handler (TupleStore.delete rid) s (dir.content rid).isSome s' ∧
      Kept f s' ix m (dir.change rid none) cat :=
  h.of_touches hroom (yields_delete h.stored.rests hi) (touches_delete (h.stored.rests.issued hi))
    (h.stored.rests.delete hi)

end Kept

variable {a : KvMap} {key value : Bytes}

/-- The engine holds the map `a`: every key of the tree has a slot of its own, with the value of
the key on it. -/
structure Serves (f : Fanout) (s : Session n EnginePage) (ix : Index EncodedKey RID) (m : EncodedKey → Option RID)
    (dir : Directory) (cat : MetaPage) (a : KvMap) : Prop extends Kept f s ix m dir cat where
  linked : Linked id (s.store, m) a dir

namespace Serves

theorem depth_lt (h : Serves f s ix m dir cat a) (hf : s.store.nextPageId.toNat < fuel) : ix.depth < fuel :=
  Nat.lt_of_le_of_lt (h.keeps.depth_le h.wellFormed) hf

theorem keep (h : Serves f s ix m dir cat a) (hs : Kept f s' ix m dir cat) : Serves f s' ix m dir cat a :=
  ⟨hs, { h.linked with stored := hs.stored }⟩

theorem get (h : Serves f s ix m dir cat a) (hf : s.store.nextPageId.toNat < fuel) (hk : toKey key = some k)
    (hroom : s.HasRoom (BPlusTreeEngine.get (pooled f fuel) key)) :
    ∃ s', Returns Session.handler (BPlusTreeEngine.get (pooled f fuel) key) s (a k) s' ∧
      Serves f s' ix m dir cat a := by
  unfold BPlusTreeEngine.get at hroom ⊢
  rw [encode_some hk, pure_bind] at hroom ⊢
  obtain ⟨s₁, hr₁, h₁⟩ := h.getValue (h.depth_lt hf) (Always.left hroom)
  have hroom := Always.right hroom hr₁
  cases hv : m k with
  | none =>
      rw [hv] at hr₁
      rw [h.linked.absent hv]
      exact ⟨s₁, hr₁.bind returns_pure, h.keep h₁⟩
  | some rid =>
      rw [hv] at hr₁ hroom
      obtain ⟨s₂, hr₂, h₂⟩ := h₁.get (h.linked.issued k rid hv) hroom
      rw [h.linked.present hv]
      exact ⟨s₂, hr₁.bind hr₂, h.keep h₂⟩

theorem remove (h : Serves f s ix m dir cat a) (hin : f.InPage 0) (hf : s.store.nextPageId.toNat < fuel)
    (hk : toKey key = some k)
    (hroom : s.HasRoom (BPlusTreeEngine.remove (pooled f fuel) key))
    (hq : (∃ rid, (k, rid) ∈ ix.contents) → ¬ ix.Borrows f k ∧ ¬ ix.Sheds f k) :
    ∃ s' ix' m' dir', Returns Session.handler (BPlusTreeEngine.remove (pooled f fuel) key) s (a k).isSome s' ∧
      Serves f s' ix' m' dir' cat (Function.update a k none) := by
  unfold BPlusTreeEngine.remove at hroom ⊢
  rw [encode_some hk, pure_bind] at hroom ⊢
  obtain ⟨s₁, hr₁, h₁⟩ := h.getValue (h.depth_lt hf) (Always.left hroom)
  have hroom₁ := Always.right hroom hr₁
  cases hv : m k with
  | none =>
      rw [hv] at hr₁
      have ha := h.linked.absent hv
      have hsame : Function.update a k none = a := by
        rw [← ha, Function.update_eq_self]
      rw [hsame, ha]
      exact ⟨s₁, ix, m, dir, hr₁.bind returns_pure, h.keep h₁⟩
  | some rid =>
      rw [hv] at hr₁ hroom₁
      dsimp only at hroom₁
      obtain ⟨hb, hd⟩ := hq ⟨rid, (h.denotes k rid).mp hv⟩
      obtain ⟨s₂, ix', hr₂, h₂⟩ := h₁.remove hin (h.depth_lt hf) hv (Always.left hroom₁) hb hd
      have hroom₂ := Always.right hroom₁ hr₂
      obtain ⟨s₃, hr₃, h₃⟩ := h₂.delete (h.linked.issued k rid hv) (Always.left hroom₂)
      rw [h.linked.present hv, h.linked.live k rid hv]
      exact ⟨s₃, ix', _, _, hr₁.bind (hr₂.bind (hr₃.bind returns_pure)), h₃, h.linked.drop hv h₃.stored rfl⟩

theorem insert_present (h : Serves f s ix m dir cat a) (hf : s.store.nextPageId.toNat < fuel) (hk : toKey key = some k)
    (hroom : s.HasRoom (BPlusTreeEngine.insert (pooled f fuel) key value)) (ha : (a k).isSome = true) :
    ∃ s', Returns Session.handler (BPlusTreeEngine.insert (pooled f fuel) key value) s false s' ∧
      Serves f s' ix m dir cat a := by
  unfold BPlusTreeEngine.insert at hroom ⊢
  rw [encode_some hk, pure_bind] at hroom ⊢
  obtain ⟨s₁, hr₁, h₁⟩ := h.getValue (h.depth_lt hf) (Always.left hroom)
  obtain ⟨rid, hv⟩ := Option.isSome_iff_exists.mp ((h.linked.isSome_eq k).trans ha)
  rw [show m k = some rid from hv] at hr₁
  exact ⟨s₁, hr₁.bind returns_pure, h.keep h₁⟩

theorem insert_large (h : Serves f s ix m dir cat a) (hf : s.store.nextPageId.toNat < fuel) (hk : toKey key = some k)
    (hroom : s.HasRoom (BPlusTreeEngine.insert (pooled f fuel) key value)) (ha : a k = none)
    (hlen : maxValueSize < value.length) :
    ∃ s', Throws Session.handler (BPlusTreeEngine.insert (pooled f fuel) key value) s tooLarge s' ∧
      Serves f s' ix m dir cat a := by
  unfold BPlusTreeEngine.insert at hroom ⊢
  rw [encode_some hk, pure_bind] at hroom ⊢
  obtain ⟨s₁, hr₁, h₁⟩ := h.getValue (h.depth_lt hf) (Always.left hroom)
  rw [show m k = none from h.linked.missing ha] at hr₁
  have hput : Throws Session.handler (TupleStore.put fuel value : PageM EnginePage RID) s₁ tooLarge s₁ := by
    rw [TupleStore.put, if_pos hlen]
    rfl
  exact ⟨s₁, hr₁.throws hput.bind, h.keep h₁⟩

theorem insert_fresh (h : Serves f s ix m dir cat a) (hin : f.InPage 1) (hf : s.store.nextPageId.toNat < fuel)
    (hk : toKey key = some k)
    (hroom : s.HasRoom (BPlusTreeEngine.insert (pooled f fuel) key value)) (ha : a k = none)
    (hlen : value.length ≤ maxValueSize) :
    ∃ s' ix' m' dir', Returns Session.handler (BPlusTreeEngine.insert (pooled f fuel) key value) s true s' ∧
      Serves f s' ix' m' dir' cat (Function.update a k (some value)) := by
  unfold BPlusTreeEngine.insert at hroom ⊢
  rw [encode_some hk, pure_bind] at hroom ⊢
  have hv : m k = none := h.linked.missing ha
  obtain ⟨s₁, hr₁, h₁⟩ := h.getValue (h.depth_lt hf) (Always.left hroom)
  have hroom₁ := Always.right hroom hr₁
  rw [hv] at hr₁ hroom₁
  dsimp only at hroom₁
  obtain ⟨p, s₂, hr₂, h₂⟩ := h₁.put (Nat.lt_of_le_of_lt h.stored.length_ids hf) hlen (Always.left hroom₁)
  have hroom₂ := Always.right hroom₁ hr₂
  obtain ⟨s₃, ix', hr₃, h₃⟩ := h₂.insert hin (h.depth_lt hf) hv (Always.left hroom₂)
  exact ⟨s₃, ix', _, _, hr₁.bind (hr₂.bind (hr₃.bind returns_pure)), h₃, h.linked.add hv h₃.stored rfl⟩

end Serves

def Call.run (f : Fanout) (fuel : Nat) : Call → PageM EnginePage Reply
  | .insert key value => do pure (.inserted (← BPlusTreeEngine.insert (pooled f fuel) key value))
  | .get key => do pure (.found (← BPlusTreeEngine.get (pooled f fuel) key))
  | .remove key => do pure (.removed (← BPlusTreeEngine.remove (pooled f fuel) key))

/-- A removal does not make a node of the tree take an entry from a sibling, and deletes no inner
page on its way down. -/
def Call.Mild (f : Fanout) (ix : Index EncodedKey RID) : Call → Prop
  | .remove key => ∀ k, toKey key = some k → (∃ rid, (k, rid) ∈ ix.contents) → ¬ ix.Borrows f k ∧ ¬ ix.Sheds f k
  | _ => True

theorem throws_badKey {c : Call} (hk : toKey c.key = none) : Throws Session.handler (c.run f fuel) s badKey s := by
  cases c with
  | insert key value =>
      show Throws _ (insert (pooled f fuel) key value >>= _) s _ s
      rw [insert, encode_none (show toKey key = none from hk)]
      rfl
  | get key =>
      show Throws _ (get (pooled f fuel) key >>= _) s _ s
      rw [get, encode_none (show toKey key = none from hk)]
      rfl
  | remove key =>
      show Throws _ (remove (pooled f fuel) key >>= _) s _ s
      rw [remove, encode_none (show toKey key = none from hk)]
      rfl

theorem Serves.answers (h : Serves f s ix m dir cat a) (hin : f.InPage 1) (c : Call)
    (hf : s.store.nextPageId.toNat < fuel)
    (hroom : s.HasRoom (c.run f fuel)) (hq : c.Mild f ix) :
    ∃ s' ix' m' dir', Ends Session.handler (c.run f fuel) s (a.respond c).1 s' ∧
      Serves f s' ix' m' dir' cat (a.respond c).2 := by
  cases hk : toKey c.key with
  | none =>
      rw [KvMap.respond_badKey hk]
      exact ⟨s, ix, m, dir, throws_badKey hk, h⟩
  | some k =>
      cases c with
      | get key =>
          rw [KvMap.respond, show toKey key = some k from hk]
          obtain ⟨s', hr, h'⟩ := h.get hf hk (Always.left hroom)
          exact ⟨s', ix, m, dir, hr.bind returns_pure, h'⟩
      | remove key =>
          rw [KvMap.respond, show toKey key = some k from hk]
          obtain ⟨s', ix', m', dir', hr, h'⟩ := h.remove (hin.mono (Nat.zero_le 1)) hf hk (Always.left hroom) (hq k hk)
          exact ⟨s', ix', m', dir', hr.bind returns_pure, h'⟩
      | insert key value =>
          rw [KvMap.respond, show toKey key = some k from hk]
          dsimp only
          by_cases ha : (a k).isSome = true
          · rw [if_pos ha]
            obtain ⟨s', hr, h'⟩ := h.insert_present hf hk (Always.left hroom) ha
            exact ⟨s', ix, m, dir, hr.bind returns_pure, h'⟩
          · have hnone := Option.not_isSome_iff_eq_none.mp ha
            rw [if_neg ha]
            by_cases hlen : maxValueSize < value.length
            · rw [if_pos hlen]
              obtain ⟨s', hr, h'⟩ := h.insert_large hf hk (Always.left hroom) hnone hlen
              exact ⟨s', ix, m, dir, hr.bind, h'⟩
            · rw [if_neg hlen]
              obtain ⟨s', ix', m', dir', hr, h'⟩ :=
                h.insert_fresh hin hf hk (Always.left hroom) hnone (Nat.not_lt.mp hlen)
              exact ⟨s', ix', m', dir', hr.bind returns_pure, h'⟩

/-- The pool has room for a call, the loops have fuel for all the pages there are, and a removal
is mild on the tree that the pages hold. -/
def Call.Quiet (f : Fanout) (fuel : Nat) (c : Call) (s : Session n EnginePage) : Prop :=
  s.HasRoom (c.run f fuel) ∧ s.store.nextPageId.toNat < fuel ∧ ∀ ix, Keeps f s.store ix → ix.WellFormed f → c.Mild f ix

def step (f : Fanout) (fuel : Nat) (c : Call) (s : Session n EnginePage) :
    Option (Except Abort Reply × Session n EnginePage) := Machine.run Session.handler (c.run f fuel).run s

def Holding (f : Fanout) (cat : MetaPage) (s : Session n EnginePage) (a : KvMap) : Prop :=
  ∃ ix m dir, Serves f s ix m dir cat a

theorem Holding.step (h : Holding f cat s a) (hin : f.InPage 1) {c : Call} (hq : c.Quiet f fuel s) :
    ∃ s', step f fuel c s = some ((a.respond c).1, s') ∧ Holding f cat s' (a.respond c).2 := by
  obtain ⟨ix, m, dir, h⟩ := h
  obtain ⟨hroom, hf, hmild⟩ := hq
  obtain ⟨s', ix', m', dir', hr, h'⟩ := h.answers hin c hf hroom (hmild ix h.keeps h.wellFormed)
  exact ⟨s', hr, ix', m', dir', h'⟩

end BPlusTreeEngine

end DBPlayground.Storage
