import DBPlayground.Storage.KvCursor
import DBPlayground.Storage.TreeShape
import DBPlayground.Storage.TupleRuns

namespace DBPlayground.Storage

open Machine Footprint ByteReader

structure Keeps {K V : Type} (f : Fanout) (s : PageStore (PageData K V)) (ix : Index K V) : Prop where
  root : s.members .rootPageId = ix.rootPageId
  holds : Holds s.pages (ix.pages f)
  range : ∀ x ∈ ix.pages f, 0 ≤ x.1 ∧ x.1 < s.nextPageId

def Linked {K V : Type} (pages : PageId → PageData K V) (next : PageId) : PageId → List (Leaf K V) → Prop
  | p, [] => p = next
  | p, l :: rest => p = l.id ∧ 0 ≤ p ∧ ∃ leaf, pages p = .leaf leaf ∧ leaf.array = l.entries ∧
      Linked pages next leaf.nextPageId rest

section chain

variable {K V : Type} {f : Fanout} {pages : PageId → PageData K V} {parent next p : PageId} {n : Nat}

theorem linked_append {ls ls' : List (Leaf K V)} {mid : PageId} (h : Linked pages mid p ls)
    (h' : Linked pages next mid ls') : Linked pages next p (ls ++ ls') := by
  induction ls generalizing p with
  | nil => exact h ▸ h'
  | cons l rest ih =>
      obtain ⟨hp, h₀, leaf, hleaf, ha, hrest⟩ := h
      exact ⟨hp, h₀, leaf, hleaf, ha, ih hrest⟩

theorem linked_forest {cs : List (K × Tree K V n)} (hd : Holds pages (Tree.forest f parent next cs))
    (hr : ∀ x ∈ Tree.forest f parent next cs, 0 ≤ x.1)
    (ht : ∀ c ∈ cs, ∀ next, Holds pages (c.2.pages f parent next) → (∀ x ∈ c.2.pages f parent next, 0 ≤ x.1) →
      Linked pages next c.2.firstLeaf c.2.leaves) :
    Linked pages next (Tree.headLeaf next cs) (cs.flatMap fun c => c.2.leaves) := by
  induction cs with
  | nil => exact rfl
  | cons c cs ih =>
      rw [Tree.forest_cons] at hd hr
      refine linked_append (ht c List.mem_cons_self _ hd.left fun x hx => hr x (Multiset.mem_add.mpr (.inl hx))) ?_
      exact ih hd.right (fun x hx => hr x (Multiset.mem_add.mpr (.inr hx))) fun d hd => ht d (List.mem_cons_of_mem c hd)

theorem linked_leaves {t : Tree K V n} {root : Bool} (hs : t.Sized f root) (hd : Holds pages (t.pages f parent next))
    (hr : ∀ x ∈ t.pages f parent next, 0 ≤ x.1) : Linked pages next t.firstLeaf t.leaves := by
  induction n generalizing parent next root with
  | zero =>
      have hx := Multiset.mem_singleton_self (t.id, (t.page f parent next).data)
      exact ⟨rfl, hr _ hx, _, hd.value _ hx, rfl, rfl⟩
  | succ n ih =>
      obtain ⟨id, cs⟩ := t
      obtain ⟨hmin, _, hcs⟩ := hs
      have hfirst : Tree.firstLeaf (Tree.node id cs) = Tree.headLeaf next cs := by
        cases cs with
        | nil =>
            have h3 := f.three_le_internal
            simp only [List.length_nil] at hmin
            split at hmin <;> omega
        | cons c rest => rfl
      change Holds pages ((Tree.node id cs).pages f parent next) at hd
      change ∀ x ∈ (Tree.node id cs).pages f parent next, 0 ≤ x.1 at hr
      show Linked pages next (Tree.firstLeaf (Tree.node id cs)) (cs.flatMap fun c => c.2.leaves)
      rw [Tree.pages_node] at hd hr
      rw [hfirst]
      exact linked_forest hd.right (fun x hx => hr x (Multiset.mem_add.mpr (.inr hx)))
        fun c hc next h h' => ih (hcs c hc) h h'

end chain

namespace KvCursor

open PageM (ends_fetch ends_defined)

variable {s : PageStore EnginePage} {p : PageId} {β : Type} {r : Except Abort β} {t : PageStore EnginePage}
  {content : RID → Option Bytes} {c : KvCursor} {es : List (EncodedKey × RID)} {B fuel : Nat}

theorem ends_getLeaf {g : LeafPage EncodedKey RID → PageM EnginePage β} {leaf : LeafPage EncodedKey RID}
    (hp : s.pages p = .leaf leaf) (hg : Ends PageStore.handler (g leaf) s r t) :
    Ends PageStore.handler (PageM.getLeaf p >>= g) s r t := by
  unfold PageM.getLeaf
  rw [bind_assoc]
  refine ends_perform rfl ?_
  rw [hp]
  exact hg

theorem ends_getTreePage {g : TreePage EncodedKey RID → PageM EnginePage β} {node : TreePage EncodedKey RID}
    (hp : s.pages p = node.data) (hg : Ends PageStore.handler (g node) s r t) :
    Ends PageStore.handler (PageM.getTreePage p >>= g) s r t := by
  unfold PageM.getTreePage
  rw [bind_assoc]
  refine ends_perform rfl ?_
  rw [hp]
  cases node <;> exact hg

def shown (content : RID → Option Bytes) (e : EncodedKey × RID) : Bytes × Bytes :=
  (e.1.bytes, (content e.2).getD [])

/-- What a cursor is still going to show, with the entry it stands on. At most
`B` leaves are to come. -/
def Remaining (s : PageStore EnginePage) (content : RID → Option Bytes) (B : Nat) (c : KvCursor)
    (es : List (EncodedKey × RID)) : Prop :=
  match es with
  | [] => c.valid = false
  | e :: rest => c.valid = true ∧ (c.key, c.value) = shown content e ∧ c.entries[c.pos]? = some e ∧
      ∃ ls : List (Leaf EncodedKey RID), ls.length ≤ B ∧ Linked s.pages invalidPageId c.nextLeaf ls ∧
        rest = c.entries.drop (c.pos + 1) ++ ls.flatMap Leaf.entries

theorem materialize_returns {e : EncodedKey × RID} (he : c.entries[c.pos]? = some e)
    (hget : Returns PageStore.handler (TupleStore.get e.2) s (content e.2) s) :
    Returns PageStore.handler (materialize c) s { c with key := e.1.bytes, value := (content e.2).getD [] } s := by
  refine ends_defined he ?_
  exact Returns.bind hget rfl

theorem loadLeaf_returns {ls : List (Leaf EncodedKey RID)} (hc : c.pos = 0)
    (hls : Linked s.pages invalidPageId p ls)
    (hget : ∀ e ∈ ls.flatMap Leaf.entries, Returns PageStore.handler (TupleStore.get e.2) s (content e.2) s)
    (hB : ls.length ≤ B) (hf : ls.length < fuel) :
    ∃ c', Returns PageStore.handler (loadLeaf fuel c p) s c' s ∧ Remaining s content B c' (ls.flatMap Leaf.entries) := by
  induction ls generalizing c p fuel with
  | nil =>
      obtain ⟨fuel, rfl⟩ := Nat.exists_eq_add_one_of_ne_zero (Nat.ne_of_gt (Nat.zero_lt_of_lt hf))
      refine ⟨{ c with valid := false }, ?_, rfl⟩
      rw [loadLeaf, if_pos (show p = invalidPageId from hls)]
      rfl
  | cons l ls ih =>
      obtain ⟨fuel, rfl⟩ := Nat.exists_eq_add_one_of_ne_zero (Nat.ne_of_gt (Nat.zero_lt_of_lt hf))
      obtain ⟨rfl, h₀, leaf, hleaf, ha, hrest⟩ := hls
      rw [loadLeaf, if_neg (ne_invalidPageId h₀)]
      cases hes : l.entries with
      | nil =>
          obtain ⟨c', hr, hrem⟩ := ih (c := { c with entries := leaf.array, nextLeaf := leaf.nextPageId }) hc hrest
            (fun e he => hget e (List.mem_append_right _ he)) (Nat.le_of_succ_le hB) (Nat.lt_of_succ_lt_succ hf)
          refine ⟨c', ends_fetch rfl rfl (ends_getLeaf hleaf (ends_perform rfl ?_)), ?_⟩
          · rw [ha, hes] at hr ⊢
            exact hr
          · rw [List.flatMap_cons, hes]
            exact hrem
      | cons e es =>
          have harr : leaf.array = e :: es := ha.trans hes
          have he := hget e (List.mem_append_left _ (hes ▸ List.mem_cons_self))
          have hpos : leaf.array[c.pos]? = some e := by rw [hc, harr]; rfl
          let c₁ := { c with entries := leaf.array, nextLeaf := leaf.nextPageId, valid := true }
          refine ⟨{ c₁ with key := e.1.bytes, value := (content e.2).getD [] },
            ends_fetch rfl rfl (ends_getLeaf hleaf (ends_perform rfl ?_)), ?_⟩
          · rw [if_neg (by rw [harr]; simp)]
            exact materialize_returns (c := c₁) hpos he
          · rw [List.flatMap_cons, hes]
            refine ⟨rfl, rfl, hpos, ls, Nat.le_of_succ_le hB, hrest, ?_⟩
            show es ++ _ = leaf.array.drop (c.pos + 1) ++ _
            rw [hc, harr]
            rfl

theorem next_returns {e : EncodedKey × RID} (hc : Remaining s content B c (e :: es))
    (hget : ∀ e ∈ es, Returns PageStore.handler (TupleStore.get e.2) s (content e.2) s) (hf : B < fuel) :
    ∃ c', Returns PageStore.handler (next fuel c) s c' s ∧ Remaining s content B c' es := by
  obtain ⟨hvalid, _, hpos, ls, hB, hls, rfl⟩ := hc
  rw [next, if_pos hvalid]
  split
  · next hlast =>
      rw [List.drop_eq_nil_of_le hlast, List.nil_append] at hget ⊢
      exact loadLeaf_returns rfl hls hget hB (Nat.lt_of_le_of_lt hB hf)
  · next hmore =>
      obtain ⟨e', he'⟩ : ∃ e', c.entries[c.pos + 1]? = some e' := ⟨_, List.getElem?_eq_getElem (Nat.lt_of_not_le hmore)⟩
      obtain ⟨hlt, heq⟩ := List.getElem?_eq_some_iff.mp he'
      rw [List.drop_eq_getElem_cons hlt, heq, List.cons_append] at hget ⊢
      refine ⟨_, materialize_returns (c := { c with pos := c.pos + 1 }) he' (hget e' List.mem_cons_self), ?_⟩
      exact ⟨hvalid, rfl, he', ls, hB, hls, rfl⟩

theorem collect_returns (hc : Remaining s content B c es)
    (hget : ∀ e ∈ es, Returns PageStore.handler (TupleStore.get e.2) s (content e.2) s) (hf : B + es.length < fuel) :
    Returns PageStore.handler (collect fuel c) s (es.map (shown content)) s := by
  induction es generalizing c fuel with
  | nil =>
      obtain ⟨fuel, rfl⟩ := Nat.exists_eq_add_one_of_ne_zero (Nat.ne_of_gt (Nat.zero_lt_of_lt hf))
      rw [collect, show c.valid = false from hc]
      rfl
  | cons e es ih =>
      obtain ⟨fuel, rfl⟩ := Nat.exists_eq_add_one_of_ne_zero (Nat.ne_of_gt (Nat.zero_lt_of_lt hf))
      rw [List.length_cons] at hf
      have hB : B < fuel := by omega
      have hrest : B + es.length < fuel := by omega
      obtain ⟨c', hnext, hc'⟩ := next_returns hc (fun e he => hget e (List.mem_cons_of_mem _ he)) hB
      have hcollect := ih hc' (fun e he => hget e (List.mem_cons_of_mem _ he)) hrest
      rw [collect, if_pos hc.1, List.map_cons, ← hc.2.1]
      exact hnext.bind (hcollect.bind rfl)

theorem firstLeafFrom_returns {f : Fanout} {n : Nat} {t : Tree EncodedKey RID n} {root : Bool} {parent next : PageId}
    (hs : t.Sized f root) (hd : Holds s.pages (t.pages f parent next)) (hf : n < fuel) :
    Returns PageStore.handler (BPlusTree.firstLeafFrom fuel t.id) s t.firstLeaf s := by
  induction n generalizing parent next root fuel with
  | zero =>
      obtain ⟨fuel, rfl⟩ := Nat.exists_eq_add_one_of_ne_zero (Nat.ne_of_gt hf)
      have hp : s.pages t.id = (t.page f parent next).data := hd.value _ t.mem_pages
      refine ends_fetch rfl rfl (ends_getTreePage hp ?_)
      exact ends_perform rfl rfl
  | succ n ih =>
      obtain ⟨fuel, rfl⟩ := Nat.exists_eq_add_one_of_ne_zero (Nat.ne_of_gt (Nat.zero_lt_of_lt hf))
      obtain ⟨id, cs⟩ := t
      change Holds s.pages ((Tree.node id cs).pages f parent next) at hd
      obtain ⟨hmin, _, hcs⟩ := hs
      cases cs with
      | nil =>
          have h3 := f.three_le_internal
          simp only [List.length_nil] at hmin
          split at hmin <;> omega
      | cons c rest =>
          rw [Tree.pages_node, Tree.forest_cons] at hd
          have hp : s.pages id = (TreePage.internal ⟨parent, id, Tree.refs (c :: rest)⟩).data := hd.get
          refine ends_fetch rfl rfl (ends_getTreePage hp ?_)
          exact ends_perform rfl (ih (hcs c List.mem_cons_self) hd.right.left (Nat.lt_of_succ_lt_succ hf))

/-- A scan shows the contents of the tree, with the value that is stored now under
each key. -/
theorem scan_in_order {f : Fanout} {ix : Index EncodedKey RID} {a : TupleStore.ByteHeap} {dir : TupleStore.Directory}
    (hk : Keeps f s ix) (hwf : ix.WellFormed f) (ht : TupleStore.Refines s a dir)
    (hlive : ∀ e ∈ ix.contents, (a.content e.2).isSome) :
    TupleStore.Computes scan s (ix.contents.map (shown a.content)) s ∧ ix.contents.Pairwise (·.1 < ·.1) := by
  have hget : ∀ e ∈ ix.contents, Returns PageStore.handler (TupleStore.get e.2) s (a.content e.2) s := by
    intro e he
    obtain ⟨b, hb⟩ := Option.isSome_iff_exists.mp (hlive e he)
    rw [ht.content] at hb
    refine ht.reads e.2 ((ht.issued e.2).mpr ?_)
    exact (List.getElem?_eq_some_iff.mp (TupleStore.Directory.getElem_of_content hb)).1
  cases ix with
  | none =>
      refine ⟨⟨1, fun fuel hf => ?_⟩, List.Pairwise.nil⟩
      obtain ⟨fuel, rfl⟩ := Nat.exists_eq_add_one_of_ne_zero (Nat.ne_of_gt hf)
      have hroot : Returns PageStore.handler (BPlusTree.firstLeafPageId (fuel + 1)) s invalidPageId s := by
        refine ends_perform rfl ?_
        rw [if_pos (show s.members .rootPageId = invalidPageId from hk.root)]
        rfl
      have hload : Returns PageStore.handler (loadLeaf (fuel + 1) init invalidPageId) s init s := rfl
      exact (hroot.bind hload).bind rfl
  | some t =>
      obtain ⟨n, t⟩ := t
      have hb : t.Bounded Set.univ := hwf.1
      have hs : t.Sized f true := hwf.2
      have hlinked := linked_leaves hs hk.holds fun x hx => (hk.range x hx).1
      refine ⟨⟨n + t.leaves.length + t.contents.length + 1, fun fuel hf => ?_⟩, hb.contents.1⟩
      have hroot : s.members .rootPageId = t.id := hk.root
      have hne : t.id ≠ invalidPageId := ne_invalidPageId (hk.range _ t.mem_pages).1
      have hfirst : Returns PageStore.handler (BPlusTree.firstLeafPageId fuel) s t.firstLeaf s := by
        refine ends_perform rfl ?_
        rw [hroot, if_neg hne]
        exact firstLeafFrom_returns hs hk.holds (by omega)
      change ∀ e ∈ t.contents, _ at hget
      rw [t.contents_leaves] at hget
      obtain ⟨c, hload, hc⟩ := loadLeaf_returns (c := init) rfl hlinked hget (Nat.le_refl _)
        (show t.leaves.length < fuel by omega)
      show Returns PageStore.handler (scan fuel) s (t.contents.map _) s
      rw [t.contents_leaves] at hf ⊢
      exact (hfirst.bind hload).bind (collect_returns hc hget (by omega))

theorem exists_two_values : ∃ (s : PageStore EnginePage) (a : TupleStore.ByteHeap) (dir : TupleStore.Directory) (x y : RID),
    TupleStore.Refines s a dir ∧ a.content x = some [1, 2] ∧ a.content y = some [] := by
  have h₀ : TupleStore.Refines (TupleStore.newStore : PageStore EnginePage) .empty .empty :=
    TupleStore.refines_start (Int.le_refl 0) rfl
  obtain ⟨p, s₁, _, hs₁⟩ := TupleStore.computes_put h₀.stored (show ([1, 2] : Bytes).length ≤ maxValueSize by decide)
  have h₁ := h₀.put hs₁
  obtain ⟨q, s₂, _, hs₂⟩ := TupleStore.computes_put h₁.stored (show ([] : Bytes).length ≤ maxValueSize by decide)
  refine ⟨s₂, _, _, TupleStore.Directory.empty.nextRid p, _, h₁.put hs₂, ?_, Function.update_self ..⟩
  refine (Function.update_of_ne ?_ ..).trans (Function.update_self ..)
  intro he
  exact h₁.stored.not_issued q (he ▸ (h₁.issued _).mp List.mem_cons_self)

def lowKey : EncodedKey := ⟨[0, 0, 0, 0, 0, 0, 0, 1], rfl⟩

def highKey : EncodedKey := ⟨[128, 0, 0, 0, 0, 0, 0, 0], rfl⟩

/-- The pages of a root with two leaves, behind the pages that are there. -/
def withTwoLeaves (s : PageStore EnginePage) (x y : RID) : PageStore EnginePage :=
  let n := s.nextPageId
  { s with
    pages := fun p =>
      if p < n then s.pages p
      else if p = n then .leaf ⟨3, n + 2, n, n + 1, [(lowKey, y)]⟩
      else if p = n + 1 then .leaf ⟨3, n + 2, n + 1, invalidPageId, [(highKey, x)]⟩
      else .internal ⟨invalidPageId, n + 2, [(lowKey, n), (highKey, n + 1)]⟩
    nextPageId := n + 3
    members := Function.update s.members .rootPageId (n + 2) }

def twoLeaves (n : PageId) (x y : RID) : Tree EncodedKey RID 1 :=
  .node (n + 2) [(lowKey, .leaf n [(lowKey, y)]), (highKey, .leaf (n + 1) [(highKey, x)])]

def slim : Fanout := ⟨3, 4, by decide, by decide⟩

theorem keeps_twoLeaves {s : PageStore EnginePage} (hn : 0 ≤ s.nextPageId) (x y : RID) :
    Keeps slim (withTwoLeaves s x y) (some ⟨1, twoLeaves s.nextPageId x y⟩) := by
  obtain ⟨n, hs⟩ : ∃ n : Int, n = s.nextPageId := ⟨_, rfl⟩
  have hpos : (0 : Int) ≤ n := hs ▸ hn
  have hmem : ∀ z ∈ (twoLeaves s.nextPageId x y).pages slim invalidPageId invalidPageId,
      ∃ p ∈ [n + 2, n, n + 1], z = (p, (withTwoLeaves s x y).pages p) := by
    intro z hz
    have hpages : ([n + 2, n, n + 1].map fun p => (p, (withTwoLeaves s x y).pages p)) =
        [(n + 2, .internal ⟨invalidPageId, n + 2, [(lowKey, n), (highKey, n + 1)]⟩),
          (n, .leaf ⟨3, n + 2, n, n + 1, [(lowKey, y)]⟩),
          (n + 1, .leaf ⟨3, n + 2, n + 1, invalidPageId, [(highKey, x)]⟩)] := by
      simp [withTwoLeaves, ← hs]
    have hz : z ∈ [n + 2, n, n + 1].map fun p => (p, (withTwoLeaves s x y).pages p) := by
      rw [hpages, hs]
      exact hz
    obtain ⟨p, hp, rfl⟩ := List.mem_map.mp hz
    exact ⟨p, hp, rfl⟩
  have hrange : ∀ p : Int, p ∈ [n + 2, n, n + 1] → 0 ≤ p ∧ p < n + 3 := by
    intro p hp
    simp only [List.mem_cons, List.not_mem_nil, or_false] at hp
    omega
  refine ⟨rfl, ⟨?_, fun z hz => ?_⟩, fun z hz => ?_⟩
  · show [s.nextPageId + 2, s.nextPageId, s.nextPageId + 1].Nodup
    rw [← hs]
    simp
  · obtain ⟨p, _, rfl⟩ := hmem z hz
    rfl
  · obtain ⟨p, hp, rfl⟩ := hmem z hz
    show 0 ≤ p ∧ p < s.nextPageId + 3
    rw [← hs]
    exact hrange p hp

theorem wellFormed_twoLeaves (n : PageId) (x y : RID) : Index.WellFormed slim (some ⟨1, twoLeaves n x y⟩) := by
  have hlt : lowKey < highKey := by decide
  have hleaf : ∀ (p : PageId) (e : EncodedKey × RID), (Tree.leaf p [e]).Sized slim false :=
    fun p e => ⟨fun _ => Nat.le_refl 1, Nat.le_succ 1⟩
  refine ⟨⟨trivial, ⟨lowKey, trivial, hlt⟩, ⟨List.pairwise_singleton _ _, ?_⟩,
    List.pairwise_singleton _ _, ?_⟩, Nat.le_refl 2, Nat.le_add_left 2 2, fun c hc => ?_⟩
  · intro e he
    rw [List.mem_singleton.mp he]
    exact ⟨trivial, hlt⟩
  · intro e he
    rw [List.mem_singleton.mp he]
    exact ⟨trivial, le_refl highKey⟩
  · rcases List.mem_pair.mp hc with rfl | rfl <;> exact hleaf _ _

/-- Two leaves with a key each, over a tuple store with two values. -/
theorem scan_two_leaves : ∃ s : PageStore EnginePage,
    TupleStore.Computes scan s [(lowKey.bytes, []), (highKey.bytes, [1, 2])] s := by
  obtain ⟨s, a, dir, x, y, ht, hx, hy⟩ := exists_two_values
  have ht' : TupleStore.Refines (withTwoLeaves s x y) a dir := by
    refine ⟨ht.stored.frame (fun p hp => if_pos (ht.stored.range p hp).2) rfl (Int.le_add_of_nonneg_right ?_),
      ht.issued, ht.content⟩
    decide
  have hscan := (scan_in_order (keeps_twoLeaves ht.stored.next x y) (wellFormed_twoLeaves _ x y) ht' (by
    intro e he
    rcases List.mem_pair.mp he with rfl | rfl
    · rw [hy]; rfl
    · rw [hx]; rfl)).1
  refine ⟨withTwoLeaves s x y, ?_⟩
  rwa [show (Index.contents (some ⟨1, twoLeaves s.nextPageId x y⟩)).map (shown a.content) =
    [(lowKey.bytes, (a.content y).getD []), (highKey.bytes, (a.content x).getD [])] from rfl, hx, hy] at hscan

end KvCursor

end DBPlayground.Storage
