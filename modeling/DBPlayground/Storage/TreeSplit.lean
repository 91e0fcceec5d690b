import DBPlayground.Storage.HeapRules
import DBPlayground.Storage.TreeShape

namespace DBPlayground.Storage

open Footprint Separators

/-- A tree page is at most one entry above `MaxSize`, as it is before a split. -/
def PageData.Roomy {K V : Type} (f : Fanout) : PageData K V → Prop
  | .leaf page => page.size ≤ f.leafMaxSize
  | .internal page => page.size ≤ f.internalMaxSize + 1
  | _ => True

theorem PageData.Roomy.inside {K V : Type} {f : Fanout} {data : PageData K V} (h : data.Roomy f) (hf : f.InPage 1) :
    data.inside = true := by
  obtain ⟨hleaf, hinternal⟩ := hf
  have h2 := f.two_le_leaf
  cases data with
  | leaf page =>
      change page.array.length ≤ _ at h
      exact decide_eq_true (by omega)
  | internal page =>
      change page.array.length ≤ _ at h
      exact decide_eq_true (by omega)
  | zero | catalog | value => rfl

namespace Tree

variable {K V : Type} {n : Nat} {f : Fanout}

theorem Sized.roomy {t : Tree K V n} {root : Bool} (h : t.Sized f root) (parent next : PageId) :
    (t.page f parent next).data.Roomy f := by
  cases n with
  | zero => exact Nat.le_trans h.2 (Nat.sub_le _ _)
  | succ n =>
      show (refs (Node.children t)).length ≤ _
      rw [refs, List.length_map]
      exact Nat.le_succ_of_le h.2.1

def half (m : Nat) : Nat := (m + 1) / 2

/-- What `Split` leaves of a node. -/
def lower : {n : Nat} → Tree K V n → Tree K V n
  | 0, t => .leaf (Leaf.id t) ((Leaf.entries t).take (half (Leaf.entries t).length))
  | _ + 1, t => .node (Node.id t) ((Node.children t).take (half (Node.children t).length))

/-- What `Split` moves to the page `new`. -/
def upper (new : PageId) : {n : Nat} → Tree K V n → Tree K V n
  | 0, t => .leaf new ((Leaf.entries t).drop (half (Leaf.entries t).length))
  | _ + 1, t => .node new ((Node.children t).drop (half (Node.children t).length))

def middle : {n : Nat} → Tree K V n → Option K
  | 0, t => ((Leaf.entries t).drop (half (Leaf.entries t).length)).head?.map Prod.fst
  | _ + 1, t => ((Node.children t).drop (half (Node.children t).length)).head?.map Prod.fst

def Overfull (f : Fanout) : {n : Nat} → Tree K V n → Prop
  | 0, t => (Leaf.entries t).length = f.leafMaxSize
  | n + 1, t => (Node.children t).length = f.internalMaxSize + 1 ∧
      ∀ c ∈ Node.children t, Sized f false (n := n) c.2

theorem id_lower (t : Tree K V n) : t.lower.id = t.id := by
  cases n <;> rfl

theorem contents_halves (new : PageId) (t : Tree K V n) : t.lower.contents ++ (t.upper new).contents = t.contents := by
  cases n with
  | zero => exact List.take_append_drop _ _
  | succ n =>
      show (List.take _ _).flatMap _ ++ (List.drop _ _).flatMap _ = _
      rw [← List.flatMap_append, List.take_append_drop]
      rfl

theorem Overfull.sized {t : Tree K V n} (h : t.Overfull f) (new : PageId) :
    t.lower.Sized f false ∧ (t.upper new).Sized f false := by
  cases n with
  | zero =>
      have h2 := f.two_le_leaf
      have hlen : (Leaf.entries t).length = f.leafMaxSize := h
      have hhalf : half (Leaf.entries t).length = (f.leafMaxSize + 1) / 2 := by rw [hlen]; rfl
      refine ⟨⟨fun _ => ?_, ?_⟩, fun _ => ?_, ?_⟩
      · show _ ≤ (List.take _ _).length
        rw [List.length_take]
        omega
      · show (List.take _ _).length ≤ _
        rw [List.length_take]
        omega
      · show _ ≤ (List.drop _ _).length
        rw [List.length_drop]
        omega
      · show (List.drop _ _).length ≤ _
        rw [List.length_drop]
        omega
  | succ n =>
      have h3 := f.three_le_internal
      obtain ⟨hlen, hcs⟩ := h
      have hhalf : half (Node.children t).length = (f.internalMaxSize + 1 + 1) / 2 := by rw [hlen]; rfl
      refine ⟨⟨?_, ?_, fun c hc => hcs c (List.mem_of_mem_take hc)⟩, ?_, ?_, fun c hc => hcs c (List.mem_of_mem_drop hc)⟩
      · show _ ≤ (List.take _ _).length
        rw [List.length_take, if_neg nofun]
        omega
      · show (List.take _ _).length ≤ _
        rw [List.length_take]
        omega
      · show _ ≤ (List.drop _ _).length
        rw [List.length_drop, if_neg nofun]
        omega
      · show (List.drop _ _).length ≤ _
        rw [List.length_drop]
        omega

theorem exists_halves {A : Type} {l : List A} (h : 2 ≤ l.length) :
    ∃ a as b bs, l = (a :: as) ++ b :: bs ∧ l.take (half l.length) = a :: as ∧ l.drop (half l.length) = b :: bs := by
  have hlow : 0 < (l.take (half l.length)).length := by
    rw [List.length_take, half]
    omega
  have hupp : 0 < (l.drop (half l.length)).length := by
    rw [List.length_drop, half]
    omega
  obtain ⟨a, as, ha⟩ := List.exists_cons_of_length_pos hlow
  obtain ⟨b, bs, hb⟩ := List.exists_cons_of_length_pos hupp
  refine ⟨a, as, b, bs, ?_, ha, hb⟩
  rw [← ha, ← hb, List.take_append_drop]

theorem Overfull.cut [LinearOrder K] {t : Tree K V n} {J : Set K} (h : t.Overfull f) (hb : t.Bounded J) (new : PageId) :
    ∃ k, t.middle = some k ∧ t.lower.firstLeaf = t.firstLeaf ∧
      SpansFrom (fun I (c : Tree K V n) => c.Bounded I) J t.lower [(k, t.upper new)] := by
  cases n with
  | zero =>
      have h2 := f.two_le_leaf
      have hlen : (Leaf.entries t).length = f.leafMaxSize := h
      obtain ⟨a, as, e, es, heq, htake, hdrop⟩ := exists_halves (l := Leaf.entries t) (by omega)
      obtain ⟨hsorted, hmem⟩ := hb
      change (Leaf.entries t).Pairwise (·.1 < ·.1) at hsorted
      change ∀ e ∈ Leaf.entries t, e.1 ∈ J at hmem
      rw [heq] at hsorted hmem
      obtain ⟨hlow, hupp, hcross⟩ := List.pairwise_append.mp hsorted
      have hk : ∀ x ∈ a :: as, x.1 < e.1 := fun x hx => hcross x hx e List.mem_cons_self
      have hlower : t.lower = .leaf t.id (a :: as) := congrArg (Tree.leaf t.id) htake
      have hupper : t.upper new = .leaf new (e :: es) := congrArg (Tree.leaf new) hdrop
      have hmiddle : t.middle = some e.1 := congrArg (fun l => l.head?.map Prod.fst) hdrop
      rw [hlower, hupper]
      refine ⟨e.1, hmiddle, rfl, hmem e (by simp), ⟨a.1, hmem a (by simp), hk a List.mem_cons_self⟩, ?_, ?_⟩
      · exact ⟨hlow, fun x hx => ⟨hmem x (List.mem_append_left _ hx), hk x hx⟩⟩
      · refine ⟨hupp, fun x hx => ⟨hmem x (List.mem_append_right _ hx), ?_⟩⟩
        rcases List.mem_cons.mp hx with rfl | hx
        · exact le_refl _
        · exact le_of_lt ((List.pairwise_cons.mp hupp).1 x hx)
  | succ n =>
      have h3 := f.three_le_internal
      obtain ⟨hlen, _⟩ := h
      obtain ⟨a, as, c, cs, heq, htake, hdrop⟩ := exists_halves (l := Node.children t) (by omega)
      change Spans (fun I (c : Tree K V n) => c.Bounded I) J (Node.children t) at hb
      rw [heq] at hb
      obtain ⟨hk, hne, hlow, hupp⟩ := spansFrom_append.mp hb
      have hlower : t.lower = .node t.id (a :: as) := congrArg (Tree.node t.id) htake
      have hupper : t.upper new = .node new (c :: cs) := congrArg (Tree.node new) hdrop
      have hmiddle : t.middle = some c.1 := congrArg (fun l => l.head?.map Prod.fst) hdrop
      have ht : t = .node t.id ((a :: as) ++ c :: cs) := congrArg (Tree.node t.id) heq
      rw [hlower, hupper]
      refine ⟨c.1, hmiddle, ?_, hk, hne, hlow, hupp⟩
      rw [ht]
      rfl

theorem setParentPageId_page (t : Tree K V n) (q q' next : PageId) :
    (t.page f q next).setParentPageId q' = t.page f q' next := by
  cases n <;> rfl

end Tree

namespace Heap.Owns

variable {K V γ : Type} {h : Heap (PageData K V)} {S : Multiset (PageId × PageData K V)} {E : Multiset PageId}
  {D : Set PageId} {l : List PageId} {M : Scope} {F : Regime K V} {X : Abort → Heap (PageData K V) → Prop}
  {i : Nat} {Q : γ → Heap (PageData K V) → Nat → Prop} {f : Fanout} {n : Nat} {p q q' next new parent : PageId}

theorem updateParentPageId {g : Unit → PageM (PageData K V) γ} {node : TreePage K V}
    (hs : Owns h ({(p, node.data)} + S) E D l M) (hlim : F.limit (node.setParentPageId q).data)
    (hg : ∀ h, Owns h ({(p, (node.setParentPageId q).data)} + S) E D l M → Meets F X (g ()) h i Q) :
    Meets F X (BPlusTree.updateParentPageId p q >>= g) h i Q := by
  have hmem : (p, node.data) ∈ {(p, node.data)} + S := mem_front
  have hpin : p ∈ {p} + E := mem_front
  unfold BPlusTree.updateParentPageId
  simp only [bind_assoc]
  refine hs.fetch hmem fun h hs => hs.getTreePage hmem hpin (hs.setData hpin (Regime.allows_parent hlim) fun h hs => ?_)
  refine hs.unpinPage nofun fun h hs => hg h (hs.of_eq rfl rfl ?_)
  rintro x ⟨hx, hne⟩
  exact hx.resolve_left hne

theorem updateParentPageIds {g : Unit → PageM (PageData K V) γ} {cs : List (K × Tree K V n)}
    (hs : Owns h (Tree.forest f q next cs + S) E D l M)
    (hlim : ∀ c ∈ cs, ∀ next, F.limit (c.2.page f q' next).data)
    (hg : ∀ h, Owns h (Tree.forest f q' next cs + S) E D l M → Meets F X (g ()) h i Q) :
    Meets F X (BPlusTree.updateParentPageIds q' ((Tree.refs cs).map Prod.snd) >>= g) h i Q := by
  induction cs generalizing h S with
  | nil => exact hg h hs
  | cons c cs ih =>
      rw [Tree.forest_cons, Tree.pages_eq] at hs
      show Meets F X ((do
        BPlusTree.updateParentPageId c.2.id q'
        BPlusTree.updateParentPageIds q' ((Tree.refs cs).map Prod.snd)) >>= g) h i Q
      rw [bind_assoc]
      refine updateParentPageId (hs.cells ({(c.2.id, (c.2.page f q (Tree.headLeaf next cs)).data)} +
        (c.2.below f (Tree.headLeaf next cs) + (Tree.forest f q next cs + S))) (by abel)) ?_ fun h hs => ?_
      · rw [Tree.setParentPageId_page]
        exact hlim c List.mem_cons_self _
      rw [Tree.setParentPageId_page] at hs
      refine ih (hs.cells (Tree.forest f q next cs + (c.2.pages f q' (Tree.headLeaf next cs) + S))
        (by rw [Tree.pages_eq]; abel)) (fun d hd => hlim d (List.mem_cons_of_mem c hd))
        fun h hs => hg h (hs.cells _ (by rw [Tree.forest_cons]; abel))

section split

variable (hlim : ∀ data : PageData K V, data.Roomy f → F.limit data)

include hlim

theorem splitLeaf {g : Unit → PageM (PageData K V) γ} {t : Tree K V 0} (hover : t.Overfull f)
    (hs : Owns h (t.pages f parent next + ({(new, .zero)} + S)) E D l M) (ht : t.id ∈ E) (hnew : new ∈ E)
    (hl : F.guarded → t.id ∈ l) (hc : new ∈ M.created)
    (hg : ∀ h, Owns h (t.lower.pages f parent (t.upper new).firstLeaf + ((t.upper new).pages f parent next + S)) E
      (insert t.id (insert new D)) l M → Meets F X (g ()) h i Q) :
    Meets F X (BPlusTree.splitInto f t.id new >>= g) h i Q := by
  have h2 := f.two_le_leaf
  have hlen : (Leaf.entries t).length = f.leafMaxSize := hover
  let page : LeafPage K V := ⟨f.leafMaxSize, parent, Leaf.id t, next, Leaf.entries t⟩
  have hmove : page.moveHalfTo (LeafPage.init new parent f.leafMaxSize) =
      some ({ page with array := (Leaf.entries t).take (Tree.half (Leaf.entries t).length) },
        ⟨f.leafMaxSize, parent, new, invalidPageId, (Leaf.entries t).drop (Tree.half (Leaf.entries t).length)⟩) := by
    have hfit : ¬ 0 + ((Leaf.entries t).drop (Tree.half (Leaf.entries t).length)).length > f.leafMaxSize - 1 := by
      rw [List.length_drop, hlen, Tree.half]
      omega
    exact congrArg (Option.bind · _) (show (LeafPage.init new parent f.leafMaxSize).copyNFrom
      ((Leaf.entries t).drop (Tree.half (Leaf.entries t).length)) = some _ from if_neg hfit)
  unfold BPlusTree.splitInto
  rw [bind_assoc]
  refine hs.getTreePage (Multiset.mem_add.mpr (.inl t.mem_pages)) ht ?_
  rw [show t.page f parent next = .leaf page from rfl]
  dsimp only
  rw [hmove]
  dsimp only
  rw [bind_assoc]
  obtain ⟨hlow, hupp⟩ := hover.sized new
  refine setData (hs.cells ({(new, .zero)} + (t.pages f parent next + S)) (by abel)) hnew
    (Regime.allows_created hc (hlim _ (hupp.roomy parent next))) fun h hs => ?_
  refine setData (hs.cells ({(t.id, (t.page f parent next).data)} + ((t.upper new).pages f parent next + S)) ?_) ht
    (Regime.allows_mem hl (hlim _ (hlow.roomy parent new))) fun h hs => hg h hs
  show {((t.upper new).id, ((t.upper new).page f parent next).data)} + ({(t.id, (t.page f parent next).data)} + S) =
    {(t.id, (t.page f parent next).data)} + ({((t.upper new).id, ((t.upper new).page f parent next).data)} + S)
  abel

theorem moveHalfTo {g : Unit → PageM (PageData K V) γ} {id : PageId} {cs as bs : List (K × Tree K V n)}
    (hcs : cs = as ++ bs) (has : as.length = Tree.half cs.length) (hlen : cs.length ≤ f.internalMaxSize + 1)
    (hsz : ∀ c ∈ cs, c.2.Sized f false)
    (hs : Owns h ({(id, .internal ⟨parent, id, Tree.refs cs⟩)} + (Tree.forest f id next cs +
      ({(new, .internal ⟨parent, new, []⟩)} + S))) E D l M) (hid : id ∈ E) (hnew : new ∈ E)
    (hl : F.guarded → id ∈ l) (hc : new ∈ M.created)
    (hg : ∀ h, Owns h ((Tree.node id as).pages f parent (Tree.headLeaf next bs) +
      ((Tree.node new bs).pages f parent next + S))
      E (insert id (insert new D)) l M → Meets F X (g ()) h i Q) :
    Meets F X (BPlusTree.moveHalfTo id new >>= g) h i Q := by
  have hhalves : (⟨parent, id, Tree.refs cs⟩ : InternalPage K).halves = (Tree.refs as, Tree.refs bs) := by
    have hlen : (Tree.refs as).length = (InternalPage.size (⟨parent, id, Tree.refs cs⟩ : InternalPage K) + 1) / 2 := by
      show (List.map _ as).length = ((List.map _ cs).length + 1) / 2
      rw [List.length_map, List.length_map, has, Tree.half]
    unfold InternalPage.halves
    rw [← hlen, hcs, Tree.refs_append]
    dsimp only
    rw [List.take_left, List.drop_left]
  rw [hcs, List.length_append] at hlen
  have has' : (.internal ⟨parent, id, Tree.refs as⟩ : PageData K V).Roomy f := by
    show (List.map _ as).length ≤ _
    rw [List.length_map]
    omega
  have hbs : (.internal ⟨parent, new, Tree.refs bs⟩ : PageData K V).Roomy f := by
    show (List.map _ bs).length ≤ _
    rw [List.length_map]
    omega
  unfold BPlusTree.moveHalfTo
  simp only [bind_assoc]
  refine hs.getInternal mem_front hid ?_
  have hmem : (new, (.internal ⟨parent, new, []⟩ : PageData K V)) ∈ {(id, .internal ⟨parent, id, Tree.refs cs⟩)} +
      (Tree.forest f id next cs + ({(new, .internal ⟨parent, new, []⟩)} + S)) := by simp
  refine hs.getInternal hmem hnew ?_
  rw [hhalves]
  rw [hcs, Tree.forest_append] at hs
  refine updateParentPageIds (q := id) (hs.cells (Tree.forest f id next bs +
    ({(id, .internal ⟨parent, id, Tree.refs (as ++ bs)⟩)} +
    (Tree.forest f id (Tree.headLeaf next bs) as + ({(new, .internal ⟨parent, new, []⟩)} + S)))) (by abel))
    (fun c hc next => hlim _ ((hsz c (hcs ▸ List.mem_append_right as hc)).roomy new next)) fun h hs => ?_
  refine setData (hs.cells ({(new, .internal ⟨parent, new, []⟩)} + (Tree.forest f new next bs +
    ({(id, .internal ⟨parent, id, Tree.refs (as ++ bs)⟩)} + (Tree.forest f id (Tree.headLeaf next bs) as + S)))) (by abel))
    hnew (Regime.allows_created hc (hlim _ hbs)) fun h hs => ?_
  refine setData (hs.cells ({(id, .internal ⟨parent, id, Tree.refs (as ++ bs)⟩)} +
    ({(new, .internal ⟨parent, new, Tree.refs bs⟩)} + (Tree.forest f new next bs +
    (Tree.forest f id (Tree.headLeaf next bs) as + S)))) (by abel)) hid (Regime.allows_mem hl (hlim _ has'))
    fun h hs => hg h (hs.cells _ ?_)
  rw [Tree.pages_node, Tree.pages_node, hcs]
  abel

theorem splitInto {g : Unit → PageM (PageData K V) γ} {t : Tree K V n} (hover : t.Overfull f)
    (hs : Owns h (t.pages f parent next + ({(new, .zero)} + S)) E D l M) (ht : t.id ∈ E) (hnew : new ∈ E)
    (hl : F.guarded → t.id ∈ l) (hc : new ∈ M.created)
    (hg : ∀ h, Owns h (t.lower.pages f parent (t.upper new).firstLeaf + ((t.upper new).pages f parent next + S)) E
      (insert t.id (insert new D)) l M → Meets F X (g ()) h i Q) :
    Meets F X (BPlusTree.splitInto f t.id new >>= g) h i Q := by
  cases n with
  | zero => exact splitLeaf hlim hover hs ht hnew hl hc hg
  | succ n =>
      obtain ⟨id, cs, rfl⟩ : ∃ id cs, t = Tree.node id cs := ⟨_, _, rfl⟩
      have h3 := f.three_le_internal
      have hlen : cs.length = f.internalMaxSize + 1 := hover.1
      obtain ⟨a, as, b, bs, hcs, htake, hdrop⟩ := Tree.exists_halves (l := cs) (by omega)
      have hlower : (Tree.node id cs).lower = .node id (a :: as) := congrArg (Tree.node id) htake
      have hupper : (Tree.node id cs).upper new = .node new (b :: bs) := congrArg (Tree.node new) hdrop
      rw [hlower, hupper] at hg
      unfold BPlusTree.splitInto
      rw [bind_assoc]
      refine hs.getTreePage (Multiset.mem_add.mpr (.inl (Tree.mem_pages _))) ht ?_
      show Meets F X ((do
        PageM.setData new (.internal ⟨parent, new, []⟩)
        BPlusTree.moveHalfTo id new) >>= g) h i Q
      rw [bind_assoc]
      refine setData (hs.cells ({(new, .zero)} + ((Tree.node id cs).pages f parent next + S)) (by abel)) hnew
        (Regime.allows_created hc (hlim _ (Nat.zero_le _))) fun h hs => ?_
      have hhalf : (a :: as).length = Tree.half cs.length := by
        rw [← htake, List.length_take, Tree.half]
        omega
      refine moveHalfTo hlim hcs hhalf hlen.le hover.2
        (hs.cells ({(id, .internal ⟨parent, id, Tree.refs cs⟩)} + (Tree.forest f id next cs +
        ({(new, .internal ⟨parent, new, []⟩)} + S))) (by rw [Tree.pages_node]; abel)) ht hnew hl hc fun h hs => hg h ?_
      refine hs.of_eq rfl rfl ?_
      rw [Set.insert_idem]
      exact subset_rfl

end split

end Heap.Owns

end DBPlayground.Storage
