import DBPlayground.Storage.TreeMerge
import Mathlib.Logic.Relation

namespace DBPlayground.Storage

open Footprint Separators

/-- Child pointers in these pages lead from one page to another. -/
def Leads {K V : Type} (S : Multiset (PageId × PageData K V)) : PageId → PageId → Prop :=
  Relation.ReflTransGen fun p q => ∃ page : InternalPage K, (p, .internal page) ∈ S ∧ ∃ k, (k, q) ∈ page.array

namespace Path

variable {K V : Type} {n N : Nat} {f : Fanout} {q : PageId} {A B : List (K × Tree K V n)} {k k₁ k₂ : K}
  {t t₁ t₂ : Tree K V n}

/-- The pages around some neighbours among the children of the node at page `q`. -/
def around (f : Fanout) (up : Path K V (n + 1) N) (q first : PageId) (A B : List (K × Tree K V n)) :
    Multiset (PageId × PageData K V) :=
  Tree.forest f q first A + Tree.forest f q up.next B + up.pages f q (Tree.headLeaf first A)

theorem firstLeaf_node (ts : List (K × Tree K V n)) :
    (Tree.node q (A ++ (k, t) :: ts)).firstLeaf = Tree.headLeaf t.firstLeaf A := by
  cases A <;> rfl

theorem pages_single (up : Path K V (n + 1) N) : (up.plug (.node q (A ++ (k, t) :: B))).pages f invalidPageId invalidPageId =
    {(q, .internal ⟨up.parent, q, Tree.refs (A ++ (k, t) :: B)⟩)} +
      (t.pages f q (Tree.headLeaf up.next B) + up.around f q t.firstLeaf A B) := by
  rw [pages_plug, Tree.pages_node, Tree.forest_append, Tree.forest_cons, firstLeaf_node, around]
  show up.pages f q _ + _ = _
  simp only [Tree.headLeaf]
  abel

theorem pages_pair (up : Path K V (n + 1) N) :
    (up.plug (.node q (A ++ (k₁, t₁) :: (k₂, t₂) :: B))).pages f invalidPageId invalidPageId =
      {(q, .internal ⟨up.parent, q, Tree.refs (A ++ (k₁, t₁) :: (k₂, t₂) :: B)⟩)} + (t₁.pages f q t₂.firstLeaf +
        (t₂.pages f q (Tree.headLeaf up.next B) + up.around f q t₁.firstLeaf A B)) := by
  rw [pages_plug, Tree.pages_node, Tree.forest_append, Tree.forest_cons, Tree.forest_cons, firstLeaf_node, around]
  show up.pages f q _ + _ = _
  simp only [Tree.headLeaf]
  abel

theorem disjoint_pair {mem : PageId → PageData K V} {up : Path K V (n + 1) N} {R : Multiset (PageId × PageData K V)}
    (hd : Holds mem ((up.plug (.node q (A ++ (k₁, t₁) :: (k₂, t₂) :: B))).pages f invalidPageId invalidPageId + R)) :
    (∀ c ∈ A, c.2.id ≠ t₂.id) ∧ t₁.id ≠ t₂.id ∧ q ≠ t₁.id ∧ q ≠ t₂.id := by
  rw [up.pages_pair] at hd
  have hd' := hd.left.right
  refine ⟨fun c hc => ?_, ?_, ?_, ?_⟩
  · obtain ⟨data, hmem⟩ := Tree.mem_forest f q t₁.firstLeaf hc
    refine (hd'.right.disjoint _ t₂.mem_pages (c.2.id, data) ?_).symm
    exact Multiset.mem_add.mpr (.inl (Multiset.mem_add.mpr (.inl hmem)))
  · exact hd'.disjoint _ t₁.mem_pages _ (Multiset.mem_add.mpr (.inl t₂.mem_pages))
  · exact hd.left.disjoint _ (Multiset.mem_singleton_self _) _ (Multiset.mem_add.mpr (.inl t₁.mem_pages))
  · exact hd.left.disjoint _ (Multiset.mem_singleton_self _) _
      (Multiset.mem_add.mpr (.inr (Multiset.mem_add.mpr (.inl t₂.mem_pages))))

theorem leads_plug (f : Fanout) (path : Path K V n N) (t : Tree K V n) (first : PageId)
    {S : Multiset (PageId × PageData K V)} (hS : path.pages f t.id first ⊆ S) : Leads S (path.plug t).id t.id := by
  induction path generalizing first with
  | top => exact .refl
  | under frame up ih =>
      refine (ih (fill frame t []) _ fun x hx => hS (Multiset.mem_add.mpr (.inr hx))).tail
        ⟨frame.page up.parent t.id, hS ?_, ?_⟩
      · simp only [pages, add_assoc]
        exact mem_front
      · exact ⟨frame.key, List.mem_append_right _ List.mem_cons_self⟩

section entries

variable {parent : PageId}

theorem length_pair : (⟨parent, q, Tree.refs (A ++ (k₁, t₁) :: (k₂, t₂) :: B)⟩ : InternalPage K).size =
    A.length + (B.length + 2) := by
  simp [InternalPage.size, Tree.refs]

theorem refs_pair (k : K) : Tree.refs (A ++ (k₁, t₁) :: (k, t₂) :: B) =
    Tree.refs (A ++ [(k₁, t₁)]) ++ (k, t₂.id) :: Tree.refs B := by
  simp [Tree.refs]

theorem refs_ids {t₁' t₂' : Tree K V n} (h₁ : t₁'.id = t₁.id) (h₂ : t₂'.id = t₂.id) :
    Tree.refs (A ++ (k₁, t₁') :: (k₂, t₂') :: B) = Tree.refs (A ++ (k₁, t₁) :: (k₂, t₂) :: B) := by
  simp [Tree.refs, h₁, h₂]

theorem length_left : A.length + 1 = (Tree.refs (A ++ [(k₁, t₁)])).length := by simp [Tree.refs]

theorem keyAt_pair :
    (⟨parent, q, Tree.refs (A ++ (k₁, t₁) :: (k₂, t₂) :: B)⟩ : InternalPage K).keyAt (A.length + 1) = some k₂ := by
  rw [InternalPage.keyAt, refs_pair, length_left, getElem?_append_length]
  rfl

theorem valueAt_left :
    (⟨parent, q, Tree.refs (A ++ (k₁, t₁) :: (k₂, t₂) :: B)⟩ : InternalPage K).valueAt A.length = some t₁.id := by
  have hlen : A.length = (Tree.refs A).length := (List.length_map _).symm
  rw [InternalPage.valueAt, Tree.refs_append, hlen, Tree.refs_cons, getElem?_append_length]
  rfl

theorem valueAt_right :
    (⟨parent, q, Tree.refs (A ++ (k₁, t₁) :: (k₂, t₂) :: B)⟩ : InternalPage K).valueAt (A.length + 1) = some t₂.id := by
  rw [InternalPage.valueAt, refs_pair, length_left, getElem?_append_length]
  rfl

theorem setKeyAt_pair :
    (⟨parent, q, Tree.refs (A ++ (k₁, t₁) :: (k₂, t₂) :: B)⟩ : InternalPage K).setKeyAt (A.length + 1) k =
    ⟨parent, q, Tree.refs (A ++ (k₁, t₁) :: (k, t₂) :: B)⟩ := by
  rw [InternalPage.setKeyAt, refs_pair, refs_pair, length_left, modify_append_length]

theorem remove_pair (hid : t.id = t₁.id) :
    (⟨parent, q, Tree.refs (A ++ (k₁, t₁) :: (k₂, t₂) :: B)⟩ : InternalPage K).remove (A.length + 1) =
      ⟨parent, q, Tree.refs (A ++ (k₁, t) :: B)⟩ := by
  rw [InternalPage.remove, refs_pair, length_left, eraseIdx_append_length]
  simp [Tree.refs, hid]

theorem valueIndex_pair (hA : ∀ c ∈ A, c.2.id ≠ t₂.id) (hne : t₁.id ≠ t₂.id) :
    (⟨parent, q, Tree.refs (A ++ (k₁, t₁) :: (k₂, t₂) :: B)⟩ : InternalPage K).valueIndex t₂.id = some (A.length + 1) := by
  rw [refs_pair]
  have hlen : A.length + 1 = (A ++ [(k₁, t₁)]).length := by rw [List.length_append, List.length_singleton]
  rw [hlen]
  refine valueIndex_page ⟨q, A ++ [(k₁, t₁)], k₂, B⟩ fun c hc => ?_
  rcases List.mem_append.mp hc with hc | hc
  · exact hA c hc
  · obtain rfl := List.mem_singleton.mp hc
    exact hne

end entries

end Path

namespace InternalPage

variable {K : Type} [Inhabited K] (array : List (K × PageId)) (moved : K × PageId) (key : K)

theorem length_pushFront : (pushFront array moved key).length = array.length + 1 := by
  simp [pushFront, withFirstKey]

theorem pushFront_eq_cons : ∃ k rest, pushFront array moved key = (k, invalidPageId) :: rest := ⟨_, _, rfl⟩

end InternalPage

namespace Heap.Owns

variable {K V γ : Type} {h : Heap (PageData K V)} {S R : Multiset (PageId × PageData K V)} {E : Multiset PageId}
  {D : Set PageId} {l : List PageId} {M : Scope} {F : Regime K V} {X : Abort → Heap (PageData K V) → Prop}
  {i : Nat} {Q : γ → Heap (PageData K V) → Nat → Prop} {f : Fanout} {n N : Nat} {q next : PageId}
  {A B : List (K × Tree K V n)} {k k₁ k₂ : K} {t₁ t₂ : Tree K V n} {up : Path K V (n + 1) N}
  (hlim : ∀ data : PageData K V, data.Fits f → F.limit data)

include hlim

theorem mergeLeaves {g : Unit → PageM (PageData K V) γ} {t₁ t₂ : Tree K V 0} {index : Nat}
    (hs : Owns h (t₁.pages f q t₂.firstLeaf + (t₂.pages f q next + S)) E D l M) (hE₁ : t₁.id ∈ E) (hE₂ : t₂.id ∈ E)
    (hfit : t₁.size + t₂.size ≤ Tree.maxSize f 0)
    (hw₁ : F.guarded → M.Covers l t₁.id q) (hw₂ : F.guarded → M.Covers l t₂.id q)
    (hg : ∀ h a, a.parentPageId = q → Owns h ((Tree.merge k t₁ t₂).pages f q next + ({(t₂.id, a)} + S)) E
      (insert t₁.id (insert t₂.id D)) l M → Meets F X (g ()) h i Q) :
    Meets F X (BPlusTree.mergeInto t₁.id t₂.id q index (t₂.page f q next) >>= g) h i Q := by
  let page₁ : LeafPage K V := ⟨f.leafMaxSize, q, t₁.id, t₂.id, Leaf.entries t₁⟩
  let page₂ : LeafPage K V := ⟨f.leafMaxSize, q, t₂.id, next, Leaf.entries t₂⟩
  have hmove : page₂.moveAllTo page₁ = some ({ page₂ with array := [] },
      ⟨f.leafMaxSize, q, t₁.id, next, Leaf.entries t₁ ++ Leaf.entries t₂⟩) := by
    have hfit' : ¬ (Leaf.entries t₁).length + (Leaf.entries t₂).length > f.leafMaxSize - 1 := Nat.not_lt.mpr hfit
    exact congrArg (Option.bind · _) (show page₁.copyNFrom (Leaf.entries t₂) = some _ from if_neg hfit')
  have hmem : (t₁.id, .leaf page₁) ∈ t₁.pages f q t₂.firstLeaf + (t₂.pages f q next + S) :=
    mem_front
  rw [show t₂.page f q next = .leaf page₂ from rfl, BPlusTree.mergeInto, bind_assoc]
  refine hs.getLeaf hmem hE₁ ?_
  rw [hmove]
  dsimp only
  rw [bind_assoc]
  refine setData (hs.cells ({(t₂.id, .leaf page₂)} + ({(t₁.id, .leaf page₁)} + S)) ?_) hE₂
    (Regime.allows_covered (by rfl) hw₂ (hlim _ (Nat.zero_le _))) fun h hs => ?_
  · show {(t₁.id, .leaf page₁)} + ({(t₂.id, .leaf page₂)} + S) = _
    abel
  refine setData (hs.cells ({(t₁.id, .leaf page₁)} + ({(t₂.id, .leaf { page₂ with array := [] })} + S)) (by abel)) hE₁
    (Regime.allows_covered (by rfl) hw₁ (hlim _ ?_)) fun h hs => hg h _ rfl hs
  show (Leaf.entries t₁ ++ Leaf.entries t₂).length ≤ f.leafMaxSize - 1
  rw [List.length_append]
  exact hfit

theorem mergeNodes {g : Unit → PageM (PageData K V) γ} {cs₁ cs₂ : List (K × Tree K V n)} {i₁ i₂ : PageId} {index : Nat}
    {pp : InternalPage K} {next₁ : PageId} (hnext : next₁ = Tree.headLeaf next cs₂)
    (hs : Owns h ((Tree.node i₁ cs₁).pages f q next₁ + ((Tree.node i₂ cs₂).pages f q next + S)) E D l M)
    (hE₁ : i₁ ∈ E) (hE₂ : i₂ ∈ E) (hq : q ∈ E) (hpp : (q, .internal pp) ∈ S) (hk : pp.keyAt index = some k)
    (hfit : cs₁.length + cs₂.length ≤ f.internalMaxSize) (hn : (Tree.node i₂ cs₂).Nourished f)
    (hw₁ : F.guarded → M.Covers l i₁ q) (hw₂ : F.guarded → M.Covers l i₂ q)
    (hg : ∀ h a, a.parentPageId = q → Owns h ((Tree.merge k (Tree.node i₁ cs₁) (Tree.node i₂ cs₂)).pages f q next +
      ({(i₂, a)} + S)) E (insert i₁ (insert i₂ D)) l M → Meets F X (g ()) h i Q) :
    Meets F X (BPlusTree.mergeInto i₁ i₂ q index ((Tree.node i₂ cs₂).page f q next) >>= g) h i Q := by
  show Meets F X ((do
    let parentPage ← PageM.getInternal q
    let middleKey ← PageM.defined (parentPage.keyAt index)
    BPlusTree.moveAllTo i₂ i₁ middleKey) >>= g) h i Q
  unfold BPlusTree.moveAllTo
  simp only [bind_assoc]
  refine hs.getInternal (Multiset.mem_add.mpr (.inr (Multiset.mem_add.mpr (.inr hpp)))) hq (meets_defined hk ?_)
  have h₁ : (i₁, (.internal ⟨q, i₁, Tree.refs cs₁⟩ : PageData K V)) ∈ (Tree.node i₁ cs₁).pages f q next₁ +
      ((Tree.node i₂ cs₂).pages f q next + S) := Multiset.mem_add.mpr (.inl (Tree.node i₁ cs₁).mem_pages)
  have h₂ : (i₂, (.internal ⟨q, i₂, Tree.refs cs₂⟩ : PageData K V)) ∈ (Tree.node i₁ cs₁).pages f q next₁ +
      ((Tree.node i₂ cs₂).pages f q next + S) :=
    Multiset.mem_add.mpr (.inr (Multiset.mem_add.mpr (.inl (Tree.node i₂ cs₂).mem_pages)))
  refine hs.getInternal h₂ hE₂ (hs.getInternal h₁ hE₁ ?_)
  rw [Tree.pages_node, Tree.pages_node] at hs
  refine updateParentPageIds (hs.cells (Tree.forest f i₂ next cs₂ + ({(i₁, .internal ⟨q, i₁, Tree.refs cs₁⟩)} +
    (Tree.forest f i₁ next₁ cs₁ + ({(i₂, .internal ⟨q, i₂, Tree.refs cs₂⟩)} + S)))) (by abel))
    (fun c hc next => hlim _ (Tree.fits_page (Tree.sized_iff.mp (hn c hc)).2.1)) fun h hs => ?_
  refine setData (hs.cells ({(i₁, .internal ⟨q, i₁, Tree.refs cs₁⟩)} + (Tree.forest f i₁ next cs₂ +
    (Tree.forest f i₁ next₁ cs₁ + ({(i₂, .internal ⟨q, i₂, Tree.refs cs₂⟩)} + S)))) (by abel)) hE₁
    (Regime.allows_covered (by rfl) hw₁ (hlim _ ?_)) fun h hs => ?_
  · show (Tree.refs cs₁ ++ InternalPage.withFirstKey (Tree.refs cs₂) k).length ≤ f.internalMaxSize
    rw [← Tree.refs_rekey, ← Tree.refs_append, Tree.refs, List.length_map, List.length_append, Tree.length_rekey]
    exact hfit
  refine setData (hs.cells ({(i₂, .internal ⟨q, i₂, Tree.refs cs₂⟩)} +
    ({(i₁, .internal ⟨q, i₁, Tree.refs cs₁ ++ InternalPage.withFirstKey (Tree.refs cs₂) k⟩)} +
    (Tree.forest f i₁ next cs₂ + (Tree.forest f i₁ next₁ cs₁ + S)))) (by abel)) hE₂
    (Regime.allows_covered (by rfl) hw₂ (hlim _ (Nat.zero_le _))) fun h hs =>
      hg h (.internal ⟨q, i₂, []⟩) rfl ((hs.cells _ ?_).of_eq rfl rfl ?_)
  · show _ = (Tree.node i₁ (cs₁ ++ Tree.rekey k cs₂)).pages f q next + _
    rw [Tree.pages_node, Tree.forest_append, Tree.forest_rekey, Tree.headLeaf_rekey, Tree.refs_append,
      Tree.refs_rekey, hnext]
    abel
  · rw [Set.insert_comm]

theorem mergeInto {g : Unit → PageM (PageData K V) γ} {index : Nat} {pp : InternalPage K}
    (hs : Owns h (t₁.pages f q t₂.firstLeaf + (t₂.pages f q next + S)) E D l M) (hE₁ : t₁.id ∈ E) (hE₂ : t₂.id ∈ E)
    (hq : q ∈ E) (hpp : (q, .internal pp) ∈ S) (hk : pp.keyAt index = some k)
    (hfit : t₁.size + t₂.size ≤ Tree.maxSize f n) (hpos : n ≠ 0 → 0 < t₂.size) (hn : t₂.Nourished f)
    (hw₁ : F.guarded → M.Covers l t₁.id q) (hw₂ : F.guarded → M.Covers l t₂.id q)
    (hg : ∀ h a, a.parentPageId = q → Owns h ((Tree.merge k t₁ t₂).pages f q next + ({(t₂.id, a)} + S)) E
      (insert t₁.id (insert t₂.id D)) l M → Meets F X (g ()) h i Q) :
    Meets F X (BPlusTree.mergeInto t₁.id t₂.id q index (t₂.page f q next) >>= g) h i Q := by
  cases n with
  | zero => exact mergeLeaves hlim hs hE₁ hE₂ hfit hw₁ hw₂ hg
  | succ n =>
      obtain ⟨i₁, cs₁, rfl⟩ : ∃ id cs, t₁ = Tree.node id cs := ⟨_, _, rfl⟩
      obtain ⟨i₂, cs₂, rfl⟩ : ∃ id cs, t₂ = Tree.node id cs := ⟨_, _, rfl⟩
      have hnext : (Tree.node i₂ cs₂).firstLeaf = Tree.headLeaf next cs₂ := by
        cases cs₂ with
        | nil => exact absurd (hpos (Nat.succ_ne_zero n)) (Nat.lt_irrefl 0)
        | cons c cs => rfl
      exact mergeNodes hlim hnext hs hE₁ hE₂ hq hpp hk hfit hn hw₁ hw₂ hg

theorem coalesce {g : Bool → PageM (PageData K V) γ} {again : PageId → PageM (PageData K V) Bool}
    (hs : Owns h ((up.plug (.node q (A ++ (k₁, t₁) :: (k₂, t₂) :: B))).pages f invalidPageId invalidPageId + R)
      ({t₂.id} + E) D l M) (hE₁ : t₁.id ∈ E) (hq : q ∈ E) (hc : E.count t₂.id ≤ l.count t₂.id) (hz : F.spotless → t₂.id ∉ E)
    (hfit : t₁.size + t₂.size ≤ Tree.maxSize f n) (hpos₁ : n ≠ 0 → 0 < t₁.size) (hpos₂ : n ≠ 0 → 0 < t₂.size)
    (hn : t₂.Nourished f) (hsize : A.length + (B.length + 1) ≤ f.internalMaxSize)
    (hl : F.guarded → q ∈ l) (hw₁ : F.guarded → M.Covers l t₁.id q) (hw₂ : F.guarded → M.Covers l t₂.id q)
    (hg : ∀ h, Owns h ((up.plug (.node q (A ++ (k₁, Tree.merge k₂ t₁ t₂) :: B))).pages f invalidPageId invalidPageId + R)
        (E.filter (· ≠ t₂.id)) (insert q (insert t₁.id (D \ {t₂.id}))) l M.free →
      Meets F X ((if A.length + (B.length + 1) < (f.internalMaxSize + 1) / 2 then again q else pure false) >>= g) h i Q) :
    Meets F X (BPlusTree.coalesce f again t₁.id t₂.id q (A.length + 1) >>= g) h i Q := by
  have hlen' : (⟨up.parent, q, Tree.refs (A ++ (k₁, Tree.merge k₂ t₁ t₂) :: B)⟩ : InternalPage K).size =
      A.length + (B.length + 1) := by
    simp [InternalPage.size, Tree.refs]
  have hE₂ : t₂.id ∈ {t₂.id} + E := mem_front
  rw [up.pages_pair] at hs
  have hneq : q ≠ t₂.id := hs.holds.left.disjoint _ (Multiset.mem_singleton_self _) _
    (Multiset.mem_add.mpr (.inr (Multiset.mem_add.mpr (.inl t₂.mem_pages))))
  unfold BPlusTree.coalesce
  rw [bind_assoc]
  refine hs.getTreePage (Multiset.mem_add.mpr (.inl (Multiset.mem_add.mpr (.inr (Multiset.mem_add.mpr
    (.inr (Multiset.mem_add.mpr (.inl t₂.mem_pages)))))))) hE₂ ?_
  rw [bind_assoc, t₂.pageId_page]
  refine mergeInto hlim (hs.cells (t₁.pages f q t₂.firstLeaf + (t₂.pages f q (Tree.headLeaf up.next B) +
    ({(q, .internal ⟨up.parent, q, Tree.refs (A ++ (k₁, t₁) :: (k₂, t₂) :: B)⟩)} +
    (up.around f q t₁.firstLeaf A B + R)))) (by abel)) (Multiset.mem_add.mpr (.inr hE₁)) hE₂
    (Multiset.mem_add.mpr (.inr hq)) mem_front Path.keyAt_pair hfit hpos₂
    hn hw₁ hw₂
    fun h a ha hs => ?_
  simp only [bind_assoc]
  refine unpinPage hs (fun hw => by cases hw) fun h hs => ?_
  refine deletePage (hs.cells ({(t₂.id, a)} + ((Tree.merge k₂ t₁ t₂).pages f q (Tree.headLeaf up.next B) +
    ({(q, .internal ⟨up.parent, q, Tree.refs (A ++ (k₁, t₁) :: (k₂, t₂) :: B)⟩)} +
    (up.around f q t₁.firstLeaf A B + R)))) (by abel)) hc (fun hF => ha ▸ hw₂ hF) hz fun h hs => ?_
  have hq' : q ∈ E.filter (· ≠ t₂.id) := Multiset.mem_filter.mpr ⟨hq, hneq⟩
  refine hs.getInternal (Multiset.mem_add.mpr (.inr mem_front)) hq' ?_
  rw [Path.remove_pair Tree.id_merge, hlen']
  refine setData (hs.cells ({(q, .internal ⟨up.parent, q, Tree.refs (A ++ (k₁, t₁) :: (k₂, t₂) :: B)⟩)} +
    ((Tree.merge k₂ t₁ t₂).pages f q (Tree.headLeaf up.next B) + (up.around f q t₁.firstLeaf A B + R))) (by abel)) hq'
    (Regime.allows_mem hl (hlim _ (by rw [PageData.Fits, hlen']; exact hsize))) fun h hs =>
      hg h ((hs.cells _ ?_).of_eq rfl rfl ?_)
  · rw [up.pages_single, Tree.firstLeaf_merge hpos₁]
    abel
  · rintro p (rfl | ⟨⟨hp, hp₂⟩, _⟩)
    · exact Set.mem_insert _ _
    · rcases hp with rfl | rfl | hp
      · exact Set.mem_insert_of_mem _ (Set.mem_insert _ _)
      · exact absurd rfl hp₂
      · exact Set.mem_insert_of_mem _ (Set.mem_insert_of_mem _ ⟨hp, hp₂⟩)

theorem setKeyOf {g : Unit → PageM (PageData K V) γ} {parent : PageId}
    (hs : Owns h ({(q, .internal ⟨parent, q, Tree.refs (A ++ (k₁, t₁) :: (k₂, t₂) :: B)⟩)} + S) E D l M) (hq : q ∈ E)
    (hA : ∀ c ∈ A, c.2.id ≠ t₂.id) (hne : t₁.id ≠ t₂.id) (hsize : A.length + (B.length + 2) ≤ f.internalMaxSize)
    (hl : F.guarded → q ∈ l)
    (hg : ∀ h, Owns h ({(q, .internal ⟨parent, q, Tree.refs (A ++ (k₁, t₁) :: (k, t₂) :: B)⟩)} + S) E (insert q D) l M →
      Meets F X (g ()) h i Q) :
    Meets F X (BPlusTree.setKeyOf q t₂.id k >>= g) h i Q := by
  unfold BPlusTree.setKeyOf
  simp only [bind_assoc]
  refine hs.getInternal mem_front hq
    (meets_defined (Path.valueIndex_pair hA hne) ?_)
  rw [Path.setKeyAt_pair]
  exact setData hs hq (Regime.allows_mem hl (hlim _ (Path.length_pair.trans_le hsize))) hg

section redistribute

variable {g : Unit → PageM (PageData K V) γ} {parent : PageId} (hE₁ : t₁.id ∈ E) (hE₂ : t₂.id ∈ E)
  (hA : ∀ c ∈ A, c.2.id ≠ t₂.id) (hne : t₁.id ≠ t₂.id) (hsize : A.length + (B.length + 2) ≤ f.internalMaxSize)
  (hl : F.guarded → q ∈ l) (hw₁ : F.guarded → M.Covers l t₁.id q) (hw₂ : F.guarded → M.Covers l t₂.id q)

include hE₁ hE₂ hA hne hsize hl hw₁ hw₂

theorem redistribute_leaf_right [Inhabited K] {page₁ page₂ : LeafPage K V} {e e' : K × V} {es : List (K × V)}
    (hp₁ : page₁.parentPageId = q) (hp₂ : page₂.parentPageId = q) (hid : page₂.pageId = t₂.id)
    (harr : page₂.array = e :: e' :: es) (hfit₁ : page₁.array.length + 1 ≤ f.leafMaxSize - 1)
    (hfit₂ : es.length + 1 ≤ f.leafMaxSize - 1)
    (hs : Owns h ({(q, .internal ⟨parent, q, Tree.refs (A ++ (k₁, t₁) :: (k₂, t₂) :: B)⟩)} + ({(t₁.id, .leaf page₁)} +
      ({(t₂.id, .leaf page₂)} + S))) E D l M)
    (hg : ∀ h, Owns h ({(q, .internal ⟨parent, q, Tree.refs (A ++ (k₁, t₁) :: (e'.1, t₂) :: B)⟩)} +
      ({(t₁.id, .leaf { page₁ with array := page₁.array ++ [e] })} +
        ({(t₂.id, .leaf { page₂ with array := e' :: es })} + S))) ({q} + E) (insert q (insert t₁.id (insert t₂.id D))) l M →
      Meets F X (g ()) h i Q) :
    Meets F X (BPlusTree.redistribute t₂.id t₁.id true >>= g) h i Q := by
  have hm₁ : (t₁.id, (TreePage.leaf page₁).data) ∈ {(q, .internal ⟨parent, q, Tree.refs (A ++ (k₁, t₁) :: (k₂, t₂) :: B)⟩)} +
      ({(t₁.id, PageData.leaf page₁)} + ({(t₂.id, .leaf page₂)} + S)) :=
    Multiset.mem_add.mpr (.inr mem_front)
  have hmove : page₂.moveFirstToEndOf page₁ =
      some ({ page₂ with array := e' :: es }, { page₁ with array := page₁.array ++ [e] }) := by
    rw [LeafPage.moveFirstToEndOf, harr]
  unfold BPlusTree.redistribute
  rw [bind_assoc]
  refine hs.getTreePage hm₁ hE₁ ?_
  simp only [bind_assoc, TreePage.parentPageId, hp₁]
  refine hs.fetch mem_front fun h hs => ?_
  refine hs.getLeaf (Multiset.mem_add.mpr (.inr (Multiset.mem_add.mpr (.inr (Multiset.mem_add.mpr
    (.inl (Multiset.mem_singleton_self _))))))) (Multiset.mem_add.mpr (.inr hE₂)) ?_
  rw [if_pos trivial, bind_assoc]
  refine meets_defined hmove ?_
  simp only [bind_assoc]
  refine setData (hs.cells ({(t₂.id, .leaf page₂)} + ({(t₁.id, .leaf page₁)} +
    ({(q, .internal ⟨parent, q, Tree.refs (A ++ (k₁, t₁) :: (k₂, t₂) :: B)⟩)} + S))) (by abel))
    (Multiset.mem_add.mpr (.inr hE₂)) (Regime.allows_covered (by exact hp₂) hw₂ (hlim _ hfit₂)) fun h hs => ?_
  refine setData (hs.cells ({(t₁.id, .leaf page₁)} + ({(t₂.id, .leaf { page₂ with array := e' :: es })} +
    ({(q, .internal ⟨parent, q, Tree.refs (A ++ (k₁, t₁) :: (k₂, t₂) :: B)⟩)} + S))) (by abel))
    (Multiset.mem_add.mpr (.inr hE₁)) (Regime.allows_covered (by exact hp₁) hw₁ (hlim _ ?_)) fun h hs => ?_
  · show (page₁.array ++ [e]).length ≤ _
    rwa [List.length_append]
  refine meets_defined (b := e'.1) rfl ?_
  rw [hid]
  exact setKeyOf hlim (hs.cells _ (by abel)) mem_front hA hne hsize hl hg

theorem redistribute_leaf_left [Inhabited K] {page₁ page₂ : LeafPage K V} {e : K × V} {es : List (K × V)}
    (hp₁ : page₁.parentPageId = q) (hp₂ : page₂.parentPageId = q) (hid : page₂.pageId = t₂.id)
    (harr : page₁.array = es ++ [e]) (hfit₁ : es.length ≤ f.leafMaxSize - 1)
    (hfit₂ : page₂.array.length + 1 ≤ f.leafMaxSize - 1)
    (hs : Owns h ({(q, .internal ⟨parent, q, Tree.refs (A ++ (k₁, t₁) :: (k₂, t₂) :: B)⟩)} + ({(t₁.id, .leaf page₁)} +
      ({(t₂.id, .leaf page₂)} + S))) E D l M)
    (hg : ∀ h, Owns h ({(q, .internal ⟨parent, q, Tree.refs (A ++ (k₁, t₁) :: (e.1, t₂) :: B)⟩)} +
      ({(t₂.id, .leaf { page₂ with array := e :: page₂.array })} +
        ({(t₁.id, .leaf { page₁ with array := es })} + S))) ({q} + E) (insert q (insert t₂.id (insert t₁.id D))) l M →
      Meets F X (g ()) h i Q) :
    Meets F X (BPlusTree.redistribute t₁.id t₂.id false >>= g) h i Q := by
  have hm₂ : (t₂.id, (TreePage.leaf page₂).data) ∈ {(q, .internal ⟨parent, q, Tree.refs (A ++ (k₁, t₁) :: (k₂, t₂) :: B)⟩)} +
      ({(t₁.id, PageData.leaf page₁)} + ({(t₂.id, .leaf page₂)} + S)) :=
    Multiset.mem_add.mpr (.inr (Multiset.mem_add.mpr (.inr mem_front)))
  have hmove : page₁.moveLastToFrontOf page₂ =
      some ({ page₁ with array := es }, { page₂ with array := e :: page₂.array }) := by
    rw [LeafPage.moveLastToFrontOf, harr, List.getLast?_concat, List.dropLast_concat]
  unfold BPlusTree.redistribute
  rw [bind_assoc]
  refine hs.getTreePage hm₂ hE₂ ?_
  simp only [bind_assoc, TreePage.parentPageId, hp₂]
  refine hs.fetch mem_front fun h hs => ?_
  refine hs.getLeaf (Multiset.mem_add.mpr (.inr mem_front))
    (Multiset.mem_add.mpr (.inr hE₁)) ?_
  rw [if_neg (by decide), bind_assoc]
  refine meets_defined hmove ?_
  simp only [bind_assoc]
  refine setData (hs.cells ({(t₁.id, .leaf page₁)} + ({(t₂.id, .leaf page₂)} +
    ({(q, .internal ⟨parent, q, Tree.refs (A ++ (k₁, t₁) :: (k₂, t₂) :: B)⟩)} + S))) (by abel))
    (Multiset.mem_add.mpr (.inr hE₁)) (Regime.allows_covered (by exact hp₁) hw₁ (hlim _ hfit₁)) fun h hs => ?_
  refine setData (hs.cells ({(t₂.id, .leaf page₂)} + ({(t₁.id, .leaf { page₁ with array := es })} +
    ({(q, .internal ⟨parent, q, Tree.refs (A ++ (k₁, t₁) :: (k₂, t₂) :: B)⟩)} + S))) (by abel))
    (Multiset.mem_add.mpr (.inr hE₂)) (Regime.allows_covered (by exact hp₂) hw₂ (hlim _ hfit₂)) fun h hs => ?_
  refine meets_defined (b := e.1) rfl ?_
  rw [hid]
  exact setKeyOf hlim (hs.cells _ (by abel)) mem_front hA hne hsize hl hg

theorem redistribute_node_right [Inhabited K] {page₁ page₂ : InternalPage K} {moved : TreePage K V} {c d : K × PageId}
    {cs : List (K × PageId)} (hp₁ : page₁.parentPageId = q) (hp₂ : page₂.parentPageId = q)
    (hid₂ : page₂.pageId = t₂.id) (harr : page₂.array = c :: d :: cs) (hfit₁ : page₁.array.length + 1 ≤ f.internalMaxSize)
    (hfit₂ : cs.length + 1 ≤ f.internalMaxSize) (hmoved : F.limit (moved.setParentPageId page₁.pageId).data)
    (hs : Owns h ({(q, .internal ⟨parent, q, Tree.refs (A ++ (k₁, t₁) :: (k₂, t₂) :: B)⟩)} + ({(t₁.id, .internal page₁)} +
      ({(t₂.id, .internal page₂)} + ({(c.2, moved.data)} + S)))) E D l M)
    (hg : ∀ h, Owns h ({(q, .internal ⟨parent, q, Tree.refs (A ++ (k₁, t₁) :: (d.1, t₂) :: B)⟩)} +
      ({(t₁.id, .internal { page₁ with array := page₁.array ++ [(k₂, c.2)] })} +
        ({(t₂.id, .internal { page₂ with array := d :: cs })} + ({(c.2, (moved.setParentPageId page₁.pageId).data)} + S))))
      ({q} + E) (insert q (insert t₁.id (insert t₂.id D))) l M → Meets F X (g ()) h i Q) :
    Meets F X (BPlusTree.redistribute t₂.id t₁.id true >>= g) h i Q := by
  have hm₁ : ∀ S : Multiset (PageId × PageData K V), (t₁.id, (TreePage.internal page₁).data) ∈
      {(q, .internal ⟨parent, q, Tree.refs (A ++ (k₁, t₁) :: (k₂, t₂) :: B)⟩)} +
        ({(t₁.id, .internal page₁)} + S) := fun S =>
    Multiset.mem_add.mpr (.inr mem_front)
  have hm₂ : ∀ S : Multiset (PageId × PageData K V), (t₂.id, .internal page₂) ∈
      {(q, .internal ⟨parent, q, Tree.refs (A ++ (k₁, t₁) :: (k₂, t₂) :: B)⟩)} +
        ({(t₁.id, .internal page₁)} + ({(t₂.id, .internal page₂)} + S)) := fun S =>
    Multiset.mem_add.mpr (.inr (Multiset.mem_add.mpr (.inr mem_front)))
  have hE₁' : t₁.id ∈ {q} + E := Multiset.mem_add.mpr (.inr hE₁)
  have hE₂' : t₂.id ∈ {q} + E := Multiset.mem_add.mpr (.inr hE₂)
  have hq : q ∈ {q} + E := mem_front
  unfold BPlusTree.redistribute
  rw [bind_assoc]
  refine hs.getTreePage (hm₁ _) hE₁ ?_
  simp only [bind_assoc, TreePage.parentPageId, hp₁]
  refine hs.fetch mem_front fun h hs => ?_
  refine hs.getInternal (hm₂ _) hE₂' (hs.getInternal mem_front hq ?_)
  rw [if_pos trivial, hid₂]
  simp only [bind_assoc]
  refine meets_defined (Path.valueIndex_pair hA hne) (meets_defined Path.keyAt_pair ?_)
  unfold BPlusTree.moveFirstToEndOf
  simp only [bind_assoc]
  refine hs.getInternal (hm₂ _) hE₂' (hs.getInternal (hm₁ _) hE₁' ?_)
  refine meets_defined (b := c) (by rw [harr]; rfl) ?_
  rw [harr, List.tail_cons]
  refine updateParentPageId (hs.cells ({(c.2, moved.data)} + ({(t₂.id, .internal page₂)} + ({(t₁.id, .internal page₁)} +
    ({(q, .internal ⟨parent, q, Tree.refs (A ++ (k₁, t₁) :: (k₂, t₂) :: B)⟩)} + S)))) (by abel)) hmoved fun h hs => ?_
  refine setData (hs.cells ({(t₂.id, .internal page₂)} + ({(t₁.id, .internal page₁)} +
    ({(q, .internal ⟨parent, q, Tree.refs (A ++ (k₁, t₁) :: (k₂, t₂) :: B)⟩)} +
    ({(c.2, (moved.setParentPageId page₁.pageId).data)} + S)))) (by abel)) hE₂'
    (Regime.allows_covered (by exact hp₂) hw₂ (hlim _ hfit₂))
    fun h hs => ?_
  refine setData (hs.cells ({(t₁.id, .internal page₁)} + ({(t₂.id, .internal { page₂ with array := d :: cs })} +
    ({(q, .internal ⟨parent, q, Tree.refs (A ++ (k₁, t₁) :: (k₂, t₂) :: B)⟩)} +
    ({(c.2, (moved.setParentPageId page₁.pageId).data)} + S)))) (by abel)) hE₁'
    (Regime.allows_covered (by exact hp₁) hw₁ (hlim _ ?_)) fun h hs => ?_
  · show (page₁.array ++ [(k₂, c.2)]).length ≤ _
    rwa [List.length_append]
  refine hs.getInternal (Multiset.mem_add.mpr (.inr mem_front)) hE₂' ?_
  refine meets_defined (b := d.1) rfl ?_
  rw [hid₂]
  exact setKeyOf hlim (hs.cells _ (by abel)) hq hA hne hsize hl hg

theorem redistribute_node_left [Inhabited K] {page₁ page₂ : InternalPage K} {moved : TreePage K V} {c : K × PageId}
    {cs : List (K × PageId)} (hp₁ : page₁.parentPageId = q) (hp₂ : page₂.parentPageId = q) (hid₂ : page₂.pageId = t₂.id)
    (harr : page₁.array = cs ++ [c]) (hfit₁ : cs.length ≤ f.internalMaxSize)
    (hfit₂ : page₂.array.length + 1 ≤ f.internalMaxSize) (hmoved : F.limit (moved.setParentPageId page₂.pageId).data)
    (hs : Owns h ({(q, .internal ⟨parent, q, Tree.refs (A ++ (k₁, t₁) :: (k₂, t₂) :: B)⟩)} + ({(t₁.id, .internal page₁)} +
      ({(t₂.id, .internal page₂)} + ({(c.2, moved.data)} + S)))) E D l M)
    (hg : ∀ h k, Owns h ({(q, .internal ⟨parent, q, Tree.refs (A ++ (k₁, t₁) :: (k, t₂) :: B)⟩)} +
      ({(t₂.id, .internal { page₂ with array := InternalPage.pushFront page₂.array c k₂ })} +
        ({(t₁.id, .internal { page₁ with array := cs })} + ({(c.2, (moved.setParentPageId page₂.pageId).data)} + S))))
      ({q} + E) (insert q (insert t₂.id (insert t₁.id D))) l M → Meets F X (g ()) h i Q) :
    Meets F X (BPlusTree.redistribute t₁.id t₂.id false >>= g) h i Q := by
  have hm₁ : ∀ S : Multiset (PageId × PageData K V), (t₁.id, .internal page₁) ∈
      {(q, .internal ⟨parent, q, Tree.refs (A ++ (k₁, t₁) :: (k₂, t₂) :: B)⟩)} +
        ({(t₁.id, .internal page₁)} + S) := fun S =>
    Multiset.mem_add.mpr (.inr mem_front)
  have hm₂ : ∀ S : Multiset (PageId × PageData K V), (t₂.id, (TreePage.internal page₂).data) ∈
      {(q, .internal ⟨parent, q, Tree.refs (A ++ (k₁, t₁) :: (k₂, t₂) :: B)⟩)} +
        ({(t₁.id, .internal page₁)} + ({(t₂.id, .internal page₂)} + S)) := fun S =>
    Multiset.mem_add.mpr (.inr (Multiset.mem_add.mpr (.inr mem_front)))
  have hE₁' : t₁.id ∈ {q} + E := Multiset.mem_add.mpr (.inr hE₁)
  have hE₂' : t₂.id ∈ {q} + E := Multiset.mem_add.mpr (.inr hE₂)
  have hq : q ∈ {q} + E := mem_front
  unfold BPlusTree.redistribute
  rw [bind_assoc]
  refine hs.getTreePage (hm₂ _) hE₂ ?_
  simp only [bind_assoc, TreePage.parentPageId, hp₂]
  refine hs.fetch mem_front fun h hs => ?_
  refine hs.getInternal (hm₁ _) hE₁' (hs.getInternal mem_front hq ?_)
  rw [if_neg (by decide), hid₂]
  simp only [bind_assoc]
  refine meets_defined (Path.valueIndex_pair hA hne) (meets_defined Path.keyAt_pair ?_)
  unfold BPlusTree.moveLastToFrontOf
  simp only [bind_assoc]
  refine hs.getInternal (hm₁ _) hE₁' (hs.getInternal (hm₂ _) hE₂' ?_)
  refine meets_defined (b := c) (by rw [harr, List.getLast?_concat]) ?_
  rw [harr, List.dropLast_concat]
  refine updateParentPageId (hs.cells ({(c.2, moved.data)} + ({(t₂.id, .internal page₂)} + ({(t₁.id, .internal page₁)} +
    ({(q, .internal ⟨parent, q, Tree.refs (A ++ (k₁, t₁) :: (k₂, t₂) :: B)⟩)} + S)))) (by abel)) hmoved fun h hs => ?_
  refine setData (hs.cells ({(t₁.id, .internal page₁)} + ({(t₂.id, .internal page₂)} +
    ({(q, .internal ⟨parent, q, Tree.refs (A ++ (k₁, t₁) :: (k₂, t₂) :: B)⟩)} +
    ({(c.2, (moved.setParentPageId page₂.pageId).data)} + S)))) (by abel)) hE₁'
    (Regime.allows_covered (by exact hp₁) hw₁ (hlim _ hfit₁))
    fun h hs => ?_
  refine setData (hs.cells ({(t₂.id, .internal page₂)} + ({(t₁.id, .internal { page₁ with array := cs })} +
    ({(q, .internal ⟨parent, q, Tree.refs (A ++ (k₁, t₁) :: (k₂, t₂) :: B)⟩)} +
    ({(c.2, (moved.setParentPageId page₂.pageId).data)} + S)))) (by abel)) hE₂'
    (Regime.allows_covered (by exact hp₂) hw₂ (hlim _ ?_)) fun h hs => ?_
  · show (InternalPage.pushFront page₂.array c k₂).length ≤ _
    rwa [InternalPage.length_pushFront]
  refine hs.getInternal mem_front hE₂' ?_
  refine meets_defined rfl ?_
  rw [hid₂]
  exact setKeyOf hlim (hs.cells _ (by abel)) hq hA hne hsize hl fun h hs => hg h _ hs

end redistribute

section lend

variable [LinearOrder K] [Inhabited K] {g : Unit → PageM (PageData K V) γ}

theorem lendRight_leaf {A B : List (K × Tree K V 0)} {up : Path K V 1 N} {t₁ t₂ : Tree K V 0}
    (hs : Owns h ((up.plug (.node q (A ++ (k₁, t₁) :: (k₂, t₂) :: B))).pages f invalidPageId invalidPageId + R) E D l M)
    (hE₁ : t₁.id ∈ E) (hE₂ : t₂.id ∈ E) (h₁ : t₁.Weak f false) (h₂ : t₂.Sized f false) (hlend : Tree.minSize f 0 < t₂.size)
    (hsize : A.length + (B.length + 2) ≤ f.internalMaxSize)
    (hl : F.guarded → q ∈ l) (hw₁ : F.guarded → M.Covers l t₁.id q) (hw₂ : F.guarded → M.Covers l t₂.id q)
    (hg : ∀ h k' t₁' t₂', Tree.Shifted f k₂ t₁ t₂ k' t₁' t₂' →
      Owns h ((up.plug (.node q (A ++ (k₁, t₁') :: (k', t₂') :: B))).pages f invalidPageId invalidPageId + R) ({q} + E)
        (insert q (insert t₁.id (insert t₂.id D))) l M → Meets F X (g ()) h i Q) :
    Meets F X (BPlusTree.redistribute t₂.id t₁.id true >>= g) h i Q := by
  obtain ⟨hA, hne, _, _⟩ := Path.disjoint_pair hs.holds
  obtain ⟨_, hmax, _⟩ := Tree.sized_iff.mp h₂
  replace h₁ := h₁.1
  obtain ⟨i₁, es₁, rfl⟩ : ∃ id es, t₁ = Tree.leaf id es := ⟨_, _, rfl⟩
  obtain ⟨i₂, es₂, rfl⟩ : ∃ id es, t₂ = Tree.leaf id es := ⟨_, _, rfl⟩
  rw [Tree.size_leaf] at h₁ hlend hmax
  have hmin := Tree.one_le_minSize f 0
  obtain ⟨e, e', es, rfl⟩ : ∃ e e' es, es₂ = e :: e' :: es := by
    match es₂, hlend with
    | e :: e' :: es, _ => exact ⟨e, e', es, rfl⟩
    | [e], h =>
        rw [List.length_singleton] at h
        omega
  rw [List.length_cons, List.length_cons] at hlend hmax
  have hshift : Tree.Shifted f k₂ (Tree.leaf i₁ es₁) (Tree.leaf i₂ (e :: e' :: es)) e'.1 (Tree.leaf i₁ (es₁ ++ [e]))
    (Tree.leaf i₂ (e' :: es)) := Tree.shifted_leaf_right h₁ hlend hmax
  rw [up.pages_pair] at hs
  replace hs : Owns h ({(q, .internal ⟨up.parent, q, Tree.refs (A ++ (k₁, Tree.leaf i₁ es₁) ::
      (k₂, Tree.leaf i₂ (e :: e' :: es)) :: B)⟩)} + ({(i₁, .leaf ⟨f.leafMaxSize, q, i₁, i₂, es₁⟩)} +
      ({(i₂, .leaf ⟨f.leafMaxSize, q, i₂, Tree.headLeaf up.next B, e :: e' :: es⟩)} + (up.around f q i₁ A B + R))))
      E D l M := hs.cells _ (by rw [add_assoc, add_assoc, add_assoc]; rfl)
  refine redistribute_leaf_right hlim hE₁ hE₂ hA hne hsize hl hw₁ hw₂ (by rfl) (by rfl) (by rfl) (by rfl) ?_ ?_ hs
    fun h hs => hg h _ _ _ hshift (hs.cells _ ?_)
  · exact (h₁.trans_lt hlend).le.trans hmax
  · exact Nat.le_of_succ_le hmax
  · rw [up.pages_pair, Path.refs_ids hshift.left_id hshift.right_id, add_assoc, add_assoc, add_assoc]
    rfl

theorem lendLeft_leaf {A B : List (K × Tree K V 0)} {up : Path K V 1 N} {t₁ t₂ : Tree K V 0}
    (hs : Owns h ((up.plug (.node q (A ++ (k₁, t₁) :: (k₂, t₂) :: B))).pages f invalidPageId invalidPageId + R) E D l M)
    (hE₁ : t₁.id ∈ E) (hE₂ : t₂.id ∈ E) (h₁ : t₁.Sized f false) (h₂ : t₂.Weak f false) (hlend : Tree.minSize f 0 < t₁.size)
    (hsize : A.length + (B.length + 2) ≤ f.internalMaxSize)
    (hl : F.guarded → q ∈ l) (hw₁ : F.guarded → M.Covers l t₁.id q) (hw₂ : F.guarded → M.Covers l t₂.id q)
    (hg : ∀ h k' t₁' t₂', Tree.Shifted f k₂ t₁ t₂ k' t₁' t₂' →
      Owns h ((up.plug (.node q (A ++ (k₁, t₁') :: (k', t₂') :: B))).pages f invalidPageId invalidPageId + R) ({q} + E)
        (insert q (insert t₂.id (insert t₁.id D))) l M → Meets F X (g ()) h i Q) :
    Meets F X (BPlusTree.redistribute t₁.id t₂.id false >>= g) h i Q := by
  obtain ⟨hA, hne, _, _⟩ := Path.disjoint_pair hs.holds
  obtain ⟨_, hmax, _⟩ := Tree.sized_iff.mp h₁
  replace h₂ := h₂.1
  obtain ⟨i₁, es₁, rfl⟩ : ∃ id es, t₁ = Tree.leaf id es := ⟨_, _, rfl⟩
  obtain ⟨i₂, es₂, rfl⟩ : ∃ id es, t₂ = Tree.leaf id es := ⟨_, _, rfl⟩
  rw [Tree.size_leaf] at h₂ hlend hmax
  obtain ⟨es, e, rfl⟩ : ∃ es e, es₁ = es ++ [e] :=
    ⟨_, _, (List.dropLast_append_getLast (List.ne_nil_of_length_pos (Nat.zero_lt_of_lt hlend))).symm⟩
  rw [List.length_append, List.length_singleton] at hlend hmax
  have hshift : Tree.Shifted f k₂ (Tree.leaf i₁ (es ++ [e])) (Tree.leaf i₂ es₂) e.1 (Tree.leaf i₁ es)
    (Tree.leaf i₂ (e :: es₂)) := Tree.shifted_leaf_left h₂ hlend hmax
  rw [up.pages_pair] at hs
  replace hs : Owns h ({(q, .internal ⟨up.parent, q, Tree.refs (A ++ (k₁, Tree.leaf i₁ (es ++ [e])) ::
      (k₂, Tree.leaf i₂ es₂) :: B)⟩)} + ({(i₁, .leaf ⟨f.leafMaxSize, q, i₁, i₂, es ++ [e]⟩)} +
      ({(i₂, .leaf ⟨f.leafMaxSize, q, i₂, Tree.headLeaf up.next B, es₂⟩)} + (up.around f q i₁ A B + R))))
      E D l M := hs.cells _ (by rw [add_assoc, add_assoc, add_assoc]; rfl)
  refine redistribute_leaf_left hlim hE₁ hE₂ hA hne hsize hl hw₁ hw₂ (by rfl) (by rfl) (by rfl) (by rfl) ?_ ?_ hs
    fun h hs => hg h _ _ _ hshift (hs.cells _ ?_)
  · exact Nat.le_of_succ_le hmax
  · exact (h₂.trans_lt hlend).le.trans hmax
  · rw [up.pages_pair, Path.refs_ids hshift.left_id hshift.right_id]
    show {(q, _)} + ({(i₂, _)} + ({(i₁, _)} + (up.around f q i₁ A B + R))) =
      {(q, _)} + ({(i₁, .leaf ⟨f.leafMaxSize, q, i₁, i₂, es⟩)} +
        ({(i₂, .leaf ⟨f.leafMaxSize, q, i₂, Tree.headLeaf up.next B, e :: es₂⟩)} + up.around f q i₁ A B)) + R
    abel

theorem lendRight_node {A B : List (K × Tree K V (n + 1))} {up : Path K V (n + 2) N} {t₁ t₂ : Tree K V (n + 1)}
    (hs : Owns h ((up.plug (.node q (A ++ (k₁, t₁) :: (k₂, t₂) :: B))).pages f invalidPageId invalidPageId + R) E D l M)
    (hE₁ : t₁.id ∈ E) (hE₂ : t₂.id ∈ E) (h₁ : t₁.Weak f false) (h₂ : t₂.Sized f false)
    (hlend : Tree.minSize f (n + 1) < t₂.size) (hsize : A.length + (B.length + 2) ≤ f.internalMaxSize)
    (hl : F.guarded → q ∈ l) (hw₁ : F.guarded → M.Covers l t₁.id q) (hw₂ : F.guarded → M.Covers l t₂.id q)
    (hg : ∀ h k' t₁' t₂', Tree.Shifted f k₂ t₁ t₂ k' t₁' t₂' →
      Owns h ((up.plug (.node q (A ++ (k₁, t₁') :: (k', t₂') :: B))).pages f invalidPageId invalidPageId + R) ({q} + E)
        (insert q (insert t₁.id (insert t₂.id D))) l M → Meets F X (g ()) h i Q) :
    Meets F X (BPlusTree.redistribute t₂.id t₁.id true >>= g) h i Q := by
  obtain ⟨hA, hne, _, _⟩ := Path.disjoint_pair hs.holds
  obtain ⟨_, hmax, hn₂⟩ := Tree.sized_iff.mp h₂
  obtain ⟨h₁, hn₁⟩ := h₁
  obtain ⟨i₁, cs₁, rfl⟩ : ∃ id cs, t₁ = Tree.node id cs := ⟨_, _, rfl⟩
  obtain ⟨i₂, cs₂, rfl⟩ : ∃ id cs, t₂ = Tree.node id cs := ⟨_, _, rfl⟩
  rw [Tree.size_node] at h₁ hlend hmax
  have hmin := Tree.two_le_minSize f n
  obtain ⟨a, cs₁, rfl⟩ : ∃ a cs, cs₁ = a :: cs := List.exists_cons_of_length_pos (by omega)
  obtain ⟨c, d, cs, rfl⟩ : ∃ c d cs, cs₂ = c :: d :: cs := by
    match cs₂, hlend with
    | c :: d :: cs, _ => exact ⟨c, d, cs, rfl⟩
    | [c], h =>
        rw [List.length_singleton] at h
        omega
  rw [List.length_cons, List.length_cons] at hlend hmax
  have hshift : Tree.Shifted f k₂ (Tree.node i₁ (a :: cs₁)) (Tree.node i₂ (c :: d :: cs)) d.1
    (Tree.node i₁ ((a :: cs₁) ++ [(k₂, c.2)])) (Tree.node i₂ (d :: cs)) := Tree.shifted_node_right h₁ hlend hmax hn₁ hn₂
  rw [up.pages_pair] at hs
  replace hs : Owns h ({(q, .internal ⟨up.parent, q, Tree.refs (A ++ (k₁, Tree.node i₁ (a :: cs₁)) ::
      (k₂, Tree.node i₂ (c :: d :: cs)) :: B)⟩)} + ({(i₁, .internal ⟨q, i₁, Tree.refs (a :: cs₁)⟩)} +
      ({(i₂, .internal ⟨q, i₂, Tree.refs (c :: d :: cs)⟩)} + ({(c.2.id, (c.2.page f i₂ d.2.firstLeaf).data)} +
      (c.2.below f d.2.firstLeaf + (Tree.forest f i₁ c.2.firstLeaf (a :: cs₁) +
      (Tree.forest f i₂ (Tree.headLeaf up.next B) (d :: cs) + (up.around f q a.2.firstLeaf A B + R)))))))) E D l M := by
    refine hs.cells _ ?_
    rw [Tree.pages_node, Tree.pages_node, Tree.forest_cons (c := c), c.2.pages_eq]
    show _ + ({(i₁, _)} + Tree.forest f i₁ c.2.firstLeaf (a :: cs₁) + ({(i₂, _)} +
      ({(c.2.id, (c.2.page f i₂ d.2.firstLeaf).data)} + c.2.below f d.2.firstLeaf + _) +
      up.around f q a.2.firstLeaf A B)) + R = _
    abel
  refine redistribute_node_right (c := (c.1, c.2.id)) (d := (d.1, d.2.id)) hlim hE₁ hE₂ hA hne hsize hl hw₁ hw₂
    (by rfl) (by rfl)
    (by rfl) (by rfl) ?_ ?_ ?_ hs fun h hs => hg h _ _ _ hshift (hs.cells _ ?_)
  · rw [Tree.refs, List.length_map]
    exact (h₁.trans_lt hlend).le.trans hmax
  · rw [List.length_map]
    exact Nat.le_of_succ_le hmax
  · rw [Tree.setParentPageId_page]
    exact hlim _ (Tree.fits_page (Tree.sized_iff.mp (hn₂ c List.mem_cons_self)).2.1)
  · have harr : Tree.refs (a :: cs₁ ++ [(k₂, c.2)]) = Tree.refs (a :: cs₁) ++ [(k₂, c.2.id)] := Tree.refs_append
    rw [up.pages_pair, Path.refs_ids hshift.left_id hshift.right_id, Tree.pages_node, Tree.pages_node, Tree.forest_append,
      Tree.forest_cons (c := (k₂, c.2)), Tree.forest_nil, c.2.pages_eq, Tree.setParentPageId_page, harr, add_zero]
    show {(q, _)} + ({(i₁, .internal ⟨q, i₁, Tree.refs (a :: cs₁) ++ [(k₂, c.2.id)]⟩)} +
        ({(i₂, .internal ⟨q, i₂, Tree.refs (d :: cs)⟩)} + ({(c.2.id, (c.2.page f i₁ d.2.firstLeaf).data)} +
        (c.2.below f d.2.firstLeaf + (Tree.forest f i₁ c.2.firstLeaf (a :: cs₁) +
        (Tree.forest f i₂ (Tree.headLeaf up.next B) (d :: cs) + (up.around f q a.2.firstLeaf A B + R))))))) =
      {(q, _)} + ({(i₁, .internal ⟨q, i₁, Tree.refs (a :: cs₁) ++ [(k₂, c.2.id)]⟩)} +
        (Tree.forest f i₁ c.2.firstLeaf (a :: cs₁) + ({(c.2.id, (c.2.page f i₁ d.2.firstLeaf).data)} +
        c.2.below f d.2.firstLeaf)) + ({(i₂, .internal ⟨q, i₂, Tree.refs (d :: cs)⟩)} +
        Tree.forest f i₂ (Tree.headLeaf up.next B) (d :: cs) + up.around f q a.2.firstLeaf A B)) + R
    abel

omit [LinearOrder K] in
theorem lendLeft_node {A B : List (K × Tree K V (n + 1))} {up : Path K V (n + 2) N} {t₁ t₂ : Tree K V (n + 1)}
    (hs : Owns h ((up.plug (.node q (A ++ (k₁, t₁) :: (k₂, t₂) :: B))).pages f invalidPageId invalidPageId + R) E D l M)
    (hE₁ : t₁.id ∈ E) (hE₂ : t₂.id ∈ E) (h₁ : t₁.Sized f false) (h₂ : t₂.Weak f false)
    (hlend : Tree.minSize f (n + 1) < t₁.size) (hsize : A.length + (B.length + 2) ≤ f.internalMaxSize)
    (hl : F.guarded → q ∈ l) (hw₁ : F.guarded → M.Covers l t₁.id q) (hw₂ : F.guarded → M.Covers l t₂.id q)
    (hg : ∀ h S, Leads S (up.plug (.node q (A ++ (k₁, t₁) :: (k₂, t₂) :: B))).id invalidPageId →
      Owns h S ({q} + E) (insert q (insert t₂.id (insert t₁.id D))) l M → Meets F X (g ()) h i Q) :
    Meets F X (BPlusTree.redistribute t₁.id t₂.id false >>= g) h i Q := by
  obtain ⟨hA, hne, _, _⟩ := Path.disjoint_pair hs.holds
  obtain ⟨_, hmax, hn₁⟩ := Tree.sized_iff.mp h₁
  obtain ⟨h₂, _⟩ := h₂
  obtain ⟨i₁, cs₁, rfl⟩ : ∃ id cs, t₁ = Tree.node id cs := ⟨_, _, rfl⟩
  obtain ⟨i₂, cs₂, rfl⟩ : ∃ id cs, t₂ = Tree.node id cs := ⟨_, _, rfl⟩
  rw [Tree.size_node] at h₂ hlend hmax
  obtain ⟨cs, c, rfl⟩ : ∃ cs c, cs₁ = cs ++ [c] :=
    ⟨_, _, (List.dropLast_append_getLast (List.ne_nil_of_length_pos (Nat.zero_lt_of_lt hlend))).symm⟩
  rw [List.length_append, List.length_singleton] at hlend hmax
  obtain ⟨next, hnext⟩ : ∃ next, (Tree.node i₂ cs₂).firstLeaf = next := ⟨_, rfl⟩
  obtain ⟨first, hfirst⟩ : ∃ first, (Tree.node i₁ (cs ++ [c])).firstLeaf = first := ⟨_, rfl⟩
  rw [up.pages_pair, hnext, hfirst, Tree.pages_node, Tree.forest_append, Tree.forest_cons, Tree.forest_nil,
    c.2.pages_eq] at hs
  replace hs : Owns h ({(q, .internal ⟨up.parent, q, Tree.refs (A ++ (k₁, Tree.node i₁ (cs ++ [c])) ::
      (k₂, Tree.node i₂ cs₂) :: B)⟩)} + ({(i₁, .internal ⟨q, i₁, Tree.refs cs ++ [(c.1, c.2.id)]⟩)} +
      ({(i₂, .internal ⟨q, i₂, Tree.refs cs₂⟩)} + ({(c.2.id, (c.2.page f i₁ next).data)} +
      (up.pages f q (Tree.headLeaf first A) + (c.2.below f next + (Tree.forest f i₁ c.2.firstLeaf cs +
      (Tree.forest f i₂ (Tree.headLeaf up.next B) cs₂ + (Tree.forest f q first A + Tree.forest f q up.next B + R)))))))))
      E D l M := by
    have harr : Tree.refs (cs ++ [c]) = Tree.refs cs ++ [(c.1, c.2.id)] := Tree.refs_append
    refine hs.cells _ ?_
    rw [harr, add_zero, Tree.pages_node, Path.around]
    show _ + ({(i₁, _)} + (Tree.forest f i₁ c.2.firstLeaf cs + ({(c.2.id, (c.2.page f i₁ next).data)} +
      c.2.below f next)) + _) + _ = _
    abel
  refine redistribute_node_left (c := (c.1, c.2.id)) hlim hE₁ hE₂ hA hne hsize hl hw₁ hw₂ (by rfl) (by rfl)
    (by rfl) (by rfl) ?_ ?_ ?_ hs fun h k hs => hg h _ ?_ hs
  · rw [Tree.refs, List.length_map]
    exact Nat.le_of_succ_le hmax
  · rw [Tree.refs, List.length_map]
    exact (h₂.trans_lt hlend).le.trans hmax
  · rw [Tree.setParentPageId_page]
    exact hlim _ (Tree.fits_page (Tree.sized_iff.mp (hn₁ c (List.mem_append_right _ List.mem_cons_self))).2.1)
  · obtain ⟨k', rest, hpush⟩ := InternalPage.pushFront_eq_cons (Tree.refs cs₂) (c.1, c.2.id) k₂
    refine ((up.leads_plug f (.node q (A ++ (k₁, Tree.node i₁ (cs ++ [c])) :: (k₂, Tree.node i₂ cs₂) :: B))
      (Tree.headLeaf first A) fun x hx => ?_).tail
        ⟨_, mem_front, k, ?_⟩).tail
        ⟨_, Multiset.mem_add.mpr (.inr mem_front), k', ?_⟩
    · iterate 4 refine Multiset.mem_add.mpr (.inr ?_)
      exact Multiset.mem_add.mpr (.inl hx)
    · rw [Path.refs_pair]
      exact List.mem_append_right _ List.mem_cons_self
    · rw [hpush]
      exact List.mem_cons_self

end lend

end Heap.Owns

end DBPlayground.Storage
