import DBPlayground.Storage.TreeSearch
import DBPlayground.Storage.TreeSplit

namespace DBPlayground.Storage

open Footprint Separators

theorem insertIdx_append_length {A : Type} (l₁ l₂ : List A) (a : A) : (l₁ ++ l₂).insertIdx l₁.length a = l₁ ++ a :: l₂ := by
  induction l₁ with
  | nil => rfl
  | cons b l₁ ih =>
      rw [List.cons_append, List.length_cons, List.insertIdx_succ_cons, ih]
      rfl

namespace Path

variable {K V : Type} {n N : Nat}

def height : {n : Nat} → Path K V n N → Nat
  | _, .top => 0
  | _, .under _ up => height up + 1

/-- The number of pages that `InsertIntoParent` allocates for a node beside the
hole. -/
def allocs (f : Fanout) : {n : Nat} → Path K V n N → Nat
  | _, .top => 1
  | _, .under frame up =>
    if frame.left.length + (frame.right.length + 1) = f.internalMaxSize then allocs f up + 1 else 0

theorem add_height (path : Path K V n N) : n + path.height = N := by
  induction path with
  | top => rfl
  | under frame up ih =>
      rw [height]
      omega

theorem id_plug {t t' : Tree K V n} (path : Path K V n N) (h : t.id = t'.id) : (path.plug t).id = (path.plug t').id := by
  induction path with
  | top => exact h
  | under frame up ih => exact ih rfl

theorem plug_unique [LinearOrder K] {I : Set K} {x : K} {path path' : Path K V n N} {t t' : Tree K V n}
    (hb : (path.plug t).Bounded I) (he : path.plug t = path'.plug t') (hx : x ∈ path.window I) (hx' : x ∈ path'.window I) :
    path = path' ∧ t = t' := by
  induction path with
  | top =>
      cases path' with
      | top => exact ⟨rfl, he⟩
      | under frame up =>
          have := up.add_height
          omega
  | under frame up ih =>
      cases path' with
      | top =>
          have := up.add_height
          omega
      | under frame' up' =>
          obtain ⟨rfl, hfill⟩ := ih hb he (Separators.window_subset hx) (Separators.window_subset hx')
          obtain ⟨hid, hcs⟩ := Node.mk.inj hfill
          obtain ⟨id, l, k, r⟩ := frame
          obtain ⟨id', l', k', r'⟩ := frame'
          cases hid
          obtain ⟨rfl, rfl, rfl, rfl⟩ := window_unique (up.bounded_plug hb).1 hcs hx hx'
          exact ⟨rfl, rfl⟩

theorem valueIndex_page (frame : Frame K (Tree K V n)) {parent p : PageId} (hp : ∀ c ∈ frame.left, c.2.id ≠ p) :
    (frame.page parent p).valueIndex p = some frame.left.length := by
  have hnone : (Tree.refs frame.left).findIdx? (fun x => decide (x.2 = p)) = none := by
    rw [List.findIdx?_eq_none_iff]
    intro x hx
    obtain ⟨c, hc, rfl⟩ := List.mem_map.mp hx
    exact decide_eq_false (hp c hc)
  rw [InternalPage.valueIndex, Frame.page, List.findIdx?_append, hnone, List.findIdx?_cons]
  simp [Tree.refs]

theorem insertNodeAfter_page (frame : Frame K (Tree K V n)) {parent : PageId} {t₁ t₂ : Tree K V n} {k : K}
    (hp : ∀ c ∈ frame.left, c.2.id ≠ t₁.id) :
    (frame.page parent t₁.id).insertNodeAfter t₁.id k t₂.id =
      ⟨parent, frame.id, Tree.refs (frame.left ++ (frame.key, t₁) :: ([(k, t₂)] ++ frame.right))⟩ := by
  rw [InternalPage.insertNodeAfter, valueIndex_page frame hp]
  have hlen : frame.left.length + 1 = (Tree.refs frame.left ++ [(frame.key, t₁.id)]).length := by simp [Tree.refs]
  have harr : (frame.page parent t₁.id).array =
      (Tree.refs frame.left ++ [(frame.key, t₁.id)]) ++ Tree.refs frame.right := by
    rw [List.append_assoc]
    rfl
  dsimp only
  rw [hlen, harr, insertIdx_append_length, Tree.refs_append, Tree.refs_cons, List.singleton_append, Tree.refs_cons,
    List.append_assoc]
  rfl

theorem pages_fill (f : Fanout) (frame : Frame K (Tree K V n)) {parent next : PageId} {t₁ t₂ : Tree K V n} {k : K} :
    (fill frame t₁ [(k, t₂)]).pages f parent next =
      {(frame.id, .internal ⟨parent, frame.id, Tree.refs (frame.left ++ (frame.key, t₁) :: ([(k, t₂)] ++ frame.right))⟩)} +
      (Tree.forest f frame.id t₁.firstLeaf frame.left + (t₁.pages f frame.id t₂.firstLeaf +
      (t₂.pages f frame.id (Tree.headLeaf next frame.right) + Tree.forest f frame.id next frame.right))) := by
  rw [fill, Tree.pages_node, Tree.forest_append, Tree.forest_cons, List.singleton_append, Tree.forest_cons]
  rfl

theorem releases_insert {f : Fanout} (frame : Frame K (Tree K V n)) (parent : PageId)
    (hfull : frame.left.length + (frame.right.length + 1) = f.internalMaxSize) :
    BPlusTree.releases f (.internal (frame.page parent invalidPageId) : TreePage K V) .insert = false := by
  have hsize : (frame.page parent invalidPageId).size = f.internalMaxSize := by
    rw [← hfull]
    simp [InternalPage.size, Frame.page, Tree.refs]
  simp [BPlusTree.releases, BPlusTree.isSafe, TreePage.size, TreePage.maxSize, hsize]

theorem sized_fill {f : Fanout} {frame : Frame K (Tree K V n)} {t t₁ t₂ : Tree K V n} {k : K} {root : Bool}
    (h : (fill frame t []).Sized f root) (h₁ : t₁.Sized f false) (h₂ : t₂.Sized f false) :
    if frame.left.length + (frame.right.length + 1) = f.internalMaxSize then (fill frame t₁ [(k, t₂)]).Overfull f
    else (fill frame t₁ [(k, t₂)]).Sized f root := by
  obtain ⟨hmin, hmax, hcs⟩ := h
  have hlen : (frame.left ++ (frame.key, t) :: ([] ++ frame.right)).length =
      frame.left.length + (frame.right.length + 1) := by simp
  have hlen' : (frame.left ++ (frame.key, t₁) :: ([(k, t₂)] ++ frame.right)).length =
      frame.left.length + (frame.right.length + 1) + 1 := by
    simp only [List.length_append, List.length_cons, List.length_nil]
    omega
  change _ ≤ (frame.left ++ (frame.key, t) :: ([] ++ frame.right)).length at hmin
  change (frame.left ++ (frame.key, t) :: ([] ++ frame.right)).length ≤ _ at hmax
  rw [hlen] at hmin hmax
  have hchildren : ∀ c ∈ frame.left ++ (frame.key, t₁) :: ([(k, t₂)] ++ frame.right), c.2.Sized f false := by
    intro c hc
    rcases List.mem_append.mp hc with hc | hc
    · exact hcs c (List.mem_append_left _ hc)
    · rcases List.mem_cons.mp hc with rfl | hc
      · exact h₁
      · rcases List.mem_cons.mp hc with rfl | hc
        · exact h₂
        · exact hcs c (List.mem_append_right _ (List.mem_cons_of_mem _ hc))
  split
  · next hfull => exact ⟨hlen'.trans (congrArg (· + 1) hfull), hchildren⟩
  · next hroom =>
      refine ⟨?_, ?_, hchildren⟩
      · show _ ≤ (frame.left ++ (frame.key, t₁) :: ([(k, t₂)] ++ frame.right)).length
        omega
      · show (frame.left ++ (frame.key, t₁) :: ([(k, t₂)] ++ frame.right)).length ≤ _
        omega

end Path

theorem Tree.keyAt_upper {K V : Type} {n : Nat} (new parent : PageId) (t : Tree K V (n + 1)) :
    (⟨parent, new, refs (Node.children (t.upper new))⟩ : InternalPage K).keyAt 0 = t.middle := by
  show ((refs ((Node.children t).drop _))[0]?).map Prod.fst = ((Node.children t).drop _).head?.map Prod.fst
  rw [refs, List.getElem?_map, List.head?_eq_getElem?, Option.map_map]
  rfl

namespace Heap.Owns

variable {K V γ : Type} {h : Heap (PageData K V)} {S R : Multiset (PageId × PageData K V)} {E : Multiset PageId}
  {D : Set PageId} {l : List PageId} {M : Scope} {F : Regime K V} {X : Abort → Heap (PageData K V) → Prop}
  {i : Nat} {Q : γ → Heap (PageData K V) → Nat → Prop} {f : Fanout} {n N : Nat} {p q : PageId}

theorem setParentPageId {g : Unit → PageM (PageData K V) γ} {node : TreePage K V}
    (hs : Owns h ({(p, node.data)} + S) E D l M) (hp : p ∈ E) (hlim : F.limit (node.setParentPageId q).data)
    (hg : ∀ h, Owns h ({(p, (node.setParentPageId q).data)} + S) E (insert p D) l M → Meets F X (g ()) h i Q) :
    Meets F X (BPlusTree.setParentPageId p q >>= g) h i Q := by
  have hmem : (p, node.data) ∈ {(p, node.data)} + S := mem_front
  unfold BPlusTree.setParentPageId
  rw [bind_assoc]
  exact hs.getTreePage hmem hp (hs.setData hp (Regime.allows_parent hlim) hg)

/-- The out-of-memory exception of `StartNewTree`, `Split` and `InsertIntoParent`. -/
abbrev outOfMemory : Abort := .threw (.runtimeError "out of memory")

variable [LinearOrder K] [Inhabited K] (hlim : ∀ data : PageData K V, data.Roomy f → F.limit data)

include hlim

theorem growRoot {g : Unit → PageM (PageData K V) γ} {t₁ t₂ : Tree K V n} {k : K} {fuel : Nat}
    (hspan : SpansFrom (fun I (c : Tree K V n) => c.Bounded I) Set.univ t₁ [(k, t₂)])
    (hsz₁ : t₁.Sized f false) (hsz₂ : t₂.Sized f false) (hid : t₁.id < t₂.id)
    (hs : Owns h (t₁.pages f invalidPageId t₂.firstLeaf + (t₂.pages f invalidPageId invalidPageId + R)) E D l M)
    (hE₁ : t₁.id ∈ E) (hE₂ : t₂.id ∈ E) (hD₁ : t₁.id ∈ D) (hD₂ : t₂.id ∈ D)
    (hcov : F.guarded → M.members .rootPageId ∈ l ∧ M.locked) (hX : F i = true → X outOfMemory h)
    (hg : ∀ h (T : Tree K V (n + 1)), F i = false → T.Bounded Set.univ → T.Sized f true →
      T.contents = t₁.contents ++ t₂.contents →
      Owns h (T.pages f invalidPageId invalidPageId + R) E D l (M.setMember .rootPageId T.id) →
      Meets F X (g ()) h (i + 1) Q) :
    Meets F X (BPlusTree.insertIntoParent f (fuel + 1) t₁.id k t₂.id >>= g) h i Q := by
  have hroot : (t₁.page f invalidPageId t₂.firstLeaf).isRootPage = true := by
    rw [TreePage.isRootPage, t₁.parentPageId_page]
    rfl
  rw [BPlusTree.insertIntoParent, bind_assoc]
  refine hs.getTreePage (Multiset.mem_add.mpr (.inl t₁.mem_pages)) hE₁ ?_
  rw [if_pos hroot, bind_assoc]
  refine hs.newPage (fun hi => meets_throw (hX hi)) fun hi h new hlt hltE hnew hs => ?_
  have hpage : (InternalPage.init new invalidPageId : InternalPage K).populateNewRoot t₁.id k t₂.id =
      ⟨invalidPageId, new, Tree.refs [(default, t₁), (k, t₂)]⟩ := by
    rw [InternalPage.populateNewRoot, if_pos (Int.le_of_lt hid)]
    rfl
  have hpair : (.internal ⟨invalidPageId, new, Tree.refs [(default, t₁), (k, t₂)]⟩ : PageData K V).Roomy f := by
    have := f.three_le_internal
    show 2 ≤ f.internalMaxSize + 1
    omega
  simp only [bind_assoc]
  refine setRoot hs (fun hF => ⟨.inr (hcov hF).1, (hcov hF).2⟩) fun h hs => ?_
  rw [hpage]
  refine setData hs (by simp) (Regime.allows_created (Set.mem_insert _ _) (hlim _ hpair)) fun h hs => ?_
  refine setParentPageId (hs.cells ({(t₁.id, (t₁.page f invalidPageId t₂.firstLeaf).data)} + (t₁.below f t₂.firstLeaf +
    ({(new, .internal ⟨invalidPageId, new, Tree.refs [(default, t₁), (k, t₂)]⟩)} +
    (t₂.pages f invalidPageId invalidPageId + R)))) (by rw [t₁.pages_eq]; abel)) (by simp [hE₁])
    (by rw [Tree.setParentPageId_page]; exact hlim _ (hsz₁.roomy new t₂.firstLeaf)) fun h hs => ?_
  rw [Tree.setParentPageId_page] at hs
  refine setParentPageId (hs.cells ({(t₂.id, (t₂.page f invalidPageId invalidPageId).data)} + (t₂.below f invalidPageId +
    (t₁.pages f new t₂.firstLeaf + ({(new, .internal ⟨invalidPageId, new, Tree.refs [(default, t₁), (k, t₂)]⟩)} + R))))
    (by rw [t₂.pages_eq, t₁.pages_eq]; abel)) (by simp [hE₂])
    (by rw [Tree.setParentPageId_page]; exact hlim _ (hsz₂.roomy new invalidPageId)) fun h hs => ?_
  rw [Tree.setParentPageId_page] at hs
  refine unpinPage hs (fun hw => by cases hw) fun h hs => ?_
  refine hg h (.node new [(default, t₁), (k, t₂)]) hi hspan ⟨?_, ?_, ?_⟩ ?_ ?_
  · exact Nat.le_refl 2
  · exact Nat.le_of_succ_le f.three_le_internal
  · intro c hc
    rcases List.mem_pair.mp hc with rfl | rfl
    · exact hsz₁
    · exact hsz₂
  · show t₁.contents ++ (t₂.contents ++ []) = _
    rw [List.append_nil]
  · refine ((hs.cells _ ?_).of_eq rfl rfl ?_).forget ⟨rfl, Set.subset_insert _ _, subset_rfl, id, fun _ => id, rfl⟩
    · rw [Tree.pages_node, Tree.forest_cons, Tree.forest_cons, Tree.forest_nil, t₂.pages_eq]
      simp only [Tree.headLeaf]
      abel
    · rintro p ⟨hp, hne⟩
      rcases hp with rfl | rfl | rfl | hp
      · exact hD₂
      · exact hD₁
      · exact absurd rfl hne
      · exact hp

omit [LinearOrder K] [Inhabited K] in
theorem split {g : PageId → PageM (PageData K V) γ} {t : Tree K V n} {parent next : PageId} (hover : t.Overfull f)
    (hs : Owns h (t.pages f parent next + S) E D l M) (ht : t.id ∈ E) (hl : F.guarded → t.id ∈ l)
    (hX : F i = true → X outOfMemory h)
    (hg : F i = false → ∀ h new, t.id < new →
      Owns h (t.lower.pages f parent (t.upper new).firstLeaf + ((t.upper new).pages f parent next + S)) ({new} + E)
        (insert t.id (insert new D)) l (M.create new) → Meets F X (g new) h (i + 1) Q) :
    Meets F X (BPlusTree.split f t.id >>= g) h i Q := by
  unfold BPlusTree.split
  rw [bind_assoc]
  refine hs.newPage (fun hi => meets_throw (hX hi)) fun hi h new _ hltE _ hs => ?_
  dsimp only
  rw [bind_assoc]
  refine splitInto hlim hover (hs.cells (t.pages f parent next + ({(new, .zero)} + S)) (by abel)) (by simp [ht])
    (by simp) hl (Set.mem_insert _ _) fun h hs => ?_
  exact hg hi h new (hltE _ ht) hs

omit [LinearOrder K] in
theorem enterParent {g : Unit → PageM (PageData K V) γ} {frame : Frame K (Tree K V n)} {up : Path K V (n + 1) N}
    {t₁ t₂ : Tree K V n} {k : K} {fuel : Nat}
    (hs : Owns h ((Path.under frame up).pages f t₁.id t₁.firstLeaf + (t₁.pages f frame.id t₂.firstLeaf +
      (t₂.pages f frame.id (Tree.headLeaf up.next frame.right) + R))) E D l M) (ht : t₁.id ∈ E)
    (hl : F.guarded → frame.id ∈ l) (hroom : frame.left.length + (frame.right.length + 1) ≤ f.internalMaxSize)
    (hg : ∀ h, Owns h ((Path.fill frame t₁ [(k, t₂)]).pages f up.parent up.next +
        (up.pages f frame.id (Path.fill frame t₁ [(k, t₂)]).firstLeaf + R)) ({frame.id} + E) (insert frame.id D) l M →
      Meets F X (PageM.when (frame.left.length + (frame.right.length + 1) + 1 = f.internalMaxSize + 1) (do
          let new' ← BPlusTree.split f frame.id
          let page' ← PageM.getInternal new'
          let middleKey ← PageM.defined (page'.keyAt 0)
          BPlusTree.insertIntoParent f fuel frame.id middleKey new'
          PageM.unpinPage new' true) >>= fun _ => PageM.unpinPage frame.id true >>= g) h i Q) :
    Meets F X (BPlusTree.insertIntoParent f (fuel + 1) t₁.id k t₂.id >>= g) h i Q := by
  have hframe : (frame.id, .internal (frame.page up.parent t₁.id)) ∈ (Path.under frame up).pages f t₁.id t₁.firstLeaf := by
    simp [Path.pages]
  have hmem := Multiset.mem_add.mpr (Or.inl hframe (b := _ ∈ t₁.pages f frame.id t₂.firstLeaf +
    (t₂.pages f frame.id (Tree.headLeaf up.next frame.right) + R)))
  have hroot : (t₁.page f frame.id t₂.firstLeaf).isRootPage = false := by
    rw [TreePage.isRootPage, t₁.parentPageId_page]
    exact decide_eq_false (ne_invalidPageId (hs.live _ hmem).1)
  have hleft : ∀ c ∈ frame.left, c.2.id ≠ t₁.id := by
    intro c hc
    obtain ⟨data, hd⟩ := Tree.mem_forest f frame.id t₁.firstLeaf hc
    refine hs.holds.disjoint (c.2.id, data) ?_ (t₁.id, (t₁.page f frame.id t₂.firstLeaf).data)
      (Multiset.mem_add.mpr (.inl t₁.mem_pages))
    simp [Path.pages, hd]
  have hsize : (⟨up.parent, frame.id, Tree.refs (frame.left ++ (frame.key, t₁) :: ([(k, t₂)] ++ frame.right))⟩ :
      InternalPage K).size = frame.left.length + (frame.right.length + 1) + 1 := by
    simp only [InternalPage.size, Tree.refs, List.length_map, List.length_append, List.length_cons, List.length_nil]
    omega
  rw [BPlusTree.insertIntoParent, bind_assoc]
  refine hs.getTreePage (Multiset.mem_add.mpr (.inr (Multiset.mem_add.mpr (.inl t₁.mem_pages)))) ht ?_
  rw [hroot, if_neg Bool.false_ne_true, t₁.parentPageId_page]
  simp only [bind_assoc]
  refine hs.fetch hmem fun h hs => hs.getInternal hmem (by simp) ?_
  rw [Path.insertNodeAfter_page frame hleft, hsize]
  refine setData (hs.cells ({(frame.id, .internal (frame.page up.parent t₁.id))} +
    (Tree.forest f frame.id t₁.firstLeaf frame.left + Tree.forest f frame.id up.next frame.right +
    up.pages f frame.id (Tree.headLeaf t₁.firstLeaf frame.left) + (t₁.pages f frame.id t₂.firstLeaf +
    (t₂.pages f frame.id (Tree.headLeaf up.next frame.right) + R)))) ?_) (by simp)
    (Regime.allows_mem hl (hlim _ (hsize.trans_le (Nat.succ_le_succ hroom))))
    fun h hs => hg h (hs.cells _ ?_)
  · rw [Path.pages]
    abel
  · rw [Path.pages_fill, Path.firstLeaf_fill]
    abel

theorem insertIntoParent {g : Unit → PageM (PageData K V) γ} {path : Path K V n N} {t₀ t₁ t₂ : Tree K V n} {k : K}
    {fuel : Nat} (hb : (path.plug t₀).Bounded Set.univ) (hsz : (path.plug t₀).Sized f true)
    (hspan : SpansFrom (fun I (c : Tree K V n) => c.Bounded I) (path.window Set.univ) t₁ [(k, t₂)])
    (hsz₁ : t₁.Sized f false) (hsz₂ : t₂.Sized f false) (hid : t₁.id < t₂.id) (hid₀ : t₁.id = t₀.id)
    (hM : M.members .rootPageId = (path.plug t₀).id) (hcov : F.guarded → t₁.id ∈ l ∧ path.Reached f .insert l M.locked)
    (hs : Owns h (path.pages f t₁.id t₁.firstLeaf + (t₁.pages f path.parent t₂.firstLeaf +
      (t₂.pages f path.parent path.next + R))) E D l M)
    (hE₁ : t₁.id ∈ E) (hE₂ : t₂.id ∈ E) (hD₁ : t₁.id ∈ D) (hD₂ : t₂.id ∈ D) (hf : path.height < fuel)
    (hX : ∀ h, h.Pinned E → (∃ j, i ≤ j ∧ j < i + path.allocs f ∧ F j = true) → X outOfMemory h)
    (hg : ∀ h {N' : Nat} (T : Tree K V N'), T.Bounded Set.univ → T.Sized f true →
      T.contents = path.before ++ (t₁.contents ++ (t₂.contents ++ path.after)) →
      (∀ j, i ≤ j → j < i + path.allocs f → F j = false) →
      Owns h (T.pages f invalidPageId invalidPageId + R) E D l (M.setMember .rootPageId T.id) →
      Meets F X (g ()) h (i + path.allocs f) Q) :
    Meets F X (BPlusTree.insertIntoParent f fuel t₁.id k t₂.id >>= g) h i Q := by
  induction path generalizing h E D M i fuel k g with
  | top =>
      obtain ⟨fuel, rfl⟩ := Nat.exists_eq_add_one_of_ne_zero (Nat.ne_of_gt hf)
      have hroot : M.members .rootPageId = t₁.id := hM.trans hid₀.symm
      refine growRoot hlim hspan hsz₁ hsz₂ hid (hs.cells _ (zero_add _)) hE₁ hE₂ hD₁ hD₂
        (fun hF => ⟨hroot ▸ (hcov hF).1, (hcov hF).2⟩)
        (fun hi => hX h hs.pinned ⟨i, Nat.le_refl i, Nat.lt_succ_self i, hi⟩)
        fun h T hi hb hsz hT hs => hg h T hb hsz ?_ ?_ hs
      · rw [hT]
        simp [Path.before, Path.after]
      · intro j hij hji
        obtain rfl : j = i := Nat.le_antisymm (Nat.le_of_lt_succ hji) hij
        exact hi
  | under frame up ih =>
      obtain ⟨fuel, rfl⟩ := Nat.exists_eq_add_one_of_ne_zero (Nat.ne_of_gt (Nat.zero_lt_of_lt hf))
      obtain ⟨u, hu⟩ : ∃ u, u = Path.fill frame t₁ [(k, t₂)] := ⟨_, rfl⟩
      have hbu : u.Bounded (up.window Set.univ) :=
        hu ▸ (spans_focus [] (up.bounded_plug hb).1).2 t₁ [(k, t₂)] hspan
      have hsu := Path.sized_fill (k := k) (up.sized_plug hsz).1 hsz₁ hsz₂
      have hcontents : up.before ++ (u.contents ++ up.after) = (Path.under frame up).before ++
          (t₁.contents ++ (t₂.contents ++ (Path.under frame up).after)) := by
        rw [hu, Path.contents_fill, Path.before, Path.after]
        simp
      have hid' : u.id = frame.id := hu ▸ rfl
      have hroom : frame.left.length + (frame.right.length + 1) ≤ f.internalMaxSize := by
        have hmax := (up.sized_plug hsz).1.2.1
        change (frame.left ++ (frame.key, t₀) :: ([] ++ frame.right)).length ≤ _ at hmax
        rwa [List.length_append, List.length_cons, List.nil_append] at hmax
      refine enterParent hlim hs hE₁ (fun hF => (hcov hF).2.1) hroom fun h hs => ?_
      rw [← hu] at hs hsu
      refine meets_when (fun hc => ?_) fun hc => ?_
      · have hfull : frame.left.length + (frame.right.length + 1) = f.internalMaxSize :=
          Nat.succ_inj.mp (of_decide_eq_true hc)
        rw [if_pos hfull] at hsu
        have hallocs : (Path.under frame up).allocs f = up.allocs f + 1 := if_pos hfull
        simp only [bind_assoc]
        rw [← hid'] at hs ⊢
        have hmem : u.id ∈ {u.id} + E := mem_front
        refine split hlim hsu hs hmem (fun hF => hid' ▸ (hcov hF).2.1) (fun hi => hX h
          (hs.pinned.mono (Multiset.le_add_left E _)) ⟨i, Nat.le_refl i, by omega, hi⟩) fun hi h new hlt hs => ?_
        obtain ⟨k', hk', hfirst, hspan'⟩ := hsu.cut hbu new
        obtain ⟨hlow, hupp⟩ := hsu.sized new
        refine hs.getInternal (Multiset.mem_add.mpr (.inr (Multiset.mem_add.mpr (.inl (u.upper new).mem_pages))))
          (by simp) ?_
        refine meets_defined ((u.keyAt_upper new up.parent).trans hk') ?_
        refine ih (M := M.create new) hb hsz hspan' hlow hupp hlt (u.id_lower.trans hid') hM
          (fun hF => ⟨?_, ?_⟩) (hs.cells _ ?_)
          (Multiset.mem_add.mpr (.inr hmem)) mem_front
          (Set.mem_insert _ _) (Set.mem_insert_of_mem _ (Set.mem_insert _ _)) (Nat.lt_of_succ_lt_succ hf) ?_ ?_
        · rw [u.id_lower, hid']
          exact (hcov hF).2.1
        · exact (hcov hF).2.2 (Path.releases_insert frame up.parent hfull)
        · rw [hfirst, u.id_lower]
          abel
        · rintro h hheld ⟨j, hij, hji, hj⟩
          exact hX h (hheld.mono ((Multiset.le_add_left E _).trans (Multiset.le_add_left _ _))) ⟨j, by omega, by omega, hj⟩
        · intro h N' T hTb hTs hTc hF hs
          refine unpinPage hs (fun hw => by cases hw) fun h hs => unpinPage hs (fun hw => by cases hw) fun h hs => ?_
          rw [hallocs, Nat.add_comm (up.allocs f), ← Nat.add_assoc] at hg
          refine hg h T hTb hTs ?_ ?_ ((hs.of_eq rfl rfl ?_).forget
            ⟨rfl, Set.subset_insert _ _, subset_rfl, id, fun _ => id, rfl⟩)
          · rw [hTc, ← hcontents, ← u.contents_halves new, List.append_assoc]
          · intro j hij hji
            by_cases hj : j = i
            · exact hj ▸ hi
            · exact hF j (by omega) hji
          · rintro p ⟨⟨hp, hnew⟩, hframe⟩
            rcases hp with rfl | rfl | rfl | hp
            · exact absurd rfl hframe
            · exact absurd rfl hnew
            · exact absurd rfl hframe
            · exact hp
      · have hne : frame.left.length + (frame.right.length + 1) ≠ f.internalMaxSize := fun he =>
          of_decide_eq_false hc (congrArg (· + 1) he)
        rw [if_neg hne] at hsu
        have hallocs : (Path.under frame up).allocs f = 0 := if_neg hne
        refine unpinPage hs (fun hw => by cases hw) fun h hs => ?_
        rw [hallocs] at hg
        refine hg h (up.plug u) ((up.bounded_plug hb).2 u hbu) ((up.sized_plug hsz).2 u hsu) ?_ ?_ ?_
        · rw [up.contents_plug, hcontents]
        · intro j hij hji
          exact absurd hji (Nat.not_lt.mpr hij)
        · rw [up.id_plug (show u.id = (Path.fill frame t₀ []).id from hid'),
            Scope.setMember_eq (show (up.plug (Path.fill frame t₀ [])).id = M.members .rootPageId from hM.symm)]
          refine (hs.cells _ ?_).of_eq rfl rfl ?_
          · rw [up.pages_plug, hid']
            abel
          · rintro p ⟨hp, hne⟩
            exact hp.resolve_left hne

end Heap.Owns

end DBPlayground.Storage
