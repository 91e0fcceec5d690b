import DBPlayground.Storage.TreeInsert

namespace DBPlayground.Storage

open Footprint Separators

namespace LeafPage

variable {K V : Type} [LinearOrder K] {page : LeafPage K V} {x : K}

theorem lookup_isSome (hs : page.array.Pairwise (·.1 < ·.1)) : (page.lookup x).isSome = true ↔ ∃ v, (x, v) ∈ page.array := by
  rw [Option.isSome_iff_exists]
  exact exists_congr fun v => lookup_eq_some hs

theorem insert_split (v : V) (hs : page.array.Pairwise (·.1 < ·.1)) (hx : ∀ w, (x, w) ∉ page.array) :
    ∃ A B, page.array = A ++ B ∧ page.insert x v = { page with array := A ++ (x, v) :: B } ∧
      (A ++ (x, v) :: B).Pairwise (·.1 < ·.1) := by
  obtain ⟨A, B, hAB, hidx, hA, hB⟩ := keyIndex_split hs x
  refine ⟨A, B, hAB, ?_, ?_⟩
  · rw [insert, hidx, hAB, insertIdx_append_length]
  · rw [hAB] at hs hx
    obtain ⟨hsA, hsB, hcross⟩ := List.pairwise_append.mp hs
    have hlt : ∀ e ∈ B, x < e.1 := by
      intro e he
      refine lt_of_le_of_ne (hB e he) ?_
      rintro rfl
      exact hx e.2 (List.mem_append_right A he)
    refine List.pairwise_append.mpr ⟨hsA, List.pairwise_cons.mpr ⟨hlt, hsB⟩, fun a ha b hb => ?_⟩
    rcases List.mem_cons.mp hb with rfl | hb
    · exact hA a ha
    · exact hcross a ha b hb

end LeafPage

def Index.depth {K V : Type} : Index K V → Nat
  | none => 0
  | some t => t.1

namespace Heap.Owns

variable {K V γ : Type} {h : Heap (PageData K V)} {S R : Multiset (PageId × PageData K V)} {E : Multiset PageId}
  {D : Set PageId} {l : List PageId} {M : Scope} {F : Regime K V} {X : Abort → Heap (PageData K V) → Prop}
  {i : Nat} {Q : γ → Heap (PageData K V) → Nat → Prop} {f : Fanout} {N fuel : Nat} [LinearOrder K] [Inhabited K]
  {x : K} {v : V} (hlim : ∀ data : PageData K V, data.Roomy f → F.limit data)

include hlim

theorem splitFull {g : Unit → PageM (PageData K V) γ} {path : Path K V 0 N} {t u : Tree K V 0}
    (hb : (path.plug t).Bounded Set.univ) (hsz : (path.plug t).Sized f true) (hu : u.Bounded (path.window Set.univ))
    (hover : u.Overfull f) (hid : u.id = t.id) (hroot : M.members .rootPageId = (path.plug t).id)
    (hcov : F.guarded → t.id ∈ l ∧ path.Reached f .insert l M.locked)
    (hs : Owns h (path.pages f u.id u.firstLeaf + (u.pages f path.parent path.next + R)) E D l M)
    (ht : t.id ∈ E) (hD : t.id ∈ D) (hf : path.height < fuel)
    (hX : ∀ h, h.Pinned E → (∃ j, i ≤ j ∧ j < i + (path.allocs f + 1) ∧ F j = true) → X outOfMemory h)
    (hg : ∀ h i' {N' : Nat} (T : Tree K V N'), T.Bounded Set.univ → T.Sized f true →
      T.contents = path.before ++ (u.contents ++ path.after) →
      (∀ j, i ≤ j → j < i + (path.allocs f + 1) → F j = false) →
      Owns h (T.pages f invalidPageId invalidPageId + R) E D l (M.setMember .rootPageId T.id) → Meets F X (g ()) h i' Q) :
    Meets F X ((do
      let new ← BPlusTree.split f t.id
      let leaf' ← PageM.getLeaf new
      let middleKey ← PageM.defined (leaf'.keyAt 0)
      BPlusTree.insertIntoParent f fuel t.id middleKey new
      PageM.unpinPage new true) >>= g) h i Q := by
  simp only [bind_assoc]
  rw [← hid] at ht hD ⊢
  refine split hlim hover (hs.cells (u.pages f path.parent path.next + (path.pages f u.id u.firstLeaf + R)) (by abel)) ht
    (fun hF => hid ▸ (hcov hF).1) (fun hi => hX h hs.pinned ⟨i, Nat.le_refl i, by omega, hi⟩) fun hi h new hlt hs => ?_
  obtain ⟨k, hk, hfirst, hspan⟩ := hover.cut hu new
  obtain ⟨hlow, hupp⟩ := hover.sized new
  refine hs.getLeaf (Multiset.mem_add.mpr (.inr (Multiset.mem_add.mpr (.inl (u.upper new).mem_pages)))) (by simp) ?_
  refine meets_defined (Eq.trans ?_ hk) ?_
  · show (((Leaf.entries u).drop (Tree.half (Leaf.entries u).length))[0]?).map Prod.fst = _
    rw [← List.head?_eq_getElem?]
    rfl
  refine insertIntoParent hlim (M := M.create new) (R := R) hb hsz hspan hlow hupp hlt (u.id_lower.trans hid) hroot
    (fun hF => ⟨?_, (hcov hF).2⟩) (hs.cells _ ?_) (Multiset.mem_add.mpr (.inr ht))
    mem_front (Set.mem_insert _ _)
    (Set.mem_insert_of_mem _ (Set.mem_insert _ _)) hf ?_ ?_
  · rw [u.id_lower, hid]
    exact (hcov hF).1
  · rw [hfirst, u.id_lower]
    abel
  · rintro h hpins ⟨j, hij, hji, hj⟩
    exact hX h (hpins.mono (Multiset.le_add_left E _)) ⟨j, by omega, by omega, hj⟩
  · intro h N' T hTb hTs hTc hF hs
    refine unpinPage hs nofun fun h hs => hg h _ T hTb hTs ?_ ?_ ?_
    · rw [hTc, ← u.contents_halves new, List.append_assoc]
    · intro j hij hji
      by_cases hj : j = i
      · exact hj ▸ hi
      · exact hF j (by omega) (by omega)
    · refine (hs.of_eq rfl rfl ?_).forget ⟨rfl, Set.subset_insert _ _, subset_rfl, id, fun _ => id, rfl⟩
      rintro p ⟨hp, hne⟩
      rcases hp with rfl | rfl | hp
      · exact hD
      · exact absurd rfl hne
      · exact hp

theorem enterLeaf {g : Unit → PageM (PageData K V) γ} {path : Path K V 0 N} {t : Tree K V 0}
    (hb : (path.plug t).Bounded Set.univ) (hsz : (path.plug t).Sized f true) (hx : x ∈ path.window Set.univ)
    (habs : ∀ w, (x, w) ∉ t.contents) (hroot : M.members .rootPageId = (path.plug t).id)
    (hcov : F.guarded → t.id ∈ l ∧ ((Leaf.entries t).length = f.leafMaxSize - 1 → path.Reached f .insert l M.locked))
    (hs : Owns h ((path.plug t).pages f invalidPageId invalidPageId + R) E ∅ l M) (ht : t.id ∈ E) (hf : path.height < fuel)
    (hX : ∀ h, h.Pinned E → (Leaf.entries t).length = f.leafMaxSize - 1 →
      (∃ j, i ≤ j ∧ j < i + (path.allocs f + 1) ∧ F j = true) → X outOfMemory h)
    (hg : ∀ h i' {N' : Nat} (T : Tree K V N'), T.Bounded Set.univ → T.Sized f true →
      (∀ e, e ∈ T.contents ↔ e = (x, v) ∨ e ∈ (path.plug t).contents) →
      ((Leaf.entries t).length = f.leafMaxSize - 1 → ∀ j, i ≤ j → j < i + (path.allocs f + 1) → F j = false) →
      Owns h (T.pages f invalidPageId invalidPageId + R) E {t.id} l (M.setMember .rootPageId T.id) →
      Meets F X (g ()) h i' Q) {leaf : LeafPage K V}
    (hleaf : leaf = ⟨f.leafMaxSize, path.parent, t.id, path.next, Leaf.entries t⟩) :
    Meets F X (PageM.setData t.id (.leaf (leaf.insert x v)) >>= fun _ =>
      PageM.when ((leaf.insert x v).size = f.leafMaxSize - 1 + 1) (do
        let new ← BPlusTree.split f t.id
        let leaf' ← PageM.getLeaf new
        let middleKey ← PageM.defined (leaf'.keyAt 0)
        BPlusTree.insertIntoParent f fuel t.id middleKey new
        PageM.unpinPage new true) >>= g) h i Q := by
  have h2 := f.two_le_leaf
  obtain ⟨hsorted, hmem⟩ := (path.bounded_plug hb).1
  change (Leaf.entries t).Pairwise (·.1 < ·.1) at hsorted
  change ∀ e ∈ Leaf.entries t, e.1 ∈ path.window Set.univ at hmem
  obtain ⟨A, B, hAB, hins, hsorted'⟩ := @LeafPage.insert_split K V _ leaf x v (by rwa [hleaf]) (by rwa [hleaf])
  replace hAB : Leaf.entries t = A ++ B := by rw [← hAB, hleaf]
  let u : Tree K V 0 := .leaf t.id (A ++ (x, v) :: B)
  have hdata : leaf.insert x v = ⟨f.leafMaxSize, path.parent, t.id, path.next, A ++ (x, v) :: B⟩ := by
    rw [hins, hleaf]
  have hlen : (A ++ (x, v) :: B).length = (Leaf.entries t).length + 1 := by
    rw [hAB]
    simp only [List.length_append, List.length_cons]
    omega
  have hub : u.Bounded (path.window Set.univ) := by
    refine ⟨hsorted', fun e he => ?_⟩
    rcases List.mem_append.mp he with he | he
    · exact hmem e (hAB ▸ List.mem_append_left B he)
    · rcases List.mem_cons.mp he with rfl | he
      · exact hx
      · exact hmem e (hAB ▸ List.mem_append_right A he)
  have hcontents : ∀ e, e ∈ path.before ++ (u.contents ++ path.after) ↔ e = (x, v) ∨ e ∈ (path.plug t).contents := by
    intro e
    have hu : u.contents = A ++ (x, v) :: B := rfl
    have ht : t.contents = A ++ B := hAB
    rw [path.contents_plug, hu, ht]
    simp only [List.mem_append, List.mem_cons]
    tauto
  have hroomy : (.leaf (leaf.insert x v) : PageData K V).Roomy f := by
    have := (path.sized_plug hsz).1.2
    rw [hdata]
    show (A ++ (x, v) :: B).length ≤ _
    omega
  rw [path.pages_plug] at hs
  refine setData (hs.cells ({(t.id, (t.page f path.parent path.next).data)} + (path.pages f t.id t.firstLeaf + R)) ?_) ht
    (Regime.allows_mem (fun hF => (hcov hF).1) (hlim _ hroomy)) fun h hs => ?_
  · show path.pages f t.id t.firstLeaf + {(t.id, (t.page f path.parent path.next).data)} + R = _
    abel
  rw [hdata] at hs
  replace hs : Owns h (path.pages f u.id u.firstLeaf + (u.pages f path.parent path.next + R)) E {t.id} l M := by
    refine (hs.cells _ ?_).of_eq rfl rfl ?_
    · show {(t.id, (u.page f path.parent path.next).data)} + (path.pages f t.id t.id + R) =
        path.pages f t.id t.id + ({(t.id, (u.page f path.parent path.next).data)} + R)
      abel
    · rw [insert_empty_eq]
  have hsize : (leaf.insert x v).size = (Leaf.entries t).length + 1 := by
    rw [hdata]
    exact hlen
  rw [hsize]
  refine meets_when (fun hc => ?_) fun hc => ?_
  · have hfull : (Leaf.entries t).length = f.leafMaxSize - 1 := Nat.succ_inj.mp (of_decide_eq_true hc)
    have hover : u.Overfull f := by
      show (A ++ (x, v) :: B).length = f.leafMaxSize
      omega
    refine splitFull hlim hb hsz hub hover rfl hroot (fun hF => ⟨(hcov hF).1, (hcov hF).2 hfull⟩) hs ht
      (Set.mem_singleton _) hf (fun h hp hj => hX h hp hfull hj) fun h i' N' T hTb hTs hTc hF hs => ?_
    exact hg h i' T hTb hTs (fun e => by rw [hTc]; exact hcontents e) (fun _ => hF) hs
  · have hroom : (Leaf.entries t).length ≠ f.leafMaxSize - 1 := fun he => of_decide_eq_false hc (congrArg (· + 1) he)
    obtain ⟨⟨hmin, hmax⟩, hplug⟩ := path.sized_plug hsz
    have hus : u.Sized f path.isTop := by
      refine ⟨fun hr => ?_, ?_⟩
      · show _ ≤ (A ++ (x, v) :: B).length
        have := hmin hr
        omega
      · show (A ++ (x, v) :: B).length ≤ _
        omega
    refine hg h i (path.plug u) ((path.bounded_plug hb).2 u hub) (hplug u hus) (fun e => ?_) (fun he => absurd he hroom) ?_
    · rw [path.contents_plug]
      exact hcontents e
    · rw [Scope.setMember_eq ((path.id_plug (show u.id = t.id from rfl)).trans hroot.symm), path.pages_plug]
      exact hs.cells _ (by abel)

/-- `Insert` into a tree adds the pair if the key is new. If a page that it needs
cannot be had, it throws with the leaf still pinned. -/
theorem insertSome {T : Tree K V N} (hb : T.Bounded Set.univ) (hsz : T.Sized f true)
    (hs : Owns h (T.pages f invalidPageId invalidPageId + R) E ∅ l M) (hl : ∀ p ∈ l, h.dead p = false)
    (hM : M.latched = ∅) (hfree : M.freed = none)
    (hroot : M.members .rootPageId = T.id) (hf : N < fuel) {Q : Bool → Heap (PageData K V) → Nat → Prop}
    (hX : ∀ h (path : Path K V 0 N) (t : Tree K V 0), path.plug t = T → x ∈ path.window Set.univ →
      (∀ w, (x, w) ∉ T.contents) → (Leaf.entries t).length = f.leafMaxSize - 1 →
      (∃ j, i ≤ j ∧ j < i + (path.allocs f + 1) ∧ F j = true) → h.dead t.id = false → E.count t.id < h.pins t.id →
      X outOfMemory h)
    (hQ : ∀ h i' r {N' : Nat} (T' : Tree K V N') (path : Path K V 0 N) (t : Tree K V 0), path.plug t = T →
      x ∈ path.window Set.univ → T'.Bounded Set.univ → T'.Sized f true → (r = true ↔ ∀ w, (x, w) ∉ T.contents) →
      (∀ e, e ∈ T'.contents ↔ r = true ∧ e = (x, v) ∨ e ∈ T.contents) →
      (r = true → (Leaf.entries t).length = f.leafMaxSize - 1 →
        ∀ j, i ≤ j → j < i + (path.allocs f + 1) → F j = false) →
      Owns h (T'.pages f invalidPageId invalidPageId + R) E ∅ [] ((M.setMember .rootPageId T'.id).lock False) → Q r h i') :
    Meets F X (BPlusTree.insert f fuel x v) h i Q := by
  have hne : T.id ≠ invalidPageId := ne_invalidPageId (hs.live _ (Path.top.mem_pages f T R)).1
  unfold BPlusTree.insert
  refine hs.lockRoot fun h hs hd => hs.getMember ?_
  change Meets F X (if M.members .rootPageId = invalidPageId then _ else _) h i Q
  rw [hroot, if_neg hne]
  refine hs.newTransaction (fun p hp => hd p (hl p hp)) fun h hs =>
    hs.findLeafPageRW hb hM rfl hroot hf fun h path t hT hx hs => ?_
  subst hT
  obtain ⟨l', hl'⟩ : ∃ l', l' = path.latched f .insert
    (BPlusTree.releases f (t.page f path.parent path.next) .insert) ++ [t.id] := ⟨_, rfl⟩
  rw [← hl'] at hs
  have htl : t.id ∈ l' := by
    rw [hl']
    exact List.mem_append_right _ (List.mem_singleton_self _)
  have ht : t.id ∈ (l' : Multiset PageId) + E := Multiset.mem_add.mpr (.inl (Multiset.mem_coe.mpr htl))
  obtain ⟨p, hp⟩ : ∃ p, l'[0]? = some p := by
    cases l' with
    | nil => cases htl
    | cons p rest => exact ⟨p, rfl⟩
  have hpE : p ∈ (l' : Multiset PageId) + E :=
    Multiset.mem_add.mpr (.inl (Multiset.mem_coe.mpr (List.mem_of_getElem? hp)))
  have hpin : E.count t.id < ((l' : Multiset PageId) + E).count t.id := by
    rw [Multiset.count_add, Multiset.coe_count]
    have := List.count_pos_iff.mpr htl
    omega
  have hsorted := (path.bounded_plug hb).1.1
  have habs : ∀ w, (x, w) ∈ (path.plug t).contents ↔ (x, w) ∈ t.contents := fun w => path.mem_contents hb hx
  have hleaf := path.mem_pages f t R
  refine hs.releaseRoot hp hpE fun h b hs => hs.getLeaf hleaf ht ?_
  split
  · next hsome =>
      obtain ⟨w, hw⟩ := (LeafPage.lookup_isSome (by exact hsorted)).mp hsome
      refine hs.unlatchAndUnpin hM nofun fun h hs => hs.leaveRoot fun h hs => meets_pure ?_
      refine hQ h i false (path.plug t) path t rfl hx hb hsz ⟨nofun, fun hno => absurd ((habs w).mpr hw) (hno w)⟩
        (fun e => ⟨.inr, fun he => he.resolve_left nofun⟩) nofun ?_
      rw [Scope.setMember_eq hroot.symm]
      exact (hs.of_eq rfl rfl (Set.empty_sdiff _).subset).forget ⟨rfl, subset_rfl, subset_rfl, id, Scope.unknown hfree, rfl⟩
  · next hnone =>
      have hno : ∀ w, (x, w) ∉ t.contents := fun w hw =>
        hnone ((LeafPage.lookup_isSome (by exact hsorted)).mpr ⟨w, hw⟩)
      have hno' : ∀ w, (x, w) ∉ (path.plug t).contents := fun w hw => hno w ((habs w).mp hw)
      have hheight : path.height < fuel := by
        have := path.add_height
        omega
      refine enterLeaf hlim (M := (M.lock True).begin.lock (True ∧ p = M.members .rootPageId)) (R := R) hb hsz hx hno hroot
        (fun hF => ⟨htl, fun hfull => ?_⟩) hs ht hheight ?_ ?_ rfl
      · have hrel : BPlusTree.releases f (t.page f path.parent path.next) .insert = false := by
          have h2 := f.two_le_leaf
          show decide (_ ∨ decide ((Leaf.entries t).length < f.leafMaxSize - 1) = true) = false
          simp [hfull]
        rw [hrel] at hl'
        refine (path.reached_latched t [] hl').imp fun hfront => ⟨trivial, ?_⟩
        exact (Option.some.inj (hp.symm.trans hfront)).trans hroot.symm
      · intro h hpins hfull hj
        exact hX h path t rfl hx hno' hfull hj (hpins t.id ht).1 (Nat.lt_of_lt_of_le hpin (hpins t.id ht).2)
      · intro h i' N' T' hTb hTs hTc hF hs
        refine hs.unlatchAndUnpin hM nofun fun h hs => hs.leaveRoot fun h hs => meets_pure ?_
        refine hQ h i' true T' path t rfl hx hTb hTs ⟨fun _ => hno', fun _ => rfl⟩ (fun e => ?_) (fun _ => hF) ?_
        · rw [hTc]
          simp
        · refine (hs.of_eq rfl rfl ?_).forget ⟨rfl, subset_rfl, subset_rfl, id, Scope.unknown hfree, rfl⟩
          rintro q ⟨rfl, hq⟩
          exact hq htl

theorem insertNone (hs : Owns h R E ∅ l M) (hroot : M.members .rootPageId = invalidPageId)
    {Q : Bool → Heap (PageData K V) → Nat → Prop}
    (hX : F i = true → ∀ h, Owns h R E ∅ l M → X outOfMemory h)
    (hQ : ∀ h (T : Tree K V 0), F i = false → T.Bounded Set.univ → T.Sized f true → T.contents = [(x, v)] →
      Owns h (T.pages f invalidPageId invalidPageId + R) E ∅ l ((M.setMember .rootPageId T.id).lock False) →
      Q true h (i + 1)) :
    Meets F X (BPlusTree.insert f fuel x v) h i Q := by
  have h2 := f.two_le_leaf
  unfold BPlusTree.insert
  refine hs.lockRoot fun h hs _ => hs.getMember ?_
  change Meets F X (if M.members .rootPageId = invalidPageId then _ else _) h i Q
  rw [if_pos hroot]
  unfold BPlusTree.startNewTree
  rw [bind_assoc]
  refine hs.newPage (fun hi => ?_) fun hi h new _ _ _ hs => ?_
  · refine meets_throw (hX hi h (hs.forget ⟨rfl, subset_rfl, subset_rfl, fun _ => trivial, fun _ => id, rfl⟩))
  · simp only [bind_assoc]
    refine setRoot hs (fun _ => ⟨.inl hroot, trivial⟩) fun h hs => ?_
    refine setData hs (by simp) (Regime.allows_created (Set.mem_insert _ _) (hlim _ (Nat.le_of_succ_le h2))) fun h hs => ?_
    refine unpinPage hs nofun fun h hs => hs.unlockRoot fun h hs => meets_pure ?_
    refine hQ h (.leaf new [(x, v)]) hi ⟨List.pairwise_singleton _ _, fun _ _ => Set.mem_univ _⟩ ⟨nofun, ?_⟩ rfl ?_
    · show 1 ≤ f.leafMaxSize - 1
      omega
    · refine (hs.of_eq rfl rfl ?_).forget ⟨rfl, Set.subset_insert _ _, subset_rfl, id, fun _ => id, rfl⟩
      rintro q ⟨rfl | hq, hne⟩
      · exact absurd rfl hne
      · exact hq

protected theorem insert {ix : Index K V} (hF : ∀ j, F j = false) (hw : ix.WellFormed f)
    (hs : Owns h (ix.pages f + R) E ∅ l M)
    (hl : ∀ p ∈ l, h.dead p = false) (hM : M.latched = ∅) (hfree : M.freed = none)
    (hroot : M.members .rootPageId = ix.rootPageId) (hf : ix.depth < fuel) :
    Meets F X (BPlusTree.insert f fuel x v) h i fun r h' _ =>
      ∃ (ix' : Index K V) (l' : List PageId), (l' = l ∨ l' = []) ∧ ix'.WellFormed f ∧
      (r = true ↔ ∀ w, (x, w) ∉ ix.contents) ∧ (∀ e, e ∈ ix'.contents ↔ r = true ∧ e = (x, v) ∨ e ∈ ix.contents) ∧
      Owns h' (ix'.pages f + R) E ∅ l' ((M.setMember .rootPageId ix'.rootPageId).lock False) := by
  cases ix with
  | none =>
      refine insertNone hlim (hs.cells _ (zero_add R)) hroot (fun hi => absurd hi (by rw [hF]; nofun))
        fun h' T _ hb hsz hT hs' => ⟨some ⟨0, T⟩, l, .inl rfl, ⟨hb, hsz⟩, ⟨fun _ => nofun, fun _ => rfl⟩, fun e => ?_, hs'⟩
      show e ∈ T.contents ↔ _
      simp [hT, Index.contents]
  | some t =>
      refine insertSome hlim hw.1 hw.2 hs hl hM hfree hroot hf ?_ ?_
      · rintro _ _ _ _ _ _ _ ⟨j, _, _, hj⟩ _
        exact absurd hj (by rw [hF]; nofun)
      · intro h' _ r N' T' _ _ _ _ hb hsz hr hc _ hs'
        exact ⟨some ⟨N', T'⟩, [], .inr rfl, ⟨hb, hsz⟩, hr, hc, hs'⟩

end Heap.Owns

end DBPlayground.Storage
