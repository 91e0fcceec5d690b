import DBPlayground.Storage.InsertCall
import DBPlayground.Storage.TreeCascade

namespace DBPlayground.Storage

open Footprint Separators

namespace LeafPage

variable {K V : Type} [LinearOrder K] {page : LeafPage K V} {x : K}

theorem removeAndDeleteRecord_eq (hs : page.array.Pairwise (·.1 < ·.1)) :
    page.removeAndDeleteRecord x = { page with array := page.array.filter fun e => e.1 ≠ x } := by
  obtain ⟨A, B, hAB, hidx, hA, hB⟩ := keyIndex_split hs x
  have hkeep : A.filter (fun e => decide (e.1 ≠ x)) = A :=
    List.filter_eq_self.mpr fun e he => decide_eq_true (ne_of_lt (hA e he))
  unfold removeAndDeleteRecord
  split
  · next hsome =>
      obtain ⟨v, hv⟩ := (lookup_isSome hs).mp hsome
      rw [hAB] at hv hs
      have hv : (x, v) ∈ B := (List.mem_append.mp hv).resolve_left fun hm => lt_irrefl x (hA _ hm)
      cases B with
      | nil => cases hv
      | cons e rest =>
          have hrest := (List.pairwise_cons.mp (List.pairwise_append.mp hs).2.1).1
          have he : e.1 = x := by
            rcases List.mem_cons.mp hv with rfl | hv
            · rfl
            · exact absurd (hB e List.mem_cons_self) (not_le_of_gt (hrest _ hv))
          have hkeep' : rest.filter (fun e => decide (e.1 ≠ x)) = rest :=
            List.filter_eq_self.mpr fun d hd => decide_eq_true (ne_of_gt (he ▸ hrest d hd))
          rw [hAB, hidx, eraseIdx_append_length, List.filter_append, hkeep,
            List.filter_cons_of_neg (by simp [he]), hkeep']
  · next hnone =>
      have hno : ∀ e ∈ page.array, e.1 ≠ x := by
        rintro ⟨_, v⟩ he rfl
        exact hnone ((lookup_isSome hs).mpr ⟨v, he⟩)
      rw [List.filter_eq_self.mpr fun e he => decide_eq_true (hno e he)]

end LeafPage

section without

variable {K V : Type} [LinearOrder K] {x : K}

theorem length_filter_ne {es : List (K × V)} (hs : es.Pairwise (·.1 < ·.1)) :
    es.length ≤ (es.filter fun e => e.1 ≠ x).length + 1 := by
  induction es with
  | nil => exact Nat.zero_le _
  | cons e es ih =>
      obtain ⟨he, hs⟩ := List.pairwise_cons.mp hs
      by_cases hx : e.1 = x
      · have hkeep : es.filter (fun e => decide (e.1 ≠ x)) = es :=
          List.filter_eq_self.mpr fun d hd => decide_eq_true (ne_of_gt (hx ▸ he d hd))
        rw [List.filter_cons_of_neg (by simp [hx]), hkeep]
        exact Nat.le_refl _
      · rw [List.filter_cons_of_pos (by simp [hx])]
        exact Nat.succ_le_succ (ih hs)

def Tree.without (x : K) (t : Tree K V 0) : Tree K V 0 := .leaf t.id ((Leaf.entries t).filter fun e => e.1 ≠ x)

variable {N : Nat} {path : Path K V 0 N} {t : Tree K V 0} {f : Fanout} {I : Set K}

/-- The borrow that the removal of a key from the leaf in the hole ends with. -/
def Path.removalBorrow (f : Fanout) (path : Path K V 0 N) (t : Tree K V 0) (x : K) : Option Borrow :=
  if (t.without x).size < f.leafMaxSize / 2 then path.borrows f (t.without x).size else none

/-- The removal of a key from the leaf in the hole deletes an inner page on the path. -/
def Path.removalSheds (f : Fanout) (path : Path K V 0 N) (t : Tree K V 0) (x : K) : Bool :=
  decide ((t.without x).size < f.leafMaxSize / 2) && path.sheds f (t.without x).size

/-- How many latches the removal of a key from the leaf in the hole takes once it has deleted
a page. -/
def Path.removalWaits (f : Fanout) (path : Path K V 0 N) (t : Tree K V 0) (x : K) : Nat :=
  if (t.without x).size < f.leafMaxSize / 2 then path.waits f (t.without x).size false else 0

theorem Path.bounded_without (hb : (path.plug t).Bounded I) : (path.plug (t.without x)).Bounded I := by
  obtain ⟨⟨hsorted, hmem⟩, hplug⟩ := path.bounded_plug hb
  exact hplug _ ⟨hsorted.sublist List.filter_sublist, fun e he => hmem e (List.mem_of_mem_filter he)⟩

theorem Path.contents_without (hb : (path.plug t).Bounded I) (hx : x ∈ path.window I) :
    (path.plug (t.without x)).contents = (path.plug t).contents.filter fun e => e.1 ≠ x := by
  obtain ⟨hbefore, hafter⟩ := path.sides hb hx
  have hkeep₁ : path.before.filter (fun e => decide (e.1 ≠ x)) = path.before :=
    List.filter_eq_self.mpr fun e he => decide_eq_true (ne_of_lt (hbefore e he))
  have hkeep₂ : path.after.filter (fun e => decide (e.1 ≠ x)) = path.after :=
    List.filter_eq_self.mpr fun e he => decide_eq_true (ne_of_gt (hafter e he))
  rw [path.contents_plug, path.contents_plug, List.filter_append, List.filter_append, hkeep₁, hkeep₂]
  rfl

theorem Path.sized_without (hb : (path.plug t).Bounded I) (hsz : (path.plug t).Sized f true) :
    if (t.without x).size < f.leafMaxSize / 2 then (t.without x).Weak f path.isTop
    else (path.plug (t.without x)).Sized f true := by
  obtain ⟨⟨hmin, hmax⟩, hplug⟩ := path.sized_plug hsz
  have hle : (t.without x).size ≤ f.leafMaxSize - 1 := (List.length_filter_le _ _).trans hmax
  have hlow : (Leaf.entries t).length ≤ (t.without x).size + 1 := length_filter_ne (path.bounded_plug hb).1.1
  split
  · next hsmall =>
      cases htop : path.isTop with
      | true => exact hle
      | false => exact ⟨Nat.le_antisymm hsmall ((hmin htop).trans hlow), trivial⟩
  · next hlarge => exact hplug _ ⟨fun _ => Nat.not_lt.mp hlarge, hle⟩

end without

namespace BPlusTree

open PageM

variable {K V : Type} [LinearOrder K] [Inhabited K] (f : Fanout)

/-- `Remove` up to the last `UnlatchAndUnpin`. -/
def removeEntry (fuel : Nat) (key : K) : PageM (PageData K V) Bool := do
  newTransaction
  lockRoot
  let p ← findLeafPageRW f fuel key false .remove
  let released ← releaseRoot
  let leaf ← getLeaf p
  let leaf := leaf.removeAndDeleteRecord key
  setData p (.leaf leaf)
  PageM.when (leaf.size < f.leafMaxSize / 2) do
    let deleteLeaf ← coalesceOrRedistribute f fuel p
    PageM.when deleteLeaf (deletePage leaf.pageId)
  pure released

theorem remove_eq (fuel : Nat) (key : K) : (remove f fuel key : PageM (PageData K V) Unit) =
    getMember .rootPageId >>= fun root => if root = invalidPageId then throwRuntime "Empty tree"
      else removeEntry f fuel key >>= fun released => unlatchAndUnpin .remove >>= fun _ => leaveRoot released := by
  unfold remove removeEntry
  simp only [bind_assoc, pure_bind]

end BPlusTree

namespace Path

variable {K V : Type} [LinearOrder K] {N : Nat} {f : Fanout} {x : K} {I : Set K}

theorem latched_remove {path : Path K V 0 N} {t : Tree K V 0} (hb : (path.plug t).Bounded I)
    (hsmall : (t.without x).size < f.leafMaxSize / 2) (hparent : path.isTop = false → path.parent ≠ invalidPageId) :
    path.latched f .remove (BPlusTree.releases f (t.page f path.parent path.next) .remove) =
      path.latched f .remove false := by
  have hlow : (Leaf.entries t).length ≤ (t.without x).size + 1 := length_filter_ne (path.bounded_plug hb).1.1
  cases path with
  | top => rfl
  | under frame up =>
      have hpage : ¬ (t.page f frame.id (Path.under frame up).next).isRootPage = true := by
        intro hc
        rw [TreePage.isRootPage, t.parentPageId_page] at hc
        exact hparent rfl (of_decide_eq_true hc)
      have hsafe : ¬ f.leafMaxSize / 2 < (Leaf.entries t).length := by omega
      have hrel : BPlusTree.releases f (t.page f frame.id (Path.under frame up).next) .remove = false := by
        rw [BPlusTree.releases, BPlusTree.isSafe.eq_def]
        dsimp only
        rw [if_neg hpage, t.minSize_page, t.size_page, decide_eq_false (show ¬ Tree.minSize f 0 < t.size from hsafe)]
        rfl
      show Path.latched f .remove _ (BPlusTree.releases f (t.page f frame.id (Path.under frame up).next) .remove) = _
      rw [hrel]

end Path

namespace Heap.Owns

variable {K V : Type} {h : Heap (PageData K V)} {S R : Multiset (PageId × PageData K V)}
  {l : List PageId} {M : Scope} {F : Regime K V} {X : Abort → Heap (PageData K V) → Prop}
  {i : Nat} {f : Fanout} {N fuel : Nat} [LinearOrder K] [Inhabited K]
  {x : K} (hlim : ∀ data : PageData K V, data.Fits f → F.limit data)

include hlim

theorem removeEntry {T : Tree K V N} (hb : T.Bounded Set.univ) (hsz : T.Sized f true)
    (hs : Owns h (T.pages f invalidPageId invalidPageId + R) 0 ∅ l M) (hl : ∀ p ∈ l, h.dead p = false) (hM : M.latched = ∅)
    (hroot : M.members .rootPageId = T.id) (hf : N < fuel) (hz : F.spotless → ∀ (path : Path K V 0 N) (t : Tree K V 0),
      path.plug t = T → x ∈ path.window Set.univ → path.removalSheds f t x = false) :
    Meets F X (BPlusTree.removeEntry f fuel x) h i fun _ h' i' => i' = i ∧
      ∃ (path : Path K V 0 N) (t : Tree K V 0) (l' : List PageId) (locked : Prop), path.plug t = T ∧
        x ∈ path.window Set.univ ∧ (∀ b, path.removalBorrow f t x = some b → b.parent ∈ l') ∧
        Settled f (path.plug (t.without x)) R ↑l' 0 (path.removalBorrow f t x) l'
          ((M.lock locked).spend (path.removalWaits f t x)) h' := by
  unfold BPlusTree.removeEntry
  refine hs.newTransaction hl fun h hs => hs.lockRoot fun h hs _ =>
    hs.findLeafPageRW hb hM rfl hroot hf fun h path t hT hx hs => ?_
  subst hT
  obtain ⟨l', hl'⟩ : ∃ l', l' = path.latched f .remove
    (BPlusTree.releases f (t.page f path.parent path.next) .remove) := ⟨_, rfl⟩
  rw [← hl', add_zero] at hs
  obtain ⟨p, hp⟩ : ∃ p, (l' ++ [t.id])[0]? = some p := by
    cases l' with
    | nil => exact ⟨_, rfl⟩
    | cons p rest => exact ⟨p, rfl⟩
  have htl : t.id ∈ l' ++ [t.id] := List.mem_append_right _ (List.mem_singleton_self _)
  have hpins : ({t.id} + ↑l' : Multiset PageId) = ↑(l' ++ [t.id]) := by
    rw [← Multiset.coe_add, Multiset.coe_singleton, add_comm]
  have hsorted := (path.bounded_plug hb).1.1
  have hleaf := path.mem_pages f t R
  have hfits : (t.without x).size ≤ f.leafMaxSize - 1 :=
    (List.length_filter_le _ _).trans (path.sized_plug hsz).1.2
  refine hs.releaseRoot hp (Multiset.mem_coe.mpr (List.mem_of_getElem? hp)) fun h b hs =>
    hs.getLeaf hleaf (Multiset.mem_coe.mpr htl) ?_
  rw [LeafPage.removeAndDeleteRecord_eq hsorted]
  rw [path.pages_plug] at hs
  refine setData (hs.cells ({(t.id, (t.page f path.parent path.next).data)} + (path.pages f t.id t.firstLeaf + R)) ?_)
    (Multiset.mem_coe.mpr htl) (Regime.allows_mem (fun _ => htl) (hlim _ hfits)) fun h hs => ?_
  · show path.pages f t.id t.firstLeaf + {(t.id, (t.page f path.parent path.next).data)} + R = _
    abel
  have hdisj : ∀ y ∈ path.pages f t.id t.firstLeaf, y.1 ≠ t.id := fun y hy =>
    (hs.holds.disjoint _ (Multiset.mem_singleton_self _) y (Multiset.mem_add.mpr (.inl hy))).symm
  replace hs : Owns h ((path.plug (t.without x)).pages f invalidPageId invalidPageId + R) ({t.id} + (↑l' + 0)) {t.id}
      (l' ++ [t.id]) ((M.begin.lock True).lock (True ∧ p = M.members .rootPageId)) := by
    refine (hs.cells _ ?_).of_eq rfl ?_ ?_
    · rw [path.pages_plug]
      show {(t.id, ((t.without x).page f path.parent path.next).data)} + (path.pages f t.id t.id + R) =
        path.pages f t.id t.id + {(t.id, ((t.without x).page f path.parent path.next).data)} + R
      abel
    · rw [add_zero, hpins]
    · rw [insert_empty_eq]
  have hroot' : M.members .rootPageId = (path.plug (t.without x)).id := hroot.trans (path.id_plug rfl)
  have hparent : path.isTop = false → path.parent ≠ invalidPageId := by
    intro htop
    cases path with
    | top => cases htop
    | under frame up => exact ne_invalidPageId (hs.live _ (up.mem_pages f (Path.fill frame (t.without x) []) R)).1
  have hvalid : ∀ y ∈ path.pages f t.id t.firstLeaf, y.1 ≠ invalidPageId := by
    intro y hy
    refine ne_invalidPageId (hs.live y ?_).1
    rw [path.pages_plug]
    exact Multiset.mem_add.mpr (.inl (Multiset.mem_add.mpr (.inl hy)))
  have hsized := Path.sized_without (x := x) hb hsz
  have hborrow : path.removalBorrow f t x =
    if (t.without x).size < f.leafMaxSize / 2 then path.borrows f (t.without x).size else none := rfl
  have hwaits : path.removalWaits f t x =
    if (t.without x).size < f.leafMaxSize / 2 then path.waits f (t.without x).size false else 0 := rfl
  refine meets_when (fun hc => ?_) fun hc => meets_pure ⟨rfl, path, t, l' ++ [t.id],
    True ∧ p = M.members .rootPageId, rfl, hx,
    ?_, ?_⟩
  · have hsmall : (t.without x).size < f.leafMaxSize / 2 := of_decide_eq_true hc
    rw [if_pos hsmall] at hsized
    have hreach : path.Reached f .remove (l' ++ [t.id]) ((l' ++ [t.id])[0]? = some (path.plug t).id) :=
      path.reached_latched t [] (by rw [hl', Path.latched_remove hb hsmall hparent])
    have hready : Ready F f path (t.without x) R ↑l' 0 {t.id} (l' ++ [t.id])
        ((M.begin.lock True).lock (True ∧ p = M.members .rootPageId)) false h := {
      weak := hsized
      owns := hs
      unlatched := hM
      freed := rfl
      root := hroot'
      pinned := by
        rw [← hpins]
        exact Multiset.le_add_left _ _
      apart := fun p hp => absurd hp (Multiset.notMem_zero p)
      clean := fun y hy => hdisj y hy
      covered := by
        intro _
        refine ⟨htl, fun _ => hreach.imp fun hfront => ⟨trivial, ?_⟩⟩
        exact (Option.some.inj (hp.symm.trans hfront)).trans hroot.symm
      tidy := by
        intro hF
        have hsheds := hz hF path t rfl hx
        rw [Path.removalSheds, decide_eq_true hsmall, Bool.true_and] at hsheds
        refine ⟨hsheds, fun _ hm => ?_, fun p hm => ?_⟩
        · rw [hl'] at hm
          obtain ⟨data, hmem⟩ := path.latched_mem (Multiset.mem_coe.mp hm) t.id t.firstLeaf
          exact hdisj _ hmem rfl
        · rw [hl'] at hm
          have hd := hs.holds.left
          rw [path.pages_plug] at hd
          exact path.latched_not_sibling hd.left (Multiset.mem_coe.mp hm) }
    rw [bind_assoc]
    have hheight : path.height < fuel := by
      have := path.add_height
      omega
    refine (cascades hlim path (path.sized_plug_iff.mp hsz).1 hheight hready).bind ?_
    rintro _ h' _ ⟨rfl, rfl, hset⟩
    refine meets_pure ⟨rfl, path, t, l' ++ [t.id], True ∧ p = M.members .rootPageId, rfl, hx, fun b hb' => ?_, ?_⟩
    · rw [hborrow, if_pos hsmall] at hb'
      exact path.borrows_reached hb' hreach hvalid
    · rw [hborrow, hwaits, if_pos hsmall, if_pos hsmall, ← hpins]
      exact hset
  · have hlarge : ¬ (t.without x).size < f.leafMaxSize / 2 := of_decide_eq_false hc
    rw [hborrow, if_neg hlarge]
    exact fun b hb' => by cases hb'
  · have hlarge : ¬ (t.without x).size < f.leafMaxSize / 2 := of_decide_eq_false hc
    rw [if_neg hlarge] at hsized
    rw [hborrow, hwaits, if_neg hlarge, if_neg hlarge, ← hpins]
    exact (hs.settled_sound hroot' hsized).forget (Scope.within_spend (M := (M.begin.lock True).lock _))

end Heap.Owns

end DBPlayground.Storage
