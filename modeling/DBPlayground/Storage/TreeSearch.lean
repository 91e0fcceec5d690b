import DBPlayground.Storage.HeapRules
import DBPlayground.Storage.TreeShape
import Mathlib.Data.List.TakeWhile

namespace DBPlayground.Storage

open Footprint Separators

namespace LeafPage

variable {K V : Type} [LinearOrder K] {page : LeafPage K V} {v : V}

theorem keyIndex_split (hs : page.array.Pairwise (·.1 < ·.1)) (x : K) : ∃ A B, page.array = A ++ B ∧
    page.keyIndex x = A.length ∧ (∀ e ∈ A, e.1 < x) ∧ ∀ e ∈ B, x ≤ e.1 := by
  refine ⟨_, _, (List.takeWhile_append_dropWhile (p := fun e : K × V => decide (e.1 < x))).symm, rfl, ?_, ?_⟩
  · intro e he
    exact of_decide_eq_true (List.mem_takeWhile_imp (p := fun e : K × V => decide (e.1 < x)) he)
  · intro e he
    have hdrop := List.Pairwise.sublist (List.dropWhile_sublist fun e : K × V => decide (e.1 < x)) hs
    cases hd : page.array.dropWhile fun e => decide (e.1 < x) with
    | nil =>
        rw [hd] at he
        cases he
    | cons d rest =>
        have hfirst : ¬ d.1 < x := by
          have hne : (page.array.dropWhile fun e => decide (e.1 < x)) ≠ [] := by rw [hd]; exact List.cons_ne_nil d rest
          have hhead := List.head_dropWhile_not (fun e : K × V => decide (e.1 < x)) hne
          simpa only [hd, List.head_cons, decide_eq_false_iff_not] using hhead
        rw [hd] at he hdrop
        rcases List.mem_cons.mp he with rfl | he
        · exact le_of_not_gt hfirst
        · exact le_of_lt (lt_of_le_of_lt (le_of_not_gt hfirst) ((List.pairwise_cons.mp hdrop).1 e he))

theorem lookup_eq_some (hs : page.array.Pairwise (·.1 < ·.1)) {x : K} :
    page.lookup x = some v ↔ (x, v) ∈ page.array := by
  obtain ⟨A, B, hAB, hidx, hA, hB⟩ := keyIndex_split hs x
  have hnot : (x, v) ∉ A := fun hm => lt_irrefl x (hA _ hm)
  rw [lookup, hidx, hAB, List.getElem?_append_right (Nat.le_refl _), Nat.sub_self, List.mem_append, or_iff_right hnot]
  cases B with
  | nil => simp
  | cons e rest =>
      obtain ⟨k, w⟩ := e
      rw [hAB] at hs
      have hrest := (List.pairwise_cons.mp (List.pairwise_append.mp hs).2.1).1
      have hnot' : (x, v) ∉ rest := fun hm =>
        absurd (hB (k, w) List.mem_cons_self) (not_le_of_gt (hrest (x, v) hm))
      rw [List.getElem?_cons_zero, List.mem_cons, or_iff_left hnot', Prod.mk.injEq]
      by_cases hk : k = x
      · simp [hk, eq_comm]
      · simp [hk, Ne.symm hk]

end LeafPage

namespace Path

variable {K V : Type} {n N : Nat} (f : Fanout) (op : OpType)

/-- The pages above the hole that are still in the page set, where `released`
says whether the descent gave them back at the hole. -/
def latched : {n : Nat} → Path K V n N → (released : Bool) → List PageId
  | _, .top, _ => []
  | _, .under frame up, released =>
    if released then []
    else latched up (BPlusTree.releases f (.internal (frame.page up.parent invalidPageId) : TreePage K V) op) ++ [frame.id]

variable {f op}

theorem releases_page (frame : Frame K (Tree K V n)) (parent p q : PageId) :
    BPlusTree.releases f (.internal (frame.page parent p) : TreePage K V) op =
      BPlusTree.releases f (.internal (frame.page parent q) : TreePage K V) op := by
  have hsize : ∀ p, (frame.page parent p).size = frame.left.length + (frame.right.length + 1) := fun p => by
    simp [InternalPage.size, Frame.page, Tree.refs]
  cases op <;> simp only [BPlusTree.releases, BPlusTree.isSafe, TreePage.size, TreePage.isRootPage,
    TreePage.parentPageId, hsize, TreePage.maxSize, TreePage.minSize] <;> rfl

theorem latched_mem (path : Path K V n N) {released : Bool} {p : PageId} (hp : p ∈ path.latched f op released)
    (root first : PageId) : ∃ data, (p, data) ∈ path.pages f root first := by
  induction path generalizing released root first with
  | top => cases hp
  | under frame up ih =>
      rw [latched] at hp
      split at hp
      · cases hp
      · rcases List.mem_append.mp hp with hp | hp
        · obtain ⟨data, hd⟩ := ih hp frame.id (Tree.headLeaf first frame.left)
          exact ⟨data, Multiset.mem_add.mpr (.inr hd)⟩
        · obtain rfl := List.mem_singleton.mp hp
          refine ⟨.internal (frame.page up.parent root), ?_⟩
          simp [pages]

variable (f op) in
/-- The page set covers the way up from a changed hole: it has the page above the
hole, and if that one was not safe either, it covers the way up from there. At the
top the root's lock is needed. -/
def Reached (l : List PageId) (locked : Prop) : {n : Nat} → Path K V n N → Prop
  | _, .top => locked
  | _, .under frame up => frame.id ∈ l ∧
      (BPlusTree.releases f (.internal (frame.page up.parent invalidPageId) : TreePage K V) op = false →
        Reached l locked up)

/-- What the descent leaves in the page set covers the way up, and if that reaches
the root then the root is the first page. -/
theorem reached_latched (path : Path K V n N) (t : Tree K V n) (rest : List PageId) {l : List PageId}
    (hl : l = path.latched f op false ++ t.id :: rest) : path.Reached f op l (l[0]? = some (path.plug t).id) := by
  induction path generalizing rest with
  | top =>
      subst hl
      exact rfl
  | under frame up ih =>
      have hl' : l = up.latched f op
          (BPlusTree.releases f (.internal (frame.page up.parent invalidPageId) : TreePage K V) op) ++
            (fill frame t []).id :: (t.id :: rest) := by
        rw [hl, latched, if_neg nofun, List.append_assoc]
        rfl
      refine ⟨?_, fun hr => ?_⟩
      · rw [hl']
        exact List.mem_append_right _ List.mem_cons_self
      · rw [hr] at hl'
        exact ih (fill frame t []) (t.id :: rest) hl'

theorem Reached.imp {path : Path K V n N} {l : List PageId} {locked locked' : Prop} (h : path.Reached f op l locked)
    (hi : locked → locked') : path.Reached f op l locked' := by
  induction path with
  | top => exact hi h
  | under frame up ih => exact ⟨h.1, fun hr => ih (h.2 hr)⟩

end Path

namespace Heap.Owns

variable {K V γ : Type} {h : Heap (PageData K V)} {S R : Multiset (PageId × PageData K V)}
  {E : Multiset PageId} {D : Set PageId} {l : List PageId} {M : Scope}
  {F : Regime K V} {X : Abort → Heap (PageData K V) → Prop} {i : Nat} {Q : γ → Heap (PageData K V) → Nat → Prop}
  {op : OpType} {f : Fanout}

theorem unlatchAndUnpinFrom {g : Unit → PageM (PageData K V) γ} (l₁ : List PageId) {l₂ : List PageId}
    (hs : Owns h S (↑l₂ + E) D (l₁ ++ l₂) M) (hM : M.latched = ∅) (hD : op = .read → D = ∅)
    (hg : ∀ h', Owns h' S E (D \ {p | p ∈ l₂}) (l₁ ++ l₂) M → (∀ q, h.dead q = false → h'.dead q = false) →
      Meets F X (g ()) h' i Q) :
    Meets F X (BPlusTree.unlatchAndUnpinFrom op l₁.length l₂.length >>= g) h i Q := by
  induction l₂ generalizing h l₁ D with
  | nil => exact hg h (hs.of_eq rfl (zero_add E) fun p hp => ⟨hp, nofun⟩) fun _ hq => hq
  | cons p rest ih =>
      replace hs := hs.of_eq rfl (show ↑(p :: rest) + E = {p} + (↑rest + E) by
        rw [← Multiset.cons_coe, ← Multiset.singleton_add, add_assoc]) subset_rfl
      rw [List.length_cons, BPlusTree.unlatchAndUnpinFrom]
      simp only [bind_assoc]
      have hj : (l₁ ++ p :: rest)[l₁.length]? = some p := by simp
      refine hs.pageSetPageId hj (by simp) (hs.pageSetUnlatch hM fun h₁ hs hd₁ => ?_)
      refine hs.unpinPage_live ?_ fun h₂ hs hd₂ => ?_
      · intro hw
        rw [hD (by simpa using hw)]
        exact id
      have hs' : Owns h₂ S (↑rest + E) (D \ {p}) ((l₁ ++ [p]) ++ rest) M := by
        rwa [List.append_assoc]
      have hrest := ih (l₁ ++ [p]) hs' (fun ho => by rw [hD ho, Set.empty_sdiff]) fun h₃ hs hd₃ => hg h₃ (by
        rw [List.append_assoc] at hs
        refine hs.of_eq rfl rfl ?_
        rintro q ⟨⟨hq, hqp⟩, hqr⟩
        refine ⟨hq, fun hm => ?_⟩
        rcases List.mem_cons.mp hm with rfl | hm
        · exact hqp rfl
        · exact hqr hm) fun q hq => hd₃ q (hd₂ q (hd₁ q hq))
      rwa [List.length_append, List.length_singleton] at hrest

theorem unlatchAndUnpin {g : Unit → PageM (PageData K V) γ} (hs : Owns h S (↑l + E) D l M) (hM : M.latched = ∅)
    (hD : op = .read → D = ∅) (hg : ∀ h, Owns h S E (D \ {p | p ∈ l}) [] M → Meets F X (g ()) h i Q) :
    Meets F X (BPlusTree.unlatchAndUnpin op >>= g) h i Q := by
  unfold BPlusTree.unlatchAndUnpin
  rw [bind_assoc]
  refine hs.pageSetSize ?_
  rw [bind_assoc]
  refine unlatchAndUnpinFrom [] hs hM hD fun h' hs' hd => hs'.clearPageSet (fun p hp => hd p ?_) hg
  exact (hs.held p (Multiset.mem_add.mpr (.inl (Multiset.mem_coe.mpr hp)))).2.2

variable {n N : Nat}

/-- The descent reaches a node: the pages above it may be given back, and the node
is added to the page set. -/
theorem visit {path : Path K V n N} {t : Tree K V n} {g : Unit → PageM (PageData K V) γ}
    (hs : Owns h ((path.plug t).pages f invalidPageId invalidPageId + R) ({t.id} + (↑(path.latched f op false) + E)) ∅
      (path.latched f op false) M) (hM : M.latched = ∅)
    (hg : ∀ h, Owns h ((path.plug t).pages f invalidPageId invalidPageId + R)
        (↑(path.latched f op (BPlusTree.releases f (t.page f path.parent path.next) op) ++ [t.id]) + E) ∅
        (path.latched f op (BPlusTree.releases f (t.page f path.parent path.next) op) ++ [t.id]) M →
      Meets F X (g ()) h i Q) :
    Meets F X (PageM.when (BPlusTree.releases f (t.page f path.parent path.next) op) (BPlusTree.unlatchAndUnpin op) >>=
      fun _ => PageM.addIntoPageSet t.id >>= g) h i Q := by
  have hnot : ∀ b, t.id ∉ path.latched f op b := by
    intro b hp
    obtain ⟨data, hd⟩ := path.latched_mem hp t.id t.firstLeaf
    have hholds := hs.holds.left
    rw [path.pages_plug] at hholds
    exact hholds.disjoint _ hd _ t.mem_pages rfl
  have hlast : ∀ l : List PageId, {t.id} + ((l : Multiset PageId) + E) = ↑(l ++ [t.id]) + E := by
    intro l
    rw [← Multiset.coe_add, Multiset.coe_singleton]
    abel
  refine meets_when (fun hr => ?_) fun hr => ?_
  · rw [hr] at hg
    have hnil : path.latched f op true = [] := by cases path <;> rfl
    refine unlatchAndUnpin (E := {t.id} + E) (hs.of_eq rfl (by abel) subset_rfl) hM (fun _ => rfl) fun h hs => ?_
    refine hs.addIntoPageSet mem_front List.not_mem_nil
      (fun _ hq => absurd hq List.not_mem_nil) fun h hs => hg h ?_
    rw [hnil]
    exact hs.of_eq rfl rfl (Set.empty_sdiff _).subset
  · rw [hr] at hg
    have hpinned : ∀ q ∈ path.latched f op false, q ∈ {t.id} + (↑(path.latched f op false) + E) := fun q hq =>
      Multiset.mem_add.mpr (.inr (Multiset.mem_add.mpr (.inl (Multiset.mem_coe.mpr hq))))
    refine hs.addIntoPageSet mem_front (hnot false) hpinned
      fun h hs => hg h ?_
    exact hs.of_eq rfl (hlast _) subset_rfl

variable [LinearOrder K] {I : Set K} {x : K}

theorem findLeafFrom {g : PageId → PageM (PageData K V) γ} (path : Path K V n N) {t : Tree K V n} {fuel : Nat}
    (hb : (path.plug t).Bounded I) (hx : x ∈ path.window I)
    (hs : Owns h ((path.plug t).pages f invalidPageId invalidPageId + R) ({t.id} + (↑(path.latched f op false) + E)) ∅
      (path.latched f op false) M) (hM : M.latched = ∅) (hfree : M.freed = some false) (hf : n < fuel)
    (hg : ∀ h (path' : Path K V 0 N) (t' : Tree K V 0), path'.plug t' = path.plug t → x ∈ path'.window I →
      Owns h ((path.plug t).pages f invalidPageId invalidPageId + R)
        (↑(path'.latched f op (BPlusTree.releases f (t'.page f path'.parent path'.next) op) ++ [t'.id]) + E) ∅
        (path'.latched f op (BPlusTree.releases f (t'.page f path'.parent path'.next) op) ++ [t'.id]) M →
      Meets F X (g t'.id) h i Q) :
    Meets F X (BPlusTree.findLeafFrom f x false op fuel t.id >>= g) h i Q := by
  induction n generalizing h fuel with
  | zero =>
      obtain ⟨fuel, rfl⟩ := Nat.exists_eq_add_one_of_ne_zero (Nat.ne_of_gt hf)
      rw [BPlusTree.findLeafFrom]
      simp only [bind_assoc]
      refine hs.getTreePage (path.mem_pages f t R) mem_front ?_
      refine hs.latch mem_front hfree fun h hs _ => ?_
      exact hs.visit hM fun h hs => hg h path t rfl hx hs
  | succ n ih =>
      obtain ⟨fuel, rfl⟩ := Nat.exists_eq_add_one_of_ne_zero (Nat.ne_of_gt (Nat.zero_lt_of_lt hf))
      obtain ⟨id, cs, rfl⟩ : ∃ id cs, t = Tree.node id cs := ⟨_, _, rfl⟩
      have hspans := (path.bounded_plug hb).1
      obtain ⟨l, k, u, r, rfl, hlook, hw⟩ := Tree.lookup_refs hx hspans
        (show (⟨path.parent, id, Tree.refs cs⟩ : InternalPage K).array = Tree.refs cs from rfl)
      let path' : Path K V n N := .under ⟨id, l, k, r⟩ path
      rw [BPlusTree.findLeafFrom]
      simp only [bind_assoc]
      refine hs.getTreePage (path.mem_pages f _ R) mem_front ?_
      refine hs.latch mem_front hfree fun h hs _ =>
        hs.visit hM fun h hs => ?_
      have hrel : BPlusTree.releases f (Tree.page f path.parent path.next (Tree.node id (l ++ (k, u) :: r))) op =
          BPlusTree.releases f (.internal (Frame.page ⟨id, l, k, r⟩ path.parent invalidPageId) : TreePage K V) op := by
        rw [← Path.releases_page ⟨id, l, k, r⟩ path.parent u.id, Frame.page]
        show BPlusTree.releases f (.internal ⟨path.parent, id, Tree.refs (l ++ (k, u) :: r)⟩) op = _
        rw [Tree.refs_append, Tree.refs_cons]
      have hl : path'.latched f op false =
          path.latched f op (BPlusTree.releases f
            (Tree.page f path.parent path.next (Tree.node id (l ++ (k, u) :: r))) op) ++
            [id] := by
        rw [hrel]
        rfl
      change Owns h ((path'.plug u).pages f invalidPageId invalidPageId + R) _ ∅ (_ ++ [id]) M at hs
      change Meets F X ((do
        let child ← PageM.defined ((⟨path.parent, id, Tree.refs (l ++ (k, u) :: r)⟩ : InternalPage K).lookup x)
        if ← PageM.fetchPage child then BPlusTree.findLeafFrom f x false op fuel child
          else PageM.throwRuntime "FetchPage returns nullptr") >>= g) h i Q
      rw [bind_assoc]
      refine meets_defined hlook ?_
      rw [bind_assoc]
      refine hs.fetchPage (path'.mem_pages f u R) fun h hs => ?_
      replace hs : Owns h ((path'.plug u).pages f invalidPageId invalidPageId + R)
          ({u.id} + (↑(path'.latched f op false) + E)) ∅ (path'.latched f op false) M := by
        rw [hl]
        exact hs
      exact ih path' hb hw hs (Nat.lt_of_succ_lt_succ hf) hg

theorem findLeafPageRW {g : PageId → PageM (PageData K V) γ} {T : Tree K V N} {fuel : Nat} (hb : T.Bounded Set.univ)
    (hs : Owns h (T.pages f invalidPageId invalidPageId + R) E ∅ [] M) (hM : M.latched = ∅) (hfree : M.freed = some false)
    (hroot : M.members .rootPageId = T.id) (hf : N < fuel)
    (hg : ∀ h (path : Path K V 0 N) (t : Tree K V 0), path.plug t = T → x ∈ path.window Set.univ →
      Owns h (T.pages f invalidPageId invalidPageId + R)
        (↑(path.latched f op (BPlusTree.releases f (t.page f path.parent path.next) op) ++ [t.id]) + E) ∅
        (path.latched f op (BPlusTree.releases f (t.page f path.parent path.next) op) ++ [t.id]) M →
      Meets F X (g t.id) h i Q) :
    Meets F X (BPlusTree.findLeafPageRW f fuel x false op >>= g) h i Q := by
  unfold BPlusTree.findLeafPageRW
  simp only [bind_assoc]
  refine hs.getMember ?_
  rw [hroot]
  refine hs.fetchPage (Path.top.mem_pages f T R) fun h hs => ?_
  refine findLeafFrom .top hb (Set.mem_univ x) (hs.of_eq rfl ?_ subset_rfl) hM hfree hf hg
  exact congrArg ({T.id} + ·) (zero_add E).symm

omit [LinearOrder K] in
theorem releaseRoot {g : Bool → PageM (PageData K V) γ} {p : PageId} (hs : Owns h S E D l M) (hl : l[0]? = some p)
    (hp : p ∈ E) (hg : ∀ h b, Owns h S E D l (M.lock (M.locked ∧ p = M.members .rootPageId)) → Meets F X (g b) h i Q) :
    Meets F X (BPlusTree.releaseRoot >>= g) h i Q := by
  unfold BPlusTree.releaseRoot
  simp only [bind_assoc]
  refine hs.pageSetPageId hl hp (hs.getMember ?_)
  split
  · next hne =>
      rw [bind_assoc]
      refine hs.unlockRoot fun h hs => hg h true (hs.forget ⟨rfl, subset_rfl, subset_rfl, ?_, fun _ => id, rfl⟩)
      exact fun hp => hne hp.2
  · exact hg h false (hs.forget ⟨rfl, subset_rfl, subset_rfl, fun hp => hp.1, fun _ => id, rfl⟩)

omit [LinearOrder K] in
theorem leaveRoot {g : Unit → PageM (PageData K V) γ} {b : Bool} (hs : Owns h S E D l M)
    (hg : ∀ h, Owns h S E D l (M.lock False) → Meets F X (g ()) h i Q) :
    Meets F X (BPlusTree.leaveRoot b >>= g) h i Q := by
  cases b with
  | true => exact hg h (hs.forget ⟨rfl, subset_rfl, subset_rfl, False.elim, fun _ => id, rfl⟩)
  | false => exact hs.unlockRoot hg

theorem getValue {T : Tree K V N} {fuel : Nat} (hb : T.Bounded Set.univ)
    (hs : Owns h (T.pages f invalidPageId invalidPageId + R) E ∅ l M) (hl : ∀ p ∈ l, h.dead p = false) (hM : M.latched = ∅)
    (hfree : M.freed = none) (hroot : M.members .rootPageId = T.id) (hf : N < fuel) :
    Meets F X (BPlusTree.getValue f fuel x) h i fun r h' i' => i' = i ∧ (∀ v, r = some v ↔ (x, v) ∈ T.contents) ∧
      Owns h' (T.pages f invalidPageId invalidPageId + R) E ∅ [] (M.lock False) := by
  have hne : T.id ≠ invalidPageId := ne_invalidPageId (hs.live _ (Path.top.mem_pages f T R)).1
  unfold BPlusTree.getValue
  refine hs.getMember ?_
  rw [hroot, if_neg hne]
  refine hs.newTransaction hl fun h hs => hs.lockRoot fun h hs _ =>
    hs.findLeafPageRW hb hM rfl hroot hf fun h path t hT hx hs => ?_
  have hl : path.latched f .read (BPlusTree.releases f (t.page f path.parent path.next) .read) = [] := by
    cases path <;> rfl
  rw [hl, List.nil_append] at hs
  have hleaf := path.mem_pages f t R
  rw [hT] at hleaf
  have hpin : t.id ∈ (↑[t.id] : Multiset PageId) + E := by simp
  refine hs.releaseRoot rfl hpin fun h b hs => ?_
  refine hs.getLeaf hleaf hpin (hs.unlatchAndUnpin hM (fun _ => rfl) fun h hs => hs.leaveRoot fun h hs => ?_)
  refine meets_pure ⟨rfl, fun v => ?_, (hs.of_eq rfl rfl (Set.empty_sdiff _).subset).forget
    ⟨rfl, subset_rfl, subset_rfl, id, Scope.unknown hfree, rfl⟩⟩
  subst hT
  rw [path.mem_contents hb hx]
  exact LeafPage.lookup_eq_some (path.bounded_plug hb).1.1

end Heap.Owns

end DBPlayground.Storage
