import DBPlayground.Storage.TreeRebalance

namespace DBPlayground.Storage

open Footprint Separators

/-- An entry that a node takes from a sibling: the page of their parent, whether they
are inner nodes, and whether the sibling is on the left. -/
structure Borrow where
  parent : PageId
  inner : Bool
  left : Bool

inductive Mend
  | mergeLeft
  | mergeRight
  | borrowLeft
  | borrowRight

namespace Path

variable {K V : Type} {n N : Nat} {f : Fanout}

/-- The branch of `CoalesceOrRedistribute` for a node with this many entries in the
hole. -/
def mend (f : Fanout) (frame : Frame K (Tree K V n)) (size : Nat) : Mend :=
  if frame.left.getLast?.any fun c => c.2.size + size ≤ Tree.maxSize f n then .mergeLeft
  else if frame.right.head?.any fun c => c.2.size + size ≤ Tree.maxSize f n then .mergeRight
  else if frame.left.isEmpty then .borrowRight
  else .borrowLeft

/-- The borrow that ends the way up from a node with this many entries in the hole. A
way up that ends with a merge or at the root has none. -/
def borrows (f : Fanout) : {n : Nat} → Path K V n N → (size : Nat) → Option Borrow
  | _, .top, _ => none
  | n, .under frame up, size =>
    match mend f frame size with
    | .borrowLeft => some ⟨frame.id, n ≠ 0, true⟩
    | .borrowRight => some ⟨frame.id, n ≠ 0, false⟩
    | _ =>
      if frame.left.length + frame.right.length < (f.internalMaxSize + 1) / 2 then
        borrows f up (frame.left.length + frame.right.length)
      else none

/-- The way up deletes an inner page that it came down through: an inner node is merged into
its left sibling, or an inner root is left with one child. -/
def sheds (f : Fanout) : {n : Nat} → Path K V n N → (size : Nat) → Bool
  | _, .top, size => N ≠ 0 && size ≤ 1
  | n, .under frame up, size =>
    let above := decide (frame.left.length + frame.right.length < (f.internalMaxSize + 1) / 2) &&
      sheds f up (frame.left.length + frame.right.length)
    match mend f frame size with
    | .mergeLeft => n ≠ 0 || above
    | .mergeRight => above
    | .borrowLeft | .borrowRight => false

/-- How many latches the way up takes once a page has been deleted: every sibling that it
looks at is latched, and looked at once more if it lends. -/
def waits (f : Fanout) : {n : Nat} → Path K V n N → (size : Nat) → (freed : Bool) → Nat
  | _, .top, _, _ => 0
  | _, .under frame up, size, freed =>
    let left := if frame.left.isEmpty then 0 else freed.toNat
    let right := if frame.right.isEmpty then 0 else freed.toNat
    let above := if frame.left.length + frame.right.length < (f.internalMaxSize + 1) / 2 then
      waits f up (frame.left.length + frame.right.length) true else 0
    match mend f frame size with
    | .mergeLeft => left + above
    | .mergeRight => left + right + above
    | .borrowLeft | .borrowRight => left + right + freed.toNat

def siblings : {n : Nat} → Path K V n N → List PageId
  | _, .top => []
  | _, .under frame up => (frame.right.head?.map fun c => c.2.id).toList ++ siblings up

theorem mem_frame {frame : Frame K (Tree K V n)} {up : Path K V (n + 1) N} {root first : PageId} :
    (frame.id, .internal (frame.page up.parent root)) ∈ pages f (.under frame up) root first := by
  simp [pages]

theorem borrows_mem (path : Path K V n N) {size : Nat} {b : Borrow} (hb : path.borrows f size = some b)
    (root first : PageId) : ∃ data, (b.parent, data) ∈ path.pages f root first := by
  induction path generalizing size root first with
  | top => cases hb
  | under frame up ih =>
      rw [borrows] at hb
      split at hb
      · cases hb
        exact ⟨_, mem_frame⟩
      · cases hb
        exact ⟨_, mem_frame⟩
      · split at hb
        · obtain ⟨data, hdata⟩ := ih hb frame.id (Tree.headLeaf first frame.left)
          exact ⟨data, Multiset.mem_add.mpr (.inr hdata)⟩
        · cases hb

theorem releases_remove {frame : Frame K (Tree K V n)} {up : Path K V (n + 1) N}
    (hsmall : frame.left.length + frame.right.length < (f.internalMaxSize + 1) / 2)
    (htop : up.isTop = true → frame.left.length + frame.right.length ≤ 1)
    (hparent : up.isTop = false → up.parent ≠ invalidPageId) :
    BPlusTree.releases f (.internal (frame.page up.parent invalidPageId) : TreePage K V) .remove = false := by
  have hsize : (frame.page up.parent invalidPageId).size = frame.left.length + (frame.right.length + 1) := by
    simp [InternalPage.size, Frame.page, Tree.refs]
  cases hup : up.isTop with
  | true =>
      have hroot : up.parent = invalidPageId := by
        cases up with
        | top => rfl
        | under _ _ => cases hup
      have hle : ¬ 2 < frame.left.length + (frame.right.length + 1) := by
        have := htop hup
        omega
      have hpage : (.internal (frame.page up.parent invalidPageId) : TreePage K V).isRootPage = true := decide_eq_true hroot
      rw [BPlusTree.releases, BPlusTree.isSafe, if_pos hpage, hsize, decide_eq_false hle]
      · rfl
      · intro hc
        cases hc
  | false =>
      have hle : ¬ (f.internalMaxSize + 1) / 2 < frame.left.length + (frame.right.length + 1) := by omega
      have hpage : ¬ (.internal (frame.page up.parent invalidPageId) : TreePage K V).isRootPage = true := fun h =>
        hparent hup (of_decide_eq_true h)
      rw [BPlusTree.releases, BPlusTree.isSafe, if_neg hpage, TreePage.size, hsize, TreePage.minSize, decide_eq_false hle]
      · rfl
      · intro hc
        cases hc

theorem mem_sibling (f : Fanout) {frame : Frame K (Tree K V n)} (parent next : PageId) {p : PageId}
    (hp : p ∈ (frame.right.head?.map fun c => c.2.id).toList) :
    ∃ data, (p, data) ∈ Tree.forest f parent next frame.right := by
  obtain ⟨c, hc, rfl⟩ := Option.map_eq_some_iff.mp (Option.mem_toList.mp hp)
  exact Tree.mem_forest f parent next (List.mem_of_head? hc)

theorem siblings_mem (path : Path K V n N) {p : PageId} (hp : p ∈ path.siblings) (root first : PageId) :
    ∃ data, (p, data) ∈ path.pages f root first := by
  induction path generalizing root first with
  | top => cases hp
  | under frame up ih =>
      rcases List.mem_append.mp hp with hp | hp
      · obtain ⟨data, hdata⟩ := mem_sibling f frame.id up.next hp
        exact ⟨data, Multiset.mem_add.mpr (.inl (Multiset.mem_add.mpr (.inr hdata)))⟩
      · obtain ⟨data, hdata⟩ := ih hp frame.id (Tree.headLeaf first frame.left)
        exact ⟨data, Multiset.mem_add.mpr (.inr hdata)⟩

theorem latched_not_sibling (path : Path K V n N) {mem : PageId → PageData K V} {root first p : PageId} {op : OpType}
    {released : Bool} (hd : Holds mem (path.pages f root first)) (hp : p ∈ path.latched f op released) :
    p ∉ path.siblings := by
  induction path generalizing root first released with
  | top => cases hp
  | under frame up ih =>
      rw [latched] at hp
      split at hp
      · cases hp
      rw [pages] at hd
      have hup : ∀ {q}, q ∈ up.siblings → ∃ data, (q, data) ∈ up.pages f frame.id (Tree.headLeaf first frame.left) :=
        fun hq =>
        up.siblings_mem hq _ _
      intro hs
      rcases List.mem_append.mp hp with hp | hp
      · rcases List.mem_append.mp hs with hs | hs
        · obtain ⟨_, hmem⟩ := up.latched_mem hp frame.id (Tree.headLeaf first frame.left)
          obtain ⟨_, hmem'⟩ := mem_sibling f frame.id up.next hs
          exact hd.disjoint _ (Multiset.mem_add.mpr (.inr hmem')) _ hmem rfl
        · exact ih hd.right hp hs
      · obtain rfl := List.mem_singleton.mp hp
        have hframe : (frame.id, .internal (frame.page up.parent root)) ∈
            ({(frame.id, .internal (frame.page up.parent root))} : Multiset (PageId × PageData K V)) +
              Tree.forest f frame.id first frame.left := mem_front
        rcases List.mem_append.mp hs with hs | hs
        · obtain ⟨_, hmem⟩ := mem_sibling f frame.id up.next hs
          exact hd.left.disjoint _ hframe _ hmem rfl
        · obtain ⟨_, hmem⟩ := hup hs
          exact hd.disjoint _ (Multiset.mem_add.mpr (.inl hframe)) _ hmem rfl

theorem borrows_reached (path : Path K V n N) {size : Nat} {b : Borrow} {l : List PageId} {locked : Prop}
    {root first : PageId} (hb : path.borrows f size = some b) (hr : path.Reached f .remove l locked)
    (hvalid : ∀ x ∈ path.pages f root first, x.1 ≠ invalidPageId) : b.parent ∈ l := by
  induction path generalizing size root first with
  | top => cases hb
  | under frame up ih =>
      rw [borrows] at hb
      split at hb
      · cases hb
        exact hr.1
      · cases hb
        exact hr.1
      · split at hb
        · next hsmall =>
            have hup : ∀ x ∈ up.pages f frame.id (Tree.headLeaf first frame.left), x.1 ≠ invalidPageId := fun x hx =>
              hvalid x (Multiset.mem_add.mpr (.inr hx))
            have hparent : up.isTop = false → up.parent ≠ invalidPageId := by
              intro htop
              cases up with
              | top => cases htop
              | under frame' up' => exact hup _ mem_frame
            refine ih hb (hr.2 (releases_remove hsmall (fun htop => ?_) hparent)) hup
            cases up with
            | top => cases hb
            | under frame' up' => cases htop
        · cases hb

def Sized (f : Fanout) : {n : Nat} → Path K V n N → Prop
  | _, .top => True
  | _, .under frame up =>
    (if up.isTop then 2 else (f.internalMaxSize + 1) / 2) ≤ frame.left.length + (frame.right.length + 1) ∧
      frame.left.length + (frame.right.length + 1) ≤ f.internalMaxSize ∧
      (∀ c ∈ frame.left, c.2.Sized f false) ∧ (∀ c ∈ frame.right, c.2.Sized f false) ∧ Sized f up

theorem sized_plug_iff (path : Path K V n N) {t : Tree K V n} :
    (path.plug t).Sized f true ↔ path.Sized f ∧ t.Sized f path.isTop := by
  induction path with
  | top => exact ⟨fun h => ⟨trivial, h⟩, fun h => h.2⟩
  | under frame up ih =>
      rw [plug, ih]
      have hlen : (frame.left ++ (frame.key, t) :: ([] ++ frame.right)).length =
          frame.left.length + (frame.right.length + 1) := by simp
      have hnode : (fill frame t []).Sized f up.isTop ↔
          (if up.isTop then 2 else (f.internalMaxSize + 1) / 2) ≤ frame.left.length + (frame.right.length + 1) ∧
            frame.left.length + (frame.right.length + 1) ≤ f.internalMaxSize ∧
            ∀ c ∈ frame.left ++ (frame.key, t) :: ([] ++ frame.right), c.2.Sized f false := by
        rw [← hlen]
        exact Iff.rfl
      rw [hnode, Sized, isTop]
      simp only [List.mem_append, List.mem_cons, List.nil_append]
      constructor
      · rintro ⟨hup, hmin, hmax, hcs⟩
        exact ⟨⟨hmin, hmax, fun c hc => hcs c (.inl hc), fun c hc => hcs c (.inr (.inr hc)), hup⟩, hcs _ (.inr (.inl rfl))⟩
      · rintro ⟨⟨hmin, hmax, hleft, hright, hup⟩, ht⟩
        refine ⟨hup, hmin, hmax, fun c hc => ?_⟩
        rcases hc with hc | rfl | hc
        · exact hleft c hc
        · exact ht
        · exact hright c hc

section pair

variable {q : PageId} {A B : List (K × Tree K V n)} {k₁ k₂ : K} {t₁ t₂ : Tree K V n} {up : Path K V (n + 1) N}

theorem plug_left : (Path.under ⟨q, A ++ [(k₁, t₁)], k₂, B⟩ up).plug t₂ =
    up.plug (.node q (A ++ (k₁, t₁) :: (k₂, t₂) :: B)) := by
  show up.plug (.node q ((A ++ [(k₁, t₁)]) ++ (k₂, t₂) :: ([] ++ B))) = _
  rw [List.append_assoc]
  rfl

theorem page_left {parent : PageId} : Frame.page ⟨q, A ++ [(k₁, t₁)], k₂, B⟩ parent t₂.id =
    ⟨parent, q, Tree.refs (A ++ (k₁, t₁) :: (k₂, t₂) :: B)⟩ := by
  simp [Frame.page, Tree.refs]

theorem page_right {parent : PageId} : Frame.page ⟨q, A, k₁, (k₂, t₂) :: B⟩ parent t₁.id =
    ⟨parent, q, Tree.refs (A ++ (k₁, t₁) :: (k₂, t₂) :: B)⟩ := by
  simp [Frame.page, Tree.refs]

theorem disjoint_up {mem : PageId → PageData K V} {R : Multiset (PageId × PageData K V)}
    (hd : Holds mem ((up.plug (.node q (A ++ (k₁, t₁) :: (k₂, t₂) :: B))).pages f invalidPageId invalidPageId + R)) :
    ∀ x ∈ up.pages f q (Tree.headLeaf t₁.firstLeaf A), x.1 ≠ q ∧ x.1 ≠ t₁.id ∧ x.1 ≠ t₂.id := by
  intro x hx
  rw [up.pages_pair] at hd
  have hmem : x ∈ up.around f q t₁.firstLeaf A B := Multiset.mem_add.mpr (.inr hx)
  refine ⟨?_, ?_, ?_⟩
  · exact (hd.left.disjoint _ (Multiset.mem_singleton_self _) _ (Multiset.mem_add.mpr (.inr (Multiset.mem_add.mpr
      (.inr hmem))))).symm
  · exact (hd.left.right.disjoint _ t₁.mem_pages _ (Multiset.mem_add.mpr (.inr hmem))).symm
  · exact (hd.left.right.right.disjoint _ t₂.mem_pages _ hmem).symm

theorem bounded_pair [LinearOrder K] {I : Set K}
    (hb : (up.plug (.node q (A ++ (k₁, t₁) :: (k₂, t₂) :: B))).Bounded I) :
    ∃ J, SpansFrom (fun I (c : Tree K V n) => c.Bounded I) J t₁ [(k₂, t₂)] ∧
      ∀ t' ts, SpansFrom (fun I (c : Tree K V n) => c.Bounded I) J t' ts →
        (up.plug (.node q (A ++ (k₁, t') :: (ts ++ B)))).Bounded I := by
  obtain ⟨hnode, hup⟩ := up.bounded_plug hb
  obtain ⟨hpair, hfill⟩ := spans_focus [(k₂, t₂)] hnode
  exact ⟨_, hpair, fun t' ts h => hup _ (hfill t' ts h)⟩

theorem contents_pair : (up.plug (.node q (A ++ (k₁, t₁) :: (k₂, t₂) :: B))).contents =
    up.before ++ ((A.flatMap fun c => c.2.contents) ++ ((t₁.contents ++ t₂.contents) ++ B.flatMap fun c => c.2.contents) ++
      up.after) := by
  rw [contents_plug]
  show _ ++ ((A ++ (k₁, t₁) :: (k₂, t₂) :: B).flatMap _ ++ _) = _
  simp only [List.flatMap_append, List.flatMap_cons, List.append_assoc]

theorem contents_single {t : Tree K V n} {k : K} : (up.plug (.node q (A ++ (k, t) :: B))).contents =
    up.before ++ ((A.flatMap fun c => c.2.contents) ++ (t.contents ++ B.flatMap fun c => c.2.contents) ++ up.after) := by
  rw [contents_plug]
  show _ ++ ((A ++ (k, t) :: B).flatMap _ ++ _) = _
  simp only [List.flatMap_append, List.flatMap_cons, List.append_assoc]

theorem sized_merged (hA : ∀ c ∈ A, c.2.Sized f false) (hB : ∀ c ∈ B, c.2.Sized f false)
    (hmin : Tree.minSize f n ≤ t₁.size + t₂.size) (hfit : t₁.size + t₂.size ≤ Tree.maxSize f n) (hn₁ : t₁.Nourished f)
    (hn₂ : t₂.Nourished f) : ∀ c ∈ A ++ (k₁, Tree.merge k₂ t₁ t₂) :: B, c.2.Sized f false := by
  intro c hc
  rcases List.mem_append.mp hc with hc | hc
  · exact hA c hc
  · rcases List.mem_cons.mp hc with rfl | hc
    · exact Tree.sized_iff.mpr ⟨by rwa [Tree.size_merge], by rwa [Tree.size_merge], Tree.nourished_merge hn₁ hn₂⟩
    · exact hB c hc

theorem length_single {t : Tree K V n} {k : K} : (A ++ (k, t) :: B).length = A.length + (B.length + 1) := by simp

theorem weak_of_small {cs : List (K × Tree K V n)} {root : Bool}
    (hmin : (if root then 2 else (f.internalMaxSize + 1) / 2) ≤ cs.length + 1)
    (hsmall : cs.length < (f.internalMaxSize + 1) / 2)
    (hcs : ∀ c ∈ cs, c.2.Sized f false) : (Tree.node q cs).Weak f root := by
  have h3 := f.three_le_internal
  cases root with
  | false => exact ⟨Nat.le_antisymm hsmall hmin, hcs⟩
  | true =>
      change 2 ≤ cs.length + 1 at hmin
      refine ⟨Nat.le_of_succ_le_succ hmin, ?_, hcs⟩
      show cs.length ≤ f.internalMaxSize
      omega

end pair

end Path

section pins

variable {E G : Multiset PageId} {l : List PageId} {p : PageId}

theorem count_add_le (hE : E ≤ ↑l) (hG : p ∉ G) : (E + G).count p ≤ l.count p := by
  rw [Multiset.count_add, Multiset.count_eq_zero_of_notMem hG, Nat.add_zero, ← Multiset.coe_count]
  exact Multiset.count_le_of_le p hE

theorem notMem_add (hE : p ∉ E) (hG : p ∉ G) : p ∉ E + G := fun hm => (Multiset.mem_add.mp hm).elim hE hG

theorem filter_ne_add (hG : p ∉ G) : (E + G).filter (· ≠ p) = E.filter (· ≠ p) + G := by
  rw [Multiset.filter_add]
  refine congrArg _ (Multiset.filter_eq_self.mpr fun q hq => ?_)
  rintro rfl
  exact hG hq

end pins

/-- What a removal makes of a tree: pages that are a tree again, or a way to a page
that does not exist. -/
def Tree.Outcome {K V : Type} [LinearOrder K] {N : Nat} (f : Fanout) (T : Tree K V N) (R : Multiset (PageId × PageData K V))
    (e : Option Borrow) (S : Multiset (PageId × PageData K V)) (root : PageId) : Prop :=
  if e.any fun b => b.inner && b.left then root = T.id ∧ Leads S T.id invalidPageId
  else ∃ ix : Index K V, S = ix.pages f + R ∧ root = ix.rootPageId ∧ ix.contents = T.contents ∧
    (T.Bounded Set.univ → ix.WellFormed f)

/-- The pins that are left of `E`: only a borrow adds one, on the parent. -/
def Leftover (E : Multiset PageId) : (e : Option Borrow) → (E' : Multiset PageId) → Prop
  | none, E' => E' ≤ E
  | some b, E' => E' ≤ {b.parent} + E ∧ E'.count b.parent = E.count b.parent + 1

theorem Leftover.erase {E E₀ E' : Multiset PageId} {e : Option Borrow} {q : PageId} (h : Leftover ({q} + E) e E')
    (hle : E ≤ E₀) (hb : ∀ b, e = some b → b.parent ≠ q ∧ E.count b.parent = E₀.count b.parent) :
    Leftover E₀ e (E'.erase q) := by
  cases e with
  | none =>
      refine (Multiset.erase_le_erase q h).trans ?_
      rw [Multiset.singleton_add, Multiset.erase_cons_head]
      exact hle
  | some b =>
      obtain ⟨hne, hc⟩ := hb b rfl
      refine ⟨(Multiset.erase_le_erase q h.1).trans ?_, ?_⟩
      · rw [add_left_comm, Multiset.singleton_add q, Multiset.erase_cons_head]
        exact add_le_add_right hle _
      · rw [Multiset.count_erase_of_ne hne, h.2, Multiset.count_add, Multiset.count_singleton, if_neg hne, hc, Nat.zero_add]

section pos

variable {K V : Type} {n : Nat} {f : Fanout} {t : Tree K V n}

theorem Tree.Sized.pos (h : t.Sized f false) : 0 < t.size :=
  Nat.lt_of_lt_of_le (Tree.one_le_minSize f n) (Tree.sized_iff.mp h).1

theorem Tree.Weak.pos (h : t.Weak f false) (hn : n ≠ 0) : 0 < t.size := by
  obtain ⟨n, rfl⟩ := Nat.exists_eq_succ_of_ne_zero hn
  have h2 := Tree.two_le_minSize f n
  have hsize : t.size + 1 = Tree.minSize f (n + 1) := h.1
  omega

end pos

theorem Tree.Sized.root {K V : Type} {n : Nat} {f : Fanout} {t : Tree K V n} (h : t.Sized f false) : t.Sized f true := by
  cases n with
  | zero => exact ⟨nofun, h.2⟩
  | succ n => exact ⟨(Tree.two_le_minSize f n).trans h.1, h.2⟩

theorem leftover_borrow {E : Multiset PageId} {b : Borrow} {p : PageId} (hne : b.parent ≠ p) :
    Leftover ({p} + E) (some b) ({b.parent} + E) := by
  refine ⟨add_le_add_right (Multiset.le_add_left E _) _, ?_⟩
  rw [Multiset.count_add, Multiset.count_add, Multiset.count_singleton_self, Multiset.count_singleton, if_neg hne]
  omega

namespace Tree

variable {K V : Type} [LinearOrder K] {N N' : Nat} {f : Fanout} {T : Tree K V N} {T' : Tree K V N'}
  {R S : Multiset (PageId × PageData K V)} {e : Option Borrow} {root : PageId}

theorem Outcome.after (h : T'.Outcome f R e S root) (hid : T'.id = T.id) (hc : T'.contents = T.contents)
    (hb : T.Bounded Set.univ → T'.Bounded Set.univ) : T.Outcome f R e S root := by
  unfold Outcome at h ⊢
  split
  · next he =>
      rw [if_pos he, hid] at h
      exact h
  · next he =>
      rw [if_neg he] at h
      obtain ⟨ix, hS, hroot, hix, hw⟩ := h
      exact ⟨ix, hS, hroot, hix.trans hc, fun hT => hw (hb hT)⟩

variable (T') in
theorem outcome_sound (he : (e.any fun b => b.inner && b.left) = false) (hs : T'.Sized f true)
    (hc : T'.contents = T.contents) (hb : T.Bounded Set.univ → T'.Bounded Set.univ) :
    T.Outcome f R e (T'.pages f invalidPageId invalidPageId + R) T'.id := by
  unfold Outcome
  rw [if_neg (by rw [he]; nofun)]
  exact ⟨some ⟨N', T'⟩, rfl, rfl, hc, fun hT => ⟨hb hT, hs⟩⟩

end Tree

namespace Heap.Owns

variable {K V γ : Type} {h : Heap (PageData K V)} {S R : Multiset (PageId × PageData K V)} {E : Multiset PageId}
  {D : Set PageId} {l : List PageId} {M : Scope} {F : Regime K V} {X : Abort → Heap (PageData K V) → Prop}
  {i : Nat} {Q : γ → Heap (PageData K V) → Nat → Prop} {p : PageId}

theorem unpinPage_any {g : Unit → PageM (PageData K V) γ} (hs : Owns h S E D l M)
    (hg : ∀ h, Owns h S (E.erase p) D l M → Meets F X (g ()) h i Q) : Meets F X (PageM.unpinPage p true >>= g) h i Q := by
  by_cases hp : p ∈ E
  · rw [← Multiset.cons_erase hp, ← Multiset.singleton_add] at hs
    exact hs.unpinPage nofun fun h hs => hg h (hs.of_eq rfl rfl Set.sdiff_subset)
  · exact hs.unpinPage_skip hp (hg h (hs.of_eq rfl (Multiset.erase_of_notMem hp).symm subset_rfl))

theorem unlatchSibling {g : Unit → PageM (PageData K V) γ} {op : OpType} (hs : Owns h S E D l M) (hM : M.latched = ∅)
    (hg : ∀ h, Owns h S E D l M → Meets F X (g ()) h i Q) : Meets F X (PageM.unlatch p op >>= g) h i Q :=
  hs.unlatch fun h hs => hg h (hs.forget ⟨rfl, subset_rfl, by rw [hM]; exact Set.empty_subset _, id, fun _ => id, rfl⟩)

end Heap.Owns

namespace Heap

variable {K V : Type} [LinearOrder K] {h : Heap (PageData K V)} {S R : Multiset (PageId × PageData K V)}
  {E G : Multiset PageId} {D : Set PageId} {l : List PageId} {M : Scope} {F : Regime K V}
  {X : Abort → Heap (PageData K V) → Prop} {i : Nat} {f : Fanout} {n N : Nat}

/-- The heap after a removal has gone its way up from a node: the tree has the
outcome, `E` is what the way up could take from the pins, and the pins `G` are as before. -/
def Settled (f : Fanout) (T : Tree K V N) (R : Multiset (PageId × PageData K V)) (E G : Multiset PageId)
    (e : Option Borrow) (l : List PageId) (M : Scope) (h : Heap (PageData K V)) : Prop :=
  ∃ S E' D' root, T.Outcome f R e S root ∧ Leftover E e E' ∧ Owns h S (E' + G) D' l (M.setMember .rootPageId root)

theorem Settled.forget {T : Tree K V N} {e : Option Borrow} {M' : Scope} (hs : Settled f T R E G e l M h)
    (hM : M'.Within M) : Settled f T R E G e l M' h := by
  obtain ⟨S, E', D', root, hout, hleft, hs⟩ := hs
  exact ⟨S, E', D', root, hout, hleft, hs.forget hM.setMember⟩

namespace Owns

theorem settled_sound {T : Tree K V N} {p : PageId}
    (hs : Owns h (T.pages f invalidPageId invalidPageId + R) ({p} + (E + G)) D l M) (hroot : M.members .rootPageId = T.id)
    (ht : T.Sized f true) : Settled f T R ({p} + E) G none l M h := by
  refine ⟨_, {p} + E, D, T.id, Tree.outcome_sound T rfl ht rfl id, le_refl _, ?_⟩
  rw [Scope.setMember_eq hroot.symm, add_assoc]
  exact hs

theorem shrinkRoot_leaf {t : Tree K V 0} (ht : t.Weak f true)
    (hs : Owns h (t.pages f invalidPageId invalidPageId + R) ({t.id} + (E + G)) D l M)
    (hroot : M.members .rootPageId = t.id) (hE : E ≤ ↑l) (hG : t.id ∉ G)
    (hcov : F.guarded → t.id ∈ l ∧ (t.size ≤ 1 → M.locked)) (hz : F.spotless → t.id ∉ E) :
    Meets F X (BPlusTree.shrinkRoot t.id (t.page f invalidPageId invalidPageId)) h i fun b h' i' =>
      b = false ∧ i' = i ∧ Settled f t R ({t.id} + E) G none l (M.spend 0) h' := by
  have hpin : t.id ∈ {t.id} + (E + G) := mem_front
  have hstay : t.Sized f true := ⟨nofun, ht⟩
  unfold BPlusTree.shrinkRoot
  rw [t.size_page]
  refine meets_when (fun hc => ?_) fun _ => meets_pure ⟨rfl, rfl, (hs.settled_sound hroot hstay).forget Scope.within_spend⟩
  unfold BPlusTree.adjustRoot
  simp only [bind_assoc]
  refine hs.getTreePage (Multiset.mem_add.mpr (.inl t.mem_pages)) hpin ?_
  show Meets F X ((if (Leaf.entries t).length = 0 then _ else _) >>= _) h i _
  split
  · next hzero =>
      rw [bind_assoc]
      refine hs.setRoot (fun hF => ⟨.inr (hroot ▸ (hcov hF).1), (hcov hF).2 (of_decide_eq_true hc)⟩) fun h hs => ?_
      show Meets F X ((do
        PageM.unpinPage t.id true
        PageM.deletePage t.id) >>= fun _ => pure false) h i _
      rw [bind_assoc]
      refine hs.unpinPage nofun fun h hs => hs.deletePage (count_add_le hE hG) (fun hF => .inl (hcov hF).1)
        (fun hF => notMem_add (hz hF) hG) fun h hs => meets_pure ⟨rfl, rfl, ?_⟩
      rw [filter_ne_add hG] at hs
      refine ⟨R, _, _, invalidPageId, ?_, (Multiset.filter_le _ E).trans (Multiset.le_add_left E _),
        hs.forget (Scope.within_spend_free (M := M.setMember .rootPageId _))⟩
      exact ⟨none, (zero_add R).symm, rfl, (List.eq_nil_of_length_eq_zero hzero).symm, fun _ => trivial⟩
  · exact meets_pure ⟨rfl, rfl, (hs.settled_sound hroot hstay).forget Scope.within_spend⟩

theorem shrinkRoot_node {t : Tree K V (n + 1)} (hlim : ∀ data : PageData K V, data.Fits f → F.limit data)
    (ht : t.Weak f true)
    (hs : Owns h (t.pages f invalidPageId invalidPageId + R) ({t.id} + (E + G)) D l M)
    (hroot : M.members .rootPageId = t.id) (hE : E ≤ ↑l) (hG : t.id ∉ G)
    (hcov : F.guarded → t.id ∈ l ∧ (t.size ≤ 1 → M.locked)) (hz : F.spotless → t.size ≤ 1 → t.id ∉ E) :
    Meets F X (BPlusTree.shrinkRoot t.id (t.page f invalidPageId invalidPageId)) h i fun b h' i' =>
      b = false ∧ i' = i ∧ Settled f t R ({t.id} + E) G none l (M.spend 0) h' := by
  have hpin : t.id ∈ {t.id} + (E + G) := mem_front
  obtain ⟨hpos, hmax, hn⟩ := ht
  unfold BPlusTree.shrinkRoot
  rw [t.size_page]
  refine meets_when (fun hc => ?_) fun hc =>
    meets_pure ⟨rfl, rfl, (hs.settled_sound hroot ⟨?_, hmax, hn⟩).forget Scope.within_spend⟩
  · have hone : t.size ≤ 1 := of_decide_eq_true hc
    obtain ⟨id, cs, rfl⟩ : ∃ id cs, t = Tree.node id cs := ⟨_, _, rfl⟩
    obtain ⟨c, rfl⟩ : ∃ c, cs = [c] := List.length_eq_one_iff.mp (Nat.le_antisymm hone hpos)
    change id ∉ G at hG
    have hc : c.2.Sized f false := hn c List.mem_cons_self
    rw [Tree.pages_node, Tree.forest_cons, Tree.forest_nil, add_zero, c.2.pages_eq, Tree.headLeaf] at hs
    have hmem : (id, (TreePage.internal ⟨invalidPageId, id, Tree.refs [c]⟩ : TreePage K V).data) ∈
        {(id, .internal ⟨invalidPageId, id, Tree.refs [c]⟩)} + ({(c.2.id, (c.2.page f id invalidPageId).data)} +
          c.2.below f invalidPageId) + R :=
        Multiset.mem_add.mpr (.inl mem_front)
    unfold BPlusTree.adjustRoot
    simp only [bind_assoc]
    refine hs.getTreePage hmem hpin ?_
    show Meets F X ((if [c].length = 1 then _ else _) >>= _) h i _
    rw [if_pos List.length_singleton]
    simp only [bind_assoc]
    refine meets_defined (b := c.2.id) rfl ?_
    refine setData (hs.cells ({(id, .internal ⟨invalidPageId, id, Tree.refs [c]⟩)} +
      ({(c.2.id, (c.2.page f id invalidPageId).data)} + (c.2.below f invalidPageId + R))) (by abel)) hpin
      (Regime.allows_mem (fun hF => (hcov hF).1) (hlim _ (Nat.zero_le _))) fun h hs => ?_
    refine setRoot hs (fun hF => ⟨.inr (hroot ▸ (hcov hF).1), (hcov hF).2 hone⟩) fun h hs => ?_
    refine updateParentPageId (hs.cells ({(c.2.id, (c.2.page f id invalidPageId).data)} + ({(id, _)} +
      (c.2.below f invalidPageId + R))) (add_left_comm _ _ _)) ?_ fun h hs => ?_
    · rw [Tree.setParentPageId_page]
      exact hlim _ (Tree.fits_page (Tree.sized_iff.mp hc).2.1)
    rw [Tree.setParentPageId_page] at hs
    show Meets F X ((do
      PageM.unpinPage id true
      PageM.deletePage id) >>= fun _ => pure false) h i _
    rw [bind_assoc]
    refine unpinPage hs (fun hw => by cases hw) fun h hs => ?_
    refine deletePage (hs.cells ({(id, _)} + ({(c.2.id, (c.2.page f invalidPageId invalidPageId).data)} +
      (c.2.below f invalidPageId + R))) (add_left_comm _ _ _)) (count_add_le hE hG) (fun hF => .inl (hcov hF).1)
        (fun hF => notMem_add (hz hF hone) hG) fun h hs => meets_pure ⟨rfl, rfl, ?_⟩
    rw [filter_ne_add hG, ← add_assoc, ← c.2.pages_eq] at hs
    refine ⟨_, _, _, c.2.id, ?_, (Multiset.filter_le _ E).trans (Multiset.le_add_left E _),
      hs.forget (Scope.within_spend_free (M := M.setMember .rootPageId _))⟩
    exact Tree.outcome_sound c.2 rfl hc.root (List.append_nil _).symm fun hb => hb
  · have := of_decide_eq_false hc
    exact Nat.not_le.mp this

section siblings

variable {γ : Type} {Q : γ → Heap (PageData K V) → Nat → Prop} {q next : PageId} {A B : List (K × Tree K V n)} {k₁ k₂ : K}
  {t₁ t₂ : Tree K V n} {up : Path K V (n + 1) N} {b : Bool} (hlim : ∀ data : PageData K V, data.Fits f → F.limit data)

include hlim

omit [LinearOrder K] in
theorem coalesceLeft {g : Bool → PageM (PageData K V) γ} {again : PageId → PageM (PageData K V) Bool}
    (hs : Owns h ((up.plug (.node q (A ++ (k₁, t₁) :: (k₂, t₂) :: B))).pages f invalidPageId invalidPageId + R)
      ({q} + ({t₂.id} + (E + G))) D l M) (hM : M.latched = ∅) (hb : M.freed = some b) (hE : E ≤ ↑l) (hG : t₂.id ∉ G)
    (hD : t₁.id ∉ D)
    (hpos₁ : n ≠ 0 → 0 < t₁.size) (hpos₂ : n ≠ 0 → 0 < t₂.size) (hn : t₂.Nourished f)
    (hsize : A.length + (B.length + 2) ≤ f.internalMaxSize) (hl : F.guarded → q ∈ l) (hl₂ : F.guarded → t₂.id ∈ l)
    (hz : F.spotless → t₁.size + t₂.size ≤ Tree.maxSize f n → t₂.id ∉ E)
    (hfit : t₁.size + t₂.size ≤ Tree.maxSize f n → ∀ h,
      Owns h ((up.plug (.node q (A ++ (k₁, Tree.merge k₂ t₁ t₂) :: B))).pages f invalidPageId invalidPageId + R)
        ({q} + (E.filter (· ≠ t₂.id) + ({t₁.id} + G))) (insert q (insert t₁.id (D \ {t₂.id}))) l (M.wait b.toNat).free →
      Meets F X ((if A.length + (B.length + 1) < (f.internalMaxSize + 1) / 2 then again q else pure false) >>=
        fun delParent => do
          PageM.unlatch t₁.id .remove
          PageM.unpinPage q true
          PageM.unpinPage t₁.id true
          PageM.when delParent (PageM.deletePage q)
          g true) h i Q)
    (hnot : ¬ t₁.size + t₂.size ≤ Tree.maxSize f n → ∀ h,
      Owns h ((up.plug (.node q (A ++ (k₁, t₁) :: (k₂, t₂) :: B))).pages f invalidPageId invalidPageId + R)
        ({q} + ({t₂.id} + (E + G))) D l (M.wait b.toNat) → Meets F X (g false) h i Q) :
    Meets F X (BPlusTree.coalesceLeft f again t₂.id q (t₂.page f q next)
      ⟨up.parent, q, Tree.refs (A ++ (k₁, t₁) :: (k₂, t₂) :: B)⟩ (some A.length) >>= g) h i Q := by
  obtain ⟨_, hne, hq₁, hq₂⟩ := Path.disjoint_pair hs.holds
  have hmem : (t₁.id, (t₁.page f q t₂.firstLeaf).data) ∈
      (up.plug (.node q (A ++ (k₁, t₁) :: (k₂, t₂) :: B))).pages f invalidPageId invalidPageId + R := by
    rw [up.pages_pair]
    exact Multiset.mem_add.mpr (.inl (Multiset.mem_add.mpr (.inr (Multiset.mem_add.mpr (.inl t₁.mem_pages)))))
  have hpin : ∀ E : Multiset PageId, t₁.id ∈ {t₁.id} + E := fun E =>
    mem_front
  unfold BPlusTree.coalesceLeft
  simp only [bind_assoc]
  refine meets_defined (b := t₁.id) Path.valueAt_left (hs.fetch hmem fun h hs => hs.latch (hpin _) hb fun h _ hs => ?_)
  replace hs := hs nofun
  refine hs.getTreePage hmem (hpin _) ?_
  rw [Tree.fitOne_page]
  split
  · next hc =>
      simp only [bind_assoc, pure_bind]
      have hG' : t₂.id ∉ {q} + ({t₁.id} + G) := by simp [hq₂.symm, hne.symm, hG]
      refine coalesce hlim (hs.of_eq rfl (show _ = {t₂.id} + (E + ({q} + ({t₁.id} + G))) by abel) subset_rfl) (by simp)
        (by simp) (count_add_le hE hG') (fun hF => notMem_add (hz hF (of_decide_eq_true hc)) hG')
        (of_decide_eq_true hc) hpos₁ hpos₂ hn (Nat.le_of_succ_le hsize) hl
        (fun hF => .inr (.inr ⟨Set.mem_insert _ _, hl hF⟩)) (fun hF => .inl (hl₂ hF)) fun h hs => ?_
      refine hfit (of_decide_eq_true hc) h ((hs.of_eq rfl ?_ subset_rfl).forget Scope.within_latch)
      rw [filter_ne_add hG']
      abel
  · next hc =>
      simp only [bind_assoc, pure_bind]
      refine (hs.forget Scope.within_latch).unlatchSibling hM fun h hs => hs.unpinPage (fun _ => hD) fun h hs => ?_
      exact hnot (fun hfit => hc (decide_eq_true hfit)) h (hs.of_eq rfl rfl Set.sdiff_subset)

omit [LinearOrder K] in
theorem coalesceRight {g : Bool → PageM (PageData K V) γ} {again : PageId → PageM (PageData K V) Bool}
    (hs : Owns h ((up.plug (.node q (A ++ (k₁, t₁) :: (k₂, t₂) :: B))).pages f invalidPageId invalidPageId + R)
      ({q} + ({t₁.id} + (E + G))) D l M) (hM : M.latched = ∅) (hb : M.freed = some b) (hE : E ≤ ↑l) (hG : t₂.id ∉ G)
    (hD : t₂.id ∉ D)
    (hpos₁ : n ≠ 0 → 0 < t₁.size) (hpos₂ : n ≠ 0 → 0 < t₂.size) (hn : t₂.Nourished f)
    (hsize : A.length + (B.length + 2) ≤ f.internalMaxSize) (hl : F.guarded → q ∈ l) (hl₁ : F.guarded → t₁.id ∈ l)
    (hz : F.spotless → t₂.id ∉ E)
    (hfit : t₂.size + t₁.size ≤ Tree.maxSize f n → ∀ h,
      Owns h ((up.plug (.node q (A ++ (k₁, Tree.merge k₂ t₁ t₂) :: B))).pages f invalidPageId invalidPageId + R)
        ({q} + (E.filter (· ≠ t₂.id) + ({t₁.id} + G))) (insert q (insert t₁.id (D \ {t₂.id}))) l (M.wait b.toNat).free →
      Meets F X ((if A.length + (B.length + 1) < (f.internalMaxSize + 1) / 2 then again q else pure false) >>=
        fun delParent => do
          PageM.unlatch t₂.id .remove
          PageM.unpinPage q true
          PageM.unpinPage t₁.id true
          PageM.when delParent (PageM.deletePage q)
          g true) h i Q)
    (hnot : ¬ t₂.size + t₁.size ≤ Tree.maxSize f n → ∀ h,
      Owns h ((up.plug (.node q (A ++ (k₁, t₁) :: (k₂, t₂) :: B))).pages f invalidPageId invalidPageId + R)
        ({q} + ({t₁.id} + (E + G))) D l (M.wait b.toNat) → Meets F X (g false) h i Q) :
    Meets F X (BPlusTree.coalesceRight f again t₁.id q (t₁.page f q next)
      ⟨up.parent, q, Tree.refs (A ++ (k₁, t₁) :: (k₂, t₂) :: B)⟩ (A.length + 1) >>= g) h i Q := by
  obtain ⟨_, hne, hq₁, hq₂⟩ := Path.disjoint_pair hs.holds
  have hmem : (t₂.id, (t₂.page f q (Tree.headLeaf up.next B)).data) ∈
      (up.plug (.node q (A ++ (k₁, t₁) :: (k₂, t₂) :: B))).pages f invalidPageId invalidPageId + R := by
    rw [up.pages_pair]
    exact Multiset.mem_add.mpr (.inl (Multiset.mem_add.mpr (.inr (Multiset.mem_add.mpr (.inr (Multiset.mem_add.mpr
      (.inl t₂.mem_pages)))))))
  have hpin : ∀ E : Multiset PageId, t₂.id ∈ {t₂.id} + E := fun E =>
    mem_front
  unfold BPlusTree.coalesceRight
  rw [if_pos (by rw [Path.length_pair]; omega)]
  simp only [bind_assoc]
  refine meets_defined (b := t₂.id) Path.valueAt_right (hs.fetch hmem fun h hs => hs.latch (hpin _) hb fun h _ hs => ?_)
  replace hs := hs nofun
  refine hs.getTreePage hmem (hpin _) ?_
  rw [Tree.fitOne_page, t₁.pageId_page]
  split
  · next hc =>
      have hfits := of_decide_eq_true hc
      simp only [bind_assoc, pure_bind]
      have hG' : t₂.id ∉ {q} + ({t₁.id} + G) := by simp [hq₂.symm, hne.symm, hG]
      refine coalesce hlim (hs.of_eq rfl (show _ = {t₂.id} + (E + ({q} + ({t₁.id} + G))) by abel) subset_rfl) (by simp)
        (by simp) (count_add_le hE hG') (fun hF => notMem_add (hz hF) hG') (by omega) hpos₁ hpos₂
        hn (Nat.le_of_succ_le hsize) hl
        (fun hF => .inl (hl₁ hF)) (fun hF => .inr (.inr ⟨Set.mem_insert _ _, hl hF⟩)) fun h hs => ?_
      refine hfit hfits h ((hs.of_eq rfl ?_ subset_rfl).forget Scope.within_latch)
      rw [filter_ne_add hG']
      abel
  · next hc =>
      simp only [bind_assoc, pure_bind]
      refine (hs.forget Scope.within_latch).unlatchSibling hM fun h hs => hs.unpinPage (fun _ => hD) fun h hs => ?_
      exact hnot (fun hfit => hc (decide_eq_true hfit)) h (hs.of_eq rfl rfl Set.sdiff_subset)

end siblings

section borrow

variable {γ : Type} {Q : γ → Heap (PageData K V) → Nat → Prop} {q next : PageId} {A B : List (K × Tree K V n)} {k₁ k₂ k' : K}
  {t₁ t₂ t₁' t₂' t : Tree K V n} {up : Path K V (n + 1) N} {e : Borrow} {b : Bool}

variable (hM : M.latched = ∅)
  (hroot : M.members .rootPageId = (up.plug (.node q (A ++ (k₁, t₁) :: (k₂, t₂) :: B))).id) (hup : up.Sized f)
  (hmin : (if up.isTop then 2 else (f.internalMaxSize + 1) / 2) ≤ A.length + (B.length + 2))
  (hmax : A.length + (B.length + 2) ≤ f.internalMaxSize) (hA : ∀ c ∈ A, c.2.Sized f false) (hB : ∀ c ∈ B, c.2.Sized f false)

include hroot hup hmin hmax hA hB in
theorem settled_shift (hshift : Tree.Shifted f k₂ t₁ t₂ k' t₁' t₂')
    (hs : Owns h ((up.plug (.node q (A ++ (k₁, t₁') :: (k', t₂') :: B))).pages f invalidPageId invalidPageId + R)
      ({e.parent} + (E + G)) D l M) (he : (e.inner && e.left) = false) (hne : e.parent ≠ t.id) :
    Settled f (up.plug (.node q (A ++ (k₁, t₁) :: (k₂, t₂) :: B))) R ({t.id} + E) G (some e) l M h := by
  have hid : (up.plug (.node q (A ++ (k₁, t₁') :: (k', t₂') :: B))).id =
      (up.plug (.node q (A ++ (k₁, t₁) :: (k₂, t₂) :: B))).id := up.id_plug rfl
  refine ⟨_, {e.parent} + E, D, _, Tree.outcome_sound (up.plug (.node q (A ++ (k₁, t₁') :: (k', t₂') :: B))) he ?_ ?_ ?_,
    leftover_borrow hne, ?_⟩
  · have hlen : (A ++ (k₁, t₁') :: (k', t₂') :: B).length = A.length + (B.length + 2) := by simp
    refine up.sized_plug_iff.mpr ⟨hup, hlen ▸ hmin, hlen ▸ hmax, fun c hc => ?_⟩
    rcases List.mem_append.mp hc with hc | hc
    · exact hA c hc
    · rcases List.mem_cons.mp hc with rfl | hc
      · exact hshift.left_sized
      · rcases List.mem_cons.mp hc with rfl | hc
        · exact hshift.right_sized
        · exact hB c hc
  · rw [Path.contents_pair, Path.contents_pair, hshift.contents]
  · intro hb
    obtain ⟨J, hspan, hfill⟩ := Path.bounded_pair hb
    exact hfill _ _ (hshift.spans J hspan)
  · rw [hid, Scope.setMember_eq hroot.symm, add_assoc]
    exact hs

variable [Inhabited K] (hlim : ∀ data : PageData K V, data.Fits f → F.limit data)
  (hl : F.guarded → q ∈ l) (hb : M.freed = some b)

include hM hb hroot hup hmin hmax hA hB hlim hl

theorem borrowRight {g : Bool → PageM (PageData K V) γ}
    (hs : Owns h ((up.plug (.node q (A ++ (k₁, t₁) :: (k₂, t₂) :: B))).pages f invalidPageId invalidPageId + R)
      ({q} + ({t₁.id} + (E + G))) D l M) (h₁ : t₁.Weak f false) (h₂ : t₂.Sized f false)
    (hlend : Tree.minSize f n < t₂.size) (hl₁ : F.guarded → t₁.id ∈ l)
    (hg : ∀ h, Settled f (up.plug (.node q (A ++ (k₁, t₁) :: (k₂, t₂) :: B))) R ({t₁.id} + E) G
      (some ⟨q, n ≠ 0, false⟩) l (M.spend b.toNat) h → Meets F X (g true) h i Q) :
    Meets F X (BPlusTree.borrow f t₁.id q (t₁.page f q next) t₂.id true >>= g) h i Q := by
  obtain ⟨_, hne, hq₁, hq₂⟩ := Path.disjoint_pair hs.holds
  have hmem : (t₂.id, (t₂.page f q (Tree.headLeaf up.next B)).data) ∈
      (up.plug (.node q (A ++ (k₁, t₁) :: (k₂, t₂) :: B))).pages f invalidPageId invalidPageId + R := by
    rw [up.pages_pair]
    exact Multiset.mem_add.mpr (.inl (Multiset.mem_add.mpr (.inr (Multiset.mem_add.mpr (.inr (Multiset.mem_add.mpr
      (.inl t₂.mem_pages)))))))
  unfold BPlusTree.borrow
  simp only [bind_assoc]
  refine hs.fetch hmem fun h hs => hs.latch (by simp) hb fun h _ hs => ?_
  replace hs := hs nofun
  refine hs.getTreePage hmem (by simp) ?_
  rw [Tree.minSize_page, Tree.size_page, if_pos hlend, t₁.pageId_page]
  simp only [bind_assoc, pure_bind]
  have hexit : ∀ h k' t₁' t₂', Tree.Shifted f k₂ t₁ t₂ k' t₁' t₂' →
      Owns h ((up.plug (.node q (A ++ (k₁, t₁') :: (k', t₂') :: B))).pages f invalidPageId invalidPageId + R)
        ({q} + ({t₂.id} + ({q} + ({t₁.id} + (E + G))))) (insert q (insert t₁.id (insert t₂.id D))) l
        ((M.wait b.toNat).latch t₂.id) →
      Meets F X (do
        PageM.unlatch t₂.id .remove
        PageM.unpinPage q true
        PageM.unpinPage t₁.id true
        PageM.unpinPage t₂.id true
        g true) h i Q := by
    intro h k' t₁' t₂' hshift hs
    refine (hs.forget Scope.within_latch).unlatchSibling hM fun h hs => hs.unpinPage nofun fun h hs => ?_
    refine (hs.of_eq rfl (show _ = {t₁.id} + ({t₂.id} + ({q} + (E + G))) by abel) subset_rfl).unpinPage nofun fun h hs => ?_
    refine hs.unpinPage nofun fun h hs => hg h (Settled.forget ?_ Scope.within_spend)
    exact settled_shift hroot hup hmin hmax hA hB (e := ⟨q, n ≠ 0, false⟩) hshift hs (Bool.and_false _) hq₁
  have hw₁ : F.guarded → ((M.wait b.toNat).latch t₂.id).Covers l t₁.id q := fun hF => .inl (hl₁ hF)
  have hw₂ : F.guarded → ((M.wait b.toNat).latch t₂.id).Covers l t₂.id q := fun hF => .inr (.inr ⟨Set.mem_insert _ _, hl hF⟩)
  cases n with
  | zero => exact lendRight_leaf hlim hs (by simp) (by simp) h₁ h₂ hlend hmax hl hw₁ hw₂ hexit
  | succ n => exact lendRight_node hlim hs (by simp) (by simp) h₁ h₂ hlend hmax hl hw₁ hw₂ hexit

theorem borrowLeft {g : Bool → PageM (PageData K V) γ}
    (hs : Owns h ((up.plug (.node q (A ++ (k₁, t₁) :: (k₂, t₂) :: B))).pages f invalidPageId invalidPageId + R)
      ({q} + ({t₂.id} + (E + G))) D l M) (h₁ : t₁.Sized f false) (h₂ : t₂.Weak f false)
    (hlend : Tree.minSize f n < t₁.size) (hl₂ : F.guarded → t₂.id ∈ l)
    (hg : ∀ h, Settled f (up.plug (.node q (A ++ (k₁, t₁) :: (k₂, t₂) :: B))) R ({t₂.id} + E) G
      (some ⟨q, n ≠ 0, true⟩) l (M.spend b.toNat) h → Meets F X (g true) h i Q) :
    Meets F X (BPlusTree.borrow f t₂.id q (t₂.page f q next) t₁.id false >>= g) h i Q := by
  obtain ⟨_, hne, hq₁, hq₂⟩ := Path.disjoint_pair hs.holds
  have hmem : (t₁.id, (t₁.page f q t₂.firstLeaf).data) ∈
      (up.plug (.node q (A ++ (k₁, t₁) :: (k₂, t₂) :: B))).pages f invalidPageId invalidPageId + R := by
    rw [up.pages_pair]
    exact Multiset.mem_add.mpr (.inl (Multiset.mem_add.mpr (.inr (Multiset.mem_add.mpr (.inl t₁.mem_pages)))))
  unfold BPlusTree.borrow
  simp only [bind_assoc]
  refine hs.fetch hmem fun h hs => hs.latch (by simp) hb fun h _ hs => ?_
  replace hs := hs nofun
  refine hs.getTreePage hmem (by simp) ?_
  rw [Tree.minSize_page, Tree.size_page, if_pos hlend, t₂.pageId_page]
  simp only [bind_assoc, pure_bind]
  have hexit : ∀ h S, Owns h S ({q} + ({t₁.id} + ({q} + ({t₂.id} + (E + G))))) (insert q (insert t₂.id (insert t₁.id D)))
        l ((M.wait b.toNat).latch t₁.id) →
      (∀ h D', Owns h S ({q} + (E + G)) D' l (M.wait b.toNat) →
        Settled f (up.plug (.node q (A ++ (k₁, t₁) :: (k₂, t₂) :: B))) R
        ({t₂.id} + E) G (some ⟨q, n ≠ 0, true⟩) l (M.wait b.toNat) h) →
      Meets F X (do
        PageM.unlatch t₁.id .remove
        PageM.unpinPage q true
        PageM.unpinPage t₂.id true
        PageM.unpinPage t₁.id true
        g true) h i Q := by
    intro h S hs hsettled
    refine (hs.forget Scope.within_latch).unlatchSibling hM fun h hs => hs.unpinPage nofun fun h hs => ?_
    refine (hs.of_eq rfl (show _ = {t₂.id} + ({t₁.id} + ({q} + (E + G))) by abel) subset_rfl).unpinPage nofun fun h hs => ?_
    exact hs.unpinPage nofun fun h hs => hg h ((hsettled h _ hs).forget Scope.within_spend)
  have hw₁ : F.guarded → ((M.wait b.toNat).latch t₁.id).Covers l t₁.id q := fun hF => .inr (.inr ⟨Set.mem_insert _ _, hl hF⟩)
  have hw₂ : F.guarded → ((M.wait b.toNat).latch t₁.id).Covers l t₂.id q := fun hF => .inl (hl₂ hF)
  cases n with
  | zero =>
      refine lendLeft_leaf hlim hs (by simp) (by simp) h₁ h₂ hlend hmax hl hw₁ hw₂ fun h k' t₁' t₂' hshift hs =>
        hexit h _ hs fun h D' hs => ?_
      exact settled_shift hroot hup hmin hmax hA hB (e := ⟨q, false, true⟩) hshift hs rfl hq₂
  | succ n =>
      refine lendLeft_node hlim hs (by simp) (by simp) h₁ h₂ hlend hmax hl hw₁ hw₂ fun h S hleads hs =>
        hexit h S hs fun h D' hs => ⟨S, {q} + E, D', _, ⟨rfl, hleads⟩, leftover_borrow hq₂, ?_⟩
      rw [Scope.setMember_eq (M := M.wait b.toNat) hroot.symm, add_assoc]
      exact hs

end borrow

end Owns

/-- The heap as `CoalesceOrRedistribute` needs it at a node in the hole of a path: `E` are
pins of the page set, and the pins `G` are on other pages. -/
structure Ready (F : Regime K V) (f : Fanout) (path : Path K V n N) (t : Tree K V n) (R : Multiset (PageId × PageData K V))
    (E G : Multiset PageId) (D : Set PageId) (l : List PageId) (M : Scope) (b : Bool) (h : Heap (PageData K V)) : Prop where
  weak : t.Weak f path.isTop
  owns : Owns h ((path.plug t).pages f invalidPageId invalidPageId + R) ({t.id} + (E + G)) D l M
  unlatched : M.latched = ∅
  freed : M.freed = some b
  root : M.members .rootPageId = (path.plug t).id
  pinned : E ≤ ↑l
  apart : ∀ p ∈ G, p ≠ t.id ∧ ∀ x ∈ path.pages f t.id t.firstLeaf, x.1 ≠ p
  clean : ∀ x ∈ path.pages f t.id t.firstLeaf, x.1 ∉ D
  covered : F.guarded → t.id ∈ l ∧ ((path.isTop = true → t.size ≤ 1) → path.Reached f .remove l M.locked)
  tidy : F.spotless → path.sheds f t.size = false ∧ (n = 0 → t.id ∉ E) ∧ ∀ p ∈ E, p ∉ path.siblings

/-- The method goes the way up from the hole of a path. -/
def Cascades (F : Regime K V) (f : Fanout) (path : Path K V n N) (m : PageId → PageM (PageData K V) Bool) : Prop :=
  ∀ ⦃X : Abort → Heap (PageData K V) → Prop⦄ ⦃h i t R E G D l M b⦄, Ready F f path t R E G D l M b h →
    Meets F X (m t.id) h i fun r h' i' =>
      r = false ∧ i' = i ∧
        Settled f (path.plug t) R ({t.id} + E) G (path.borrows f t.size) l (M.spend (path.waits f t.size b)) h'

section merge

variable {γ : Type} {Q : γ → Heap (PageData K V) → Nat → Prop} {q p x : PageId} {A B : List (K × Tree K V n)} {k₁ k₂ : K}
  {t₁ t₂ : Tree K V n} {up : Path K V (n + 1) N}

variable (hM : M.latched = ∅) (hfree : M.freed = some true)
  (hroot : M.members .rootPageId = (up.plug (.node q (A ++ (k₁, t₁) :: (k₂, t₂) :: B))).id) (hup : up.Sized f)
  (hmin : (if up.isTop then 2 else (f.internalMaxSize + 1) / 2) ≤ A.length + (B.length + 2))
  (hmax : A.length + (B.length + 2) ≤ f.internalMaxSize)

include hM hfree hroot hup hmin hmax in
theorem Owns.afterMerge {g : Bool → PageM (PageData K V) γ} {again : PageId → PageM (PageData K V) Bool}
    (hagain : Cascades F f up again)
    (hs : Owns h ((up.plug (.node q (A ++ (k₁, Tree.merge k₂ t₁ t₂) :: B))).pages f invalidPageId invalidPageId + R)
      ({q} + (E.filter (· ≠ t₂.id) + ({t₁.id} + G))) (insert q (insert t₁.id (D \ {t₂.id}))) l M)
    (hmerged : ∀ c ∈ A ++ (k₁, Tree.merge k₂ t₁ t₂) :: B, c.2.Sized f false) (hpos₁ : n ≠ 0 → 0 < t₁.size)
    (hE : E ≤ ↑l) (hp : p = t₁.id ∨ p = t₂.id) (hq₁ : q ≠ t₁.id)
    (hdisj : ∀ x ∈ up.pages f q (Tree.headLeaf t₁.firstLeaf A), x.1 ≠ q ∧ x.1 ≠ t₁.id ∧ x.1 ≠ t₂.id)
    (hG : ∀ p ∈ G, p ≠ q ∧ ∀ x ∈ up.pages f q (Tree.headLeaf t₁.firstLeaf A), x.1 ≠ p)
    (hD : ∀ x ∈ up.pages f q (Tree.headLeaf t₁.firstLeaf A), x.1 ∉ D)
    (hcov : F.guarded → q ∈ l ∧ (A.length + (B.length + 1) < (f.internalMaxSize + 1) / 2 →
      (up.isTop = true → A.length + (B.length + 1) ≤ 1) → up.Reached f .remove l M.locked))
    (htidy : F.spotless → (A.length + (B.length + 1) < (f.internalMaxSize + 1) / 2 →
      up.sheds f (A.length + (B.length + 1)) = false) ∧ ∀ p ∈ E, p ∉ up.siblings)
    (hg : ∀ h, Settled f (up.plug (.node q (A ++ (k₁, t₁) :: (k₂, t₂) :: B))) R ({p} + E) G
      (if A.length + (B.length + 1) < (f.internalMaxSize + 1) / 2 then up.borrows f (A.length + (B.length + 1)) else none)
      l (M.spend (if A.length + (B.length + 1) < (f.internalMaxSize + 1) / 2 then
        up.waits f (A.length + (B.length + 1)) true else 0)) h → Meets F X (g true) h i Q) :
    Meets F X ((if A.length + (B.length + 1) < (f.internalMaxSize + 1) / 2 then again q else pure false) >>=
      fun delParent => do
        PageM.unlatch x .remove
        PageM.unpinPage q true
        PageM.unpinPage t₁.id true
        PageM.when delParent (PageM.deletePage q)
        g true) h i Q := by
  have hid : (up.plug (.node q (A ++ (k₁, Tree.merge k₂ t₁ t₂) :: B))).id =
      (up.plug (.node q (A ++ (k₁, t₁) :: (k₂, t₂) :: B))).id := up.id_plug rfl
  have hcontents : (up.plug (.node q (A ++ (k₁, Tree.merge k₂ t₁ t₂) :: B))).contents =
      (up.plug (.node q (A ++ (k₁, t₁) :: (k₂, t₂) :: B))).contents := by
    rw [Path.contents_single, Path.contents_pair, Tree.contents_merge]
  have hbounded : (up.plug (.node q (A ++ (k₁, t₁) :: (k₂, t₂) :: B))).Bounded Set.univ →
      (up.plug (.node q (A ++ (k₁, Tree.merge k₂ t₁ t₂) :: B))).Bounded Set.univ := by
    intro hb
    obtain ⟨J, hspan, hfill⟩ := Path.bounded_pair hb
    exact hfill _ [] (Tree.bounded_merge hspan)
  have hfirst : (Tree.node q (A ++ (k₁, Tree.merge k₂ t₁ t₂) :: B)).firstLeaf = Tree.headLeaf t₁.firstLeaf A := by
    rw [Path.firstLeaf_node, Tree.firstLeaf_merge hpos₁]
  have hlen : (A ++ (k₁, Tree.merge k₂ t₁ t₂) :: B).length = A.length + (B.length + 1) := Path.length_single
  have hqG : q ∉ {t₁.id} + G := by
    intro hm
    rcases Multiset.mem_add.mp hm with hm | hm
    · exact hq₁ (Multiset.mem_singleton.mp hm)
    · exact (hG q hm).1 rfl
  obtain ⟨e, he⟩ : ∃ e, (if A.length + (B.length + 1) < (f.internalMaxSize + 1) / 2 then
    up.borrows f (A.length + (B.length + 1)) else none) = e := ⟨_, rfl⟩
  obtain ⟨w, hw⟩ : ∃ w, (if A.length + (B.length + 1) < (f.internalMaxSize + 1) / 2 then
    up.waits f (A.length + (B.length + 1)) true else 0) = w := ⟨_, rfl⟩
  rw [he, hw] at hg
  -- what is left is to give back the latch and the pins, whatever the way up was
  have hrest : ∀ h, Settled f (up.plug (.node q (A ++ (k₁, Tree.merge k₂ t₁ t₂) :: B))) R ({q} + E.filter (· ≠ t₂.id))
      ({t₁.id} + G) e l (M.spend w) h → Meets F X (do
        PageM.unlatch x .remove
        PageM.unpinPage q true
        PageM.unpinPage t₁.id true
        PageM.when false (PageM.deletePage q)
        g true) h i Q := by
    rintro h ⟨S, E', D', root, hout, hleft, hs⟩
    refine hs.unlatchSibling hM fun h hs => hs.unpinPage_any fun h hs => ?_
    rw [Multiset.erase_add_left_neg _ hqG, add_left_comm] at hs
    refine hs.unpinPage nofun fun h hs => hg h ⟨S, E'.erase q, _, root, hout.after hid hcontents hbounded, ?_, hs⟩
    refine hleft.erase ((Multiset.filter_le _ E).trans (Multiset.le_add_left E _)) fun b hb => ?_
    have hb' : up.borrows f (A.length + (B.length + 1)) = some b := by
      rw [hb] at he
      split at he
      · exact he
      · cases he
    obtain ⟨data, hmem⟩ := up.borrows_mem hb' q (Tree.headLeaf t₁.firstLeaf A)
    obtain ⟨hbq, hb₁, hb₂⟩ := hdisj _ hmem
    have hbp : b.parent ≠ p := by
      rcases hp with rfl | rfl
      · exact hb₁
      · exact hb₂
    refine ⟨hbq, ?_⟩
    rw [Multiset.count_filter_of_pos (p := (· ≠ t₂.id)) hb₂, Multiset.count_add, Multiset.count_singleton,
      if_neg hbp, Nat.zero_add]
  split
  · next hsmall =>
      have hready : Ready F f up (.node q (A ++ (k₁, Tree.merge k₂ t₁ t₂) :: B)) R (E.filter (· ≠ t₂.id)) ({t₁.id} + G)
          (insert q (insert t₁.id (D \ {t₂.id}))) l M true h := {
        weak := Path.weak_of_small (by rw [hlen]; exact hmin) (by rw [hlen]; exact hsmall) hmerged
        owns := hs
        unlatched := hM
        freed := hfree
        root := hroot.trans hid.symm
        pinned := (Multiset.filter_le _ E).trans hE
        apart := by
          intro p hp
          rw [hfirst]
          rcases Multiset.mem_add.mp hp with hp | hp
          · obtain rfl := Multiset.mem_singleton.mp hp
            exact ⟨hq₁.symm, fun x hx => (hdisj x hx).2.1⟩
          · exact hG p hp
        clean := by
          intro x hx
          rw [hfirst] at hx
          rintro (hxq | hx₁ | hxD)
          · exact (hdisj x hx).1 hxq
          · exact (hdisj x hx).2.1 hx₁
          · exact hD x hx hxD.1
        covered := by
          intro hF
          rw [Tree.size_node, hlen]
          exact ⟨(hcov hF).1, (hcov hF).2 hsmall⟩
        tidy := by
          intro hF
          rw [Tree.size_node, hlen]
          exact ⟨(htidy hF).1 hsmall, fun hz => absurd hz (Nat.succ_ne_zero n), fun p hp =>
            (htidy hF).2 p (Multiset.mem_of_mem_filter hp)⟩ }
      rw [if_pos hsmall] at he hw
      have hm := @hagain X _ i _ _ _ _ _ _ _ _ hready
      rw [Tree.size_node, hlen, he, hw] at hm
      refine hm.bind ?_
      rintro _ h' _ ⟨rfl, rfl, hset⟩
      exact hrest h' hset
  · next hlarge =>
      rw [if_neg hlarge] at he hw
      subst he hw
      refine hrest h ((hs.settled_sound (hroot.trans hid.symm) ?_).forget Scope.within_spend)
      refine up.sized_plug_iff.mpr ⟨hup, hlen ▸ ?_, hlen ▸ Nat.le_of_succ_le hmax, hmerged⟩
      have h3 := f.three_le_internal
      split <;> omega

end merge

namespace Ready

variable {γ : Type} {Q : γ → Heap (PageData K V) → Nat → Prop} {frame : Frame K (Tree K V n)} {up : Path K V (n + 1) N}
  {t : Tree K V n} {h₀ : Heap (PageData K V)} {b : Bool}

omit [LinearOrder K] in
theorem covered_up (hr : Ready F f (.under frame up) t R E G D l M b h₀) : F.guarded → frame.id ∈ l ∧
    (frame.left.length + frame.right.length < (f.internalMaxSize + 1) / 2 →
      (up.isTop = true → frame.left.length + frame.right.length ≤ 1) → up.Reached f .remove l M.locked) := by
  intro hF
  obtain ⟨hq, hup⟩ := (hr.covered hF).2 nofun
  refine ⟨hq, fun hsmall htop => hup (Path.releases_remove hsmall htop fun hno => ?_)⟩
  cases up with
  | top => cases hno
  | under frame' up' =>
      refine ne_invalidPageId (hr.owns.live (frame'.id, .internal (frame'.page up'.parent frame.id)) ?_).1
      rw [Path.pages_plug]
      simp [Path.pages]

omit [LinearOrder K] in
theorem tidy_left (hr : Ready F f (.under frame up) t R E G D l M b h₀)
    (hfit : (frame.left.getLast?.any fun c => c.2.size + t.size ≤ Tree.maxSize f n) = true) : F.spotless → t.id ∉ E ∧
    (frame.left.length + frame.right.length < (f.internalMaxSize + 1) / 2 →
      up.sheds f (frame.left.length + frame.right.length) = false) ∧ ∀ p ∈ E, p ∉ up.siblings := by
  intro hF
  obtain ⟨hsheds, hid, hsib⟩ := hr.tidy hF
  rw [Path.sheds, Path.mend, if_pos hfit] at hsheds
  obtain ⟨hn, habove⟩ := Bool.or_eq_false_iff.mp hsheds
  refine ⟨hid (of_not_not (of_decide_eq_false hn)), fun hsmall => ?_, fun p hp hm => hsib p hp (List.mem_append_right _ hm)⟩
  rwa [decide_eq_true hsmall, Bool.true_and] at habove

omit [LinearOrder K] in
theorem tidy_right (hr : Ready F f (.under frame up) t R E G D l M b h₀)
    (hleft : (frame.left.getLast?.any fun c => c.2.size + t.size ≤ Tree.maxSize f n) = false)
    (hfit : (frame.right.head?.any fun c => c.2.size + t.size ≤ Tree.maxSize f n) = true) : F.spotless →
    (frame.left.length + frame.right.length < (f.internalMaxSize + 1) / 2 →
      up.sheds f (frame.left.length + frame.right.length) = false) ∧ ∀ p ∈ E, p ∉ up.siblings := by
  intro hF
  obtain ⟨hsheds, _, hsib⟩ := hr.tidy hF
  rw [Path.sheds, Path.mend, if_neg (by rw [hleft]; exact Bool.false_ne_true), if_pos hfit] at hsheds
  refine ⟨fun hsmall => ?_, fun p hp hm => hsib p hp (List.mem_append_right _ hm)⟩
  rwa [decide_eq_true hsmall, Bool.true_and] at hsheds

variable (hr : Ready F f (.under frame up) t R E G D l M b h₀) (hsz : Path.Sized f (.under frame up))
  {again : PageId → PageM (PageData K V) Bool} (hagain : Cascades F f up again) {w : Nat}
  (hlim : ∀ data : PageData K V, data.Fits f → F.limit data)
  (hs : Owns h (((Path.under frame up).plug t).pages f invalidPageId invalidPageId + R)
    ({frame.id} + ({t.id} + (E + G))) D l (M.wait w))
  {g : Bool → PageM (PageData K V) γ} {next : PageId}

include hr hsz hagain hlim hs in
theorem tryLeft
    (hfit : (frame.left.getLast?.any fun c => c.2.size + t.size ≤ Tree.maxSize f n) = true → ∀ h,
      Settled f ((Path.under frame up).plug t) R ({t.id} + E) G
        (if frame.left.length + frame.right.length < (f.internalMaxSize + 1) / 2 then
          up.borrows f (frame.left.length + frame.right.length) else none) l
        (M.spend (w + (if frame.left.isEmpty then 0 else b.toNat) +
          if frame.left.length + frame.right.length < (f.internalMaxSize + 1) / 2 then
            up.waits f (frame.left.length + frame.right.length) true else 0)) h → Meets F X (g true) h i Q)
    (hnot : (frame.left.getLast?.any fun c => c.2.size + t.size ≤ Tree.maxSize f n) = false → ∀ h,
      Owns h (((Path.under frame up).plug t).pages f invalidPageId invalidPageId + R)
        ({frame.id} + ({t.id} + (E + G))) D l (M.wait (w + if frame.left.isEmpty then 0 else b.toNat)) →
      Meets F X (g false) h i Q) :
    Meets F X (BPlusTree.coalesceLeft f again t.id frame.id (t.page f frame.id next) (frame.page up.parent t.id)
      (BPlusTree.leftSibIndex (some frame.left.length)) >>= g) h i Q := by
  have hcov := hr.covered_up
  have htidy := hr.tidy_left
  obtain ⟨q, left, key, right⟩ := frame
  rcases List.eq_nil_or_concat' left with rfl | ⟨A, ⟨k₁, s⟩, rfl⟩
  · exact hnot rfl h hs
  · obtain ⟨hmin, hmax, hleft, hright, hup⟩ := hsz
    dsimp only at hs hfit hnot hcov htidy hmin hmax hleft hright
    have hplug : (Path.under ⟨q, A ++ [(k₁, s)], key, right⟩ up).plug t =
        up.plug (.node q (A ++ (k₁, s) :: (key, t) :: right)) := Path.plug_left
    have hlen : (A ++ [(k₁, s)]).length = A.length + 1 := by rw [List.length_append, List.length_singleton]
    have hfirst : Tree.headLeaf t.firstLeaf (A ++ [(k₁, s)]) = Tree.headLeaf s.firstLeaf A := Tree.headLeaf_append
    have hsum : (A ++ [(k₁, s)]).length + right.length = A.length + (right.length + 1) := by omega
    have habove : ∀ x ∈ up.pages f q (Tree.headLeaf s.firstLeaf A),
        x ∈ Path.pages f (.under ⟨q, A ++ [(k₁, s)], key, right⟩ up) t.id t.firstLeaf := fun x hx =>
      Multiset.mem_add.mpr (.inr (by rwa [hfirst]))
    have hsmem : (k₁, s) ∈ A ++ [(k₁, s)] := List.mem_append_right A List.mem_cons_self
    have hsib : s.Sized f false := hleft _ hsmem
    have hweak : t.Weak f false := hr.weak
    have hroot := hr.root
    have hsome : ¬ (A ++ [(k₁, s)]).isEmpty = true := by simp
    rw [hplug] at hs hfit hnot hroot
    rw [hsum, if_neg hsome, ← Scope.spend_wait] at hfit
    rw [hsum] at hcov htidy
    rw [if_neg hsome] at hnot
    rw [List.getLast?_concat] at htidy
    rw [Path.page_left, hlen]
    refine Owns.coalesceLeft hlim hs hr.unlatched hr.freed hr.pinned (fun hm => (hr.apart _ hm).1 rfl) ?_ (fun _ => hsib.pos)
      hweak.pos hweak.2 (by omega) (fun hF => (hcov hF).1) (fun hF => (hr.covered hF).1)
      (fun hF hf => (htidy (decide_eq_true hf) hF).1) (fun hf h hs' => ?_) fun hf h hs' => ?_
    · obtain ⟨data, hmem⟩ := Tree.mem_forest f q t.firstLeaf hsmem
      exact hr.clean _ (Multiset.mem_add.mpr (.inl (Multiset.mem_add.mpr (.inl (Multiset.mem_add.mpr (.inr hmem))))))
    · rw [Scope.wait_wait] at hs'
      refine hs'.afterMerge (M := (M.wait (w + b.toNat)).free) hr.unlatched rfl hroot hup (by omega) (by omega) hagain
        ?_ (fun _ => hsib.pos) hr.pinned (.inr rfl)
        (Path.disjoint_pair hs.holds).2.2.1 (Path.disjoint_up hs.holds) ?_ (fun x hx => hr.clean x (habove x hx)) hcov
        (fun hF => (htidy (decide_eq_true hf) hF).2) (hfit ?_)
      · obtain ⟨hlow, _, hn⟩ := Tree.sized_iff.mp hsib
        exact Path.sized_merged (fun c hc => hleft c (List.mem_append_left _ hc)) hright (by omega) hf hn hweak.2
      · intro p hp
        exact ⟨((hr.apart p hp).2 _ Path.mem_frame).symm, fun x hx => (hr.apart p hp).2 x (habove x hx)⟩
      · rw [List.getLast?_concat]
        exact decide_eq_true hf
    · rw [Scope.wait_wait] at hs'
      refine hnot ?_ h hs'
      rw [List.getLast?_concat]
      exact decide_eq_false hf

include hr hsz hagain hlim hs in
theorem tryRight (hno : (frame.left.getLast?.any fun c => c.2.size + t.size ≤ Tree.maxSize f n) = false)
    (hfit : (frame.right.head?.any fun c => c.2.size + t.size ≤ Tree.maxSize f n) = true → ∀ h,
      Settled f ((Path.under frame up).plug t) R ({t.id} + E) G
        (if frame.left.length + frame.right.length < (f.internalMaxSize + 1) / 2 then
          up.borrows f (frame.left.length + frame.right.length) else none) l
        (M.spend (w + (if frame.right.isEmpty then 0 else b.toNat) +
          if frame.left.length + frame.right.length < (f.internalMaxSize + 1) / 2 then
            up.waits f (frame.left.length + frame.right.length) true else 0)) h → Meets F X (g true) h i Q)
    (hnot : (frame.right.head?.any fun c => c.2.size + t.size ≤ Tree.maxSize f n) = false → ∀ h,
      Owns h (((Path.under frame up).plug t).pages f invalidPageId invalidPageId + R)
        ({frame.id} + ({t.id} + (E + G))) D l (M.wait (w + if frame.right.isEmpty then 0 else b.toNat)) →
      Meets F X (g false) h i Q) :
    Meets F X (BPlusTree.coalesceRight f again t.id frame.id (t.page f frame.id next) (frame.page up.parent t.id)
      (frame.left.length + 1) >>= g) h i Q := by
  have hcov := hr.covered_up
  have htidy := hr.tidy_right hno
  obtain ⟨q, left, key, right⟩ := frame
  cases right with
  | nil =>
      unfold BPlusTree.coalesceRight
      rw [if_neg (by simp [Frame.page, InternalPage.size, Tree.refs])]
      exact hnot rfl h hs
  | cons r B =>
      obtain ⟨k₂, r⟩ := r
      obtain ⟨hmin, hmax, hleft, hright, hup⟩ := hsz
      dsimp only at hs hfit hnot hcov htidy hmin hmax hleft hright
      have hplug : (Path.under ⟨q, left, key, (k₂, r) :: B⟩ up).plug t =
        up.plug (.node q (left ++ (key, t) :: (k₂, r) :: B)) := rfl
      have habove : ∀ x ∈ up.pages f q (Tree.headLeaf t.firstLeaf left),
          x ∈ Path.pages f (.under ⟨q, left, key, (k₂, r) :: B⟩ up) t.id t.firstLeaf := fun x hx =>
        Multiset.mem_add.mpr (.inr hx)
      have hsib : r.Sized f false := hright (k₂, r) List.mem_cons_self
      have hweak : t.Weak f false := hr.weak
      have hroot := hr.root
      obtain ⟨data, hdata⟩ := Tree.mem_forest f q up.next (List.mem_cons_self (a := (k₂, r)) (l := B))
      have hrmem : (r.id, data) ∈ Path.pages f (.under ⟨q, left, key, (k₂, r) :: B⟩ up) t.id t.firstLeaf :=
        Multiset.mem_add.mpr (.inl (Multiset.mem_add.mpr (.inr hdata)))
      rw [hplug] at hs hfit hnot hroot
      rw [List.length_cons] at hfit hcov htidy hmin hmax
      rw [List.isEmpty_cons, if_neg Bool.false_ne_true, ← Scope.spend_wait] at hfit
      rw [List.isEmpty_cons, if_neg Bool.false_ne_true] at hnot
      rw [Path.page_right]
      refine Owns.coalesceRight hlim hs hr.unlatched hr.freed hr.pinned (fun hm => (hr.apart _ hm).2 _ hrmem rfl)
        (hr.clean _ hrmem) hweak.pos (fun _ => hsib.pos) (Tree.sized_iff.mp hsib).2.2 (by omega) (fun hF => (hcov hF).1)
        (fun hF => (hr.covered hF).1) (fun hF hm => (hr.tidy hF).2.2 _ hm (List.mem_append_left _ List.mem_cons_self))
        (fun hf h hs' => ?_) fun hf h hs' => hnot (decide_eq_false hf) h (by rwa [Scope.wait_wait] at hs')
      rw [Scope.wait_wait] at hs'
      refine hs'.afterMerge (M := (M.wait (w + b.toNat)).free) hr.unlatched rfl hroot hup (by omega) (by omega) hagain
        ?_ hweak.pos hr.pinned (.inl rfl)
        (Path.disjoint_pair hs.holds).2.2.1 (Path.disjoint_up hs.holds) ?_ (fun x hx => hr.clean x (habove x hx)) hcov
        (htidy (decide_eq_true hf)) (hfit (decide_eq_true hf))
      · obtain ⟨hlow, _, hn⟩ := Tree.sized_iff.mp hsib
        exact Path.sized_merged hleft (fun c hc => hright c (List.mem_cons_of_mem _ hc)) (by omega) (by omega) hweak.2 hn
      · intro p hp
        exact ⟨((hr.apart p hp).2 _ Path.mem_frame).symm, fun x hx => (hr.apart p hp).2 x (habove x hx)⟩

variable [Inhabited K]

include hr hsz hlim hs in
theorem lend (hleft : (frame.left.getLast?.any fun c => c.2.size + t.size ≤ Tree.maxSize f n) = false)
    (hright : (frame.right.head?.any fun c => c.2.size + t.size ≤ Tree.maxSize f n) = false) :
    Meets F X (do
      if ← BPlusTree.borrowLeft f t.id frame.id (t.page f frame.id next) (frame.page up.parent t.id)
        (BPlusTree.leftSibIndex (some frame.left.length)) then pure false
      else if ← BPlusTree.borrowRight f t.id frame.id (t.page f frame.id next) (frame.page up.parent t.id)
        (BPlusTree.rightSibIndex (some frame.left.length)) then pure false
      else PageM.throwRuntime "Not root, cannot merge, cannot redistribute? This shouldn't happen") h i fun r h' i' =>
      r = false ∧ i' = i ∧ Settled f ((Path.under frame up).plug t) R ({t.id} + E) G
        (some ⟨frame.id, n ≠ 0, !frame.left.isEmpty⟩) l (M.spend (w + b.toNat)) h' := by
  have hcov := hr.covered_up
  have hweak : t.Weak f false := hr.weak
  have hroot := hr.root
  obtain ⟨q, left, key, right⟩ := frame
  obtain ⟨hmin, hmax, hleft', hright', hup⟩ := hsz
  dsimp only at hs hcov hmin hmax hleft hright hleft' hright'
  rcases List.eq_nil_or_concat' left with rfl | ⟨A, ⟨k₁, s⟩, rfl⟩
  · cases right with
    | nil =>
        have h2 : 2 ≤ if up.isTop then 2 else (f.internalMaxSize + 1) / 2 := by
          have := f.three_le_internal
          split <;> omega
        exact absurd (h2.trans hmin) (Nat.lt_irrefl 1)
    | cons r B =>
        obtain ⟨k₂, r⟩ := r
        have hfits : ¬ r.size + t.size ≤ Tree.maxSize f n := of_decide_eq_false hright
        have hlt : 1 < (⟨up.parent, q, Tree.refs ([] ++ (key, t) :: (k₂, r) :: B)⟩ : InternalPage K).size := by
          rw [Path.length_pair]
          exact Nat.succ_lt_succ (Nat.succ_pos _)
        rw [Path.page_right]
        show Meets F X (BPlusTree.borrowRight f t.id q (t.page f q next)
          ⟨up.parent, q, Tree.refs ([] ++ (key, t) :: (k₂, r) :: B)⟩ 1 >>= _) h i _
        unfold BPlusTree.borrowRight
        rw [if_pos hlt, bind_assoc]
        refine meets_defined Path.valueAt_right ?_
        rw [List.length_cons] at hmin hmax
        refine Owns.borrowRight (M := M.wait w) hr.unlatched hroot hup (by omega) (by omega) nofun
          (fun c hc => hright' c (List.mem_cons_of_mem _ hc)) hlim (fun hF => (hcov hF).1) hr.freed hs hweak
          (hright' _ List.mem_cons_self) (Tree.lend_or_fit hweak.1 hfits) (fun hF => (hr.covered hF).1) fun h hset => ?_
        exact meets_pure ⟨rfl, rfl, Scope.spend_wait ▸ hset⟩
  · rw [List.getLast?_concat] at hleft
    have hfits : ¬ s.size + t.size ≤ Tree.maxSize f n := of_decide_eq_false hleft
    have hplug : (Path.under ⟨q, A ++ [(k₁, s)], key, right⟩ up).plug t =
        up.plug (.node q (A ++ (k₁, s) :: (key, t) :: right)) := Path.plug_left
    rw [List.length_append, List.length_singleton] at hmin hmax
    rw [Path.page_left, List.length_append, List.length_singleton]
    show Meets F X (BPlusTree.borrowLeft f t.id q (t.page f q next)
      ⟨up.parent, q, Tree.refs (A ++ (k₁, s) :: (key, t) :: right)⟩ (some A.length) >>= _) h i _
    unfold BPlusTree.borrowLeft
    rw [bind_assoc]
    refine meets_defined Path.valueAt_left ?_
    rw [hplug] at hs hroot ⊢
    refine Owns.borrowLeft (M := M.wait w) hr.unlatched hroot hup (by omega) (by omega)
      (fun c hc => hleft' c (List.mem_append_left _ hc))
      hright' hlim (fun hF => (hcov hF).1) hr.freed hs (hleft' _ (List.mem_append_right _ List.mem_cons_self)) hweak
      (Tree.lend_or_fit hweak.1 hfits) (fun hF => (hr.covered hF).1) fun h hset => ?_
    have hsome : (A ++ [(k₁, s)]).isEmpty = false := by cases A <;> rfl
    refine meets_pure ⟨rfl, rfl, ?_⟩
    rw [hsome, ← Scope.spend_wait]
    exact hset

end Ready

section cascade

variable [Inhabited K] {frame : Frame K (Tree K V n)} {up : Path K V (n + 1) N} {fuel : Nat}
  (hlim : ∀ data : PageData K V, data.Fits f → F.limit data)

include hlim

theorem cascades_under (hsz : Path.Sized f (.under frame up))
    (ih : Cascades F f up (BPlusTree.coalesceOrRedistribute f fuel)) :
    Cascades F f (.under frame up) (BPlusTree.coalesceOrRedistribute f (fuel + 1)) := by
  intro X h i t R E G D l M b hr
  have hframe : (frame.id, .internal (frame.page up.parent t.id)) ∈
      ((Path.under frame up).plug t).pages f invalidPageId invalidPageId + R := by
    rw [Path.pages_plug]
    exact Multiset.mem_add.mpr (.inl (Multiset.mem_add.mpr (.inl Path.mem_frame)))
  have hnotroot : ¬ (t.page f frame.id (Path.under frame up).next).isRootPage = true := by
    intro hc
    rw [TreePage.isRootPage, t.parentPageId_page] at hc
    exact ne_invalidPageId (hr.owns.live _ hframe).1 (of_decide_eq_true hc)
  have hids : ∀ c ∈ frame.left, c.2.id ≠ t.id := by
    intro c hc
    obtain ⟨data, hmem⟩ := Tree.mem_forest f frame.id t.firstLeaf hc
    have hd := hr.owns.holds.left
    rw [Path.pages_plug] at hd
    exact hd.disjoint (c.2.id, data) (Multiset.mem_add.mpr (.inl (Multiset.mem_add.mpr (.inl (Multiset.mem_add.mpr
      (.inr hmem)))))) _ t.mem_pages
  rw [BPlusTree.coalesceOrRedistribute]
  refine hr.owns.getTreePage (Path.mem_pages f (.under frame up) t R) (by simp) ?_
  show Meets F X (if (t.page f frame.id (Path.under frame up).next).isRootPage = true then _ else _) h i _
  rw [if_neg hnotroot, t.parentPageId_page]
  refine hr.owns.fetch hframe fun h hs => hs.getInternal hframe (by simp) ?_
  rw [t.pageId_page, Path.valueIndex_page frame hids]
  refine hr.tryLeft (w := 0) hsz ih hlim hs (fun hfit h hset => meets_pure ⟨rfl, rfl, ?_⟩) fun hleft h hs => ?_
  · rw [Nat.zero_add] at hset
    rw [Path.borrows, Path.waits, Path.mend, if_pos hfit]
    exact hset
  rw [Nat.zero_add] at hs
  refine hr.tryRight hsz ih hlim hs hleft (fun hfit h hset => meets_pure ⟨rfl, rfl, ?_⟩) fun hright h hs => ?_
  · rw [Path.borrows, Path.waits, Path.mend, if_neg (by rw [hleft]; exact Bool.false_ne_true), if_pos hfit]
    exact hset
  refine (hr.lend hsz hlim hs hleft hright).mono ?_
  rintro b h' i' ⟨hb, hi, hset⟩
  refine ⟨hb, hi, ?_⟩
  rw [Path.borrows, Path.waits, Path.mend, if_neg (by rw [hleft]; exact Bool.false_ne_true),
    if_neg (by rw [hright]; exact Bool.false_ne_true)]
  cases hempty : frame.left.isEmpty with
  | true =>
      rw [hempty] at hset
      exact hset
  | false =>
      rw [hempty] at hset
      exact hset

theorem cascades_top : Cascades F f (.top : Path K V N N) (BPlusTree.coalesceOrRedistribute f (fuel + 1)) := by
  intro X h i t R E G D l M b hr
  have hroot : (t.page f invalidPageId invalidPageId).isRootPage = true := by
    rw [TreePage.isRootPage, t.parentPageId_page]
    rfl
  have hweak : t.Weak f true := hr.weak
  have hcov : F.guarded → t.id ∈ l ∧ (t.size ≤ 1 → M.locked) := fun hF =>
    ⟨(hr.covered hF).1, fun hone => (hr.covered hF).2 fun _ => hone⟩
  have hG : t.id ∉ G := fun hm => (hr.apart _ hm).1 rfl
  rw [BPlusTree.coalesceOrRedistribute]
  refine hr.owns.getTreePage (Path.top.mem_pages f t R) (by simp) ?_
  show Meets F X (if (t.page f invalidPageId invalidPageId).isRootPage = true then _ else _) h i _
  rw [if_pos hroot]
  cases N with
  | zero => exact Owns.shrinkRoot_leaf hweak hr.owns hr.root hr.pinned hG hcov fun hF => (hr.tidy hF).2.1 rfl
  | succ N =>
      refine Owns.shrinkRoot_node hlim hweak hr.owns hr.root hr.pinned hG hcov fun hF hone => ?_
      have hsheds := (hr.tidy hF).1
      rw [Path.sheds, decide_eq_true (Nat.succ_ne_zero N), decide_eq_true hone] at hsheds
      cases hsheds

theorem cascades (path : Path K V n N) (hsz : path.Sized f) (hf : path.height < fuel) :
    Cascades F f path (BPlusTree.coalesceOrRedistribute f fuel) := by
  induction path generalizing fuel with
  | top =>
      obtain ⟨fuel, rfl⟩ := Nat.exists_eq_add_one_of_ne_zero (Nat.ne_of_gt hf)
      exact cascades_top hlim
  | under frame up ih =>
      obtain ⟨fuel, rfl⟩ := Nat.exists_eq_add_one_of_ne_zero (Nat.ne_of_gt (Nat.zero_lt_of_lt hf))
      exact cascades_under hlim hsz (ih hsz.2.2.2.2 (Nat.lt_of_succ_lt_succ hf))

end cascade

end Heap

end DBPlayground.Storage
