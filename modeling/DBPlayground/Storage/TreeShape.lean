import DBPlayground.Lib.Footprint
import DBPlayground.Lib.Separators
import DBPlayground.Storage.BPlusTree
import Mathlib.Algebra.Order.Group.Multiset
import Mathlib.Tactic.Abel

namespace DBPlayground.Storage

open Separators Footprint

theorem ne_invalidPageId {p : PageId} (h : 0 ≤ p) : p ≠ invalidPageId := by
  rintro rfl
  exact absurd h (by decide)

structure Leaf (K V : Type) where
  id : PageId
  entries : List (K × V)

/-- An inner node over subtrees. The key of its first child is not used. -/
structure Node (K A : Type) where
  id : PageId
  children : List (K × A)

/-- The trees all of whose leaves are at depth `n`. -/
def Tree (K V : Type) : Nat → Type
  | 0 => Leaf K V
  | n + 1 => Node K (Tree K V n)

namespace Tree

variable {K V : Type} {n : Nat}

def leaf (id : PageId) (entries : List (K × V)) : Tree K V 0 := Leaf.mk id entries

def node (id : PageId) (children : List (K × Tree K V n)) : Tree K V (n + 1) := Node.mk id children

def id : {n : Nat} → Tree K V n → PageId
  | 0, t => Leaf.id t
  | _ + 1, t => Node.id t

def contents : {n : Nat} → Tree K V n → List (K × V)
  | 0, t => Leaf.entries t
  | _ + 1, t => (Node.children t).flatMap fun c => contents c.2

def firstLeaf : {n : Nat} → Tree K V n → PageId
  | 0, t => Leaf.id t
  | _ + 1, t =>
    match Node.children t with
    | [] => invalidPageId
    | c :: _ => firstLeaf c.2

def headLeaf (next : PageId) : List (K × Tree K V n) → PageId
  | [] => next
  | c :: _ => c.2.firstLeaf

def refs (cs : List (K × Tree K V n)) : List (K × PageId) := cs.map fun c => (c.1, c.2.id)

def page (f : Fanout) (parent next : PageId) : {n : Nat} → Tree K V n → TreePage K V
  | 0, t => .leaf ⟨f.leafMaxSize, parent, Leaf.id t, next, Leaf.entries t⟩
  | _ + 1, t => .internal ⟨parent, Node.id t, refs (Node.children t)⟩

def chain {A X : Type} (pages : PageId → A → Multiset X) (first : A → PageId) (next : PageId) : List (K × A) → Multiset X
  | [] => 0
  | [c] => pages next c.2
  | c :: d :: rest => pages (first d.2) c.2 + chain pages first next (d :: rest)

def pages (f : Fanout) : {n : Nat} → (parent next : PageId) → Tree K V n → Multiset (PageId × PageData K V)
  | 0, parent, next, t => {(t.id, (t.page f parent next).data)}
  | n + 1, parent, next, t => {(t.id, (t.page f parent next).data)} +
      chain (fun next (c : Tree K V n) => pages f (Node.id t) next c) firstLeaf next (Node.children t)

def forest (f : Fanout) (parent next : PageId) (cs : List (K × Tree K V n)) : Multiset (PageId × PageData K V) :=
  chain (pages f parent) firstLeaf next cs

def below (f : Fanout) (next : PageId) : {n : Nat} → Tree K V n → Multiset (PageId × PageData K V)
  | 0, _ => 0
  | _ + 1, t => forest f (Node.id t) next (Node.children t)

variable {f : Fanout} {parent next : PageId} {cs ds : List (K × Tree K V n)} {c : K × Tree K V n}

theorem pages_eq (t : Tree K V n) : t.pages f parent next = {(t.id, (t.page f parent next).data)} + t.below f next := by
  cases n with
  | zero => exact (add_zero _).symm
  | succ n => rfl

theorem mem_pages (t : Tree K V n) : (t.id, (t.page f parent next).data) ∈ t.pages f parent next := by
  rw [pages_eq]
  exact mem_front

theorem parentPageId_page (t : Tree K V n) : (t.page f parent next).parentPageId = parent := by
  cases n <;> rfl

theorem pages_node (id : PageId) : (node id cs).pages f parent next =
    {(id, .internal ⟨parent, id, refs cs⟩)} + forest f id next cs := rfl

theorem refs_append : refs (cs ++ ds) = refs cs ++ refs ds := List.map_append

theorem refs_cons : refs (c :: cs) = (c.1, c.2.id) :: refs cs := rfl

theorem headLeaf_append : headLeaf next (cs ++ ds) = headLeaf (headLeaf next ds) cs := by
  cases cs <;> rfl

theorem forest_nil : forest f parent next ([] : List (K × Tree K V n)) = 0 := rfl

theorem forest_cons : forest f parent next (c :: cs) = c.2.pages f parent (headLeaf next cs) + forest f parent next cs := by
  cases cs with
  | nil => exact (add_zero _).symm
  | cons d rest => rfl

theorem forest_append :
    forest f parent next (cs ++ ds) = forest f parent (headLeaf next ds) cs + forest f parent next ds := by
  induction cs with
  | nil => rw [List.nil_append, forest_nil, zero_add]
  | cons c cs ih => rw [List.cons_append, forest_cons, ih, forest_cons, headLeaf_append, add_assoc]

theorem mem_forest (f : Fanout) (parent next : PageId) (h : c ∈ cs) : ∃ data, (c.2.id, data) ∈ forest f parent next cs := by
  induction cs with
  | nil => cases h
  | cons d cs ih =>
      rw [forest_cons]
      rcases List.mem_cons.mp h with rfl | h
      · exact ⟨_, Multiset.mem_add.mpr (.inl c.2.mem_pages)⟩
      · obtain ⟨data, hdata⟩ := ih h
        exact ⟨data, Multiset.mem_add.mpr (.inr hdata)⟩

section order

variable [LinearOrder K]

/-- The keys are in order and lie in the interval, those of each child between
the separators around it. -/
def Bounded : (I : Set K) → {n : Nat} → Tree K V n → Prop
  | I, 0, t => (Leaf.entries t).Pairwise (·.1 < ·.1) ∧ ∀ e ∈ Leaf.entries t, e.1 ∈ I
  | I, n + 1, t => Spans (fun I (c : Tree K V n) => Bounded I c) I (Node.children t)

theorem lookupFrom_refs {P : Set K → Tree K V n → Prop} {I : Set K} {x : K} {t : Tree K V n} (k₀ : K) (hx : x ∈ I)
    (h : SpansFrom P I t cs) : ∃ l k u r, (k₀, t) :: cs = l ++ (k, u) :: r ∧
      InternalPage.lookupFrom x t.id (refs cs) = u.id ∧ x ∈ Separators.window I l k r := by
  induction cs generalizing I t k₀ with
  | nil =>
      refine ⟨[], k₀, t, [], rfl, rfl, ?_⟩
      rw [Separators.window_nil]
      exact hx
  | cons c cs ih =>
      obtain ⟨k', t'⟩ := c
      obtain ⟨_, _, _, hrest⟩ := h
      rw [refs_cons, InternalPage.lookupFrom]
      by_cases hlt : x < k'
      · refine ⟨[], k₀, t, _, rfl, if_pos hlt, ?_⟩
        rw [Separators.window_right]
        exact ⟨hx, hlt⟩
      · have hle := le_of_not_gt hlt
        obtain ⟨l, k, u, r, heq, hu, hw⟩ := ih k' (show x ∈ I ∩ Set.Ici k' from ⟨hx, hle⟩) hrest
        refine ⟨(k₀, t) :: l, k, u, r, congrArg _ heq, (if_neg hlt).trans hu, hx, fun _ => ?_, hw.2.2⟩
        cases l with
        | nil =>
            obtain ⟨rfl, _⟩ := Prod.mk.inj (List.cons.inj heq).1
            exact hle
        | cons d l => exact hw.2.1 (List.cons_ne_nil d l)

theorem lookup_refs {P : Set K → Tree K V n → Prop} {I : Set K} {x : K} {page : InternalPage K} (hx : x ∈ I)
    (h : Spans P I cs) (hp : page.array = refs cs) : ∃ l k u r, cs = l ++ (k, u) :: r ∧
      page.lookup x = some u.id ∧ x ∈ Separators.window I l k r := by
  cases cs with
  | nil => cases h
  | cons c cs =>
      obtain ⟨l, k, u, r, heq, hu, hw⟩ := lookupFrom_refs c.1 hx h
      refine ⟨l, k, u, r, heq, ?_, hw⟩
      rw [InternalPage.lookup, hp, refs_cons]
      exact congrArg some hu

theorem Bounded.contents {I : Set K} {t : Tree K V n} (h : Bounded I t) :
    t.contents.Pairwise (·.1 < ·.1) ∧ ∀ e ∈ t.contents, e.1 ∈ I := by
  induction n generalizing I with
  | zero => exact h
  | succ n ih =>
      obtain ⟨id, cs⟩ := t
      change Spans (fun I (c : Tree K V n) => Bounded I c) I cs at h
      show (cs.flatMap fun c => c.2.contents).Pairwise _ ∧ ∀ e ∈ cs.flatMap fun c => c.2.contents, e.1 ∈ I
      cases cs with
      | nil => cases h
      | cons c cs =>
          refine ⟨SpansFrom.sorted (fun I t h => ih h) h, fun e he => ?_⟩
          obtain ⟨hc, hcs⟩ := SpansFrom.mem (g := Prod.fst) (C := Tree.contents) (fun I t h => (ih h).2) h
          rw [List.flatMap_cons, List.mem_append, List.mem_flatMap] at he
          rcases he with he | ⟨d, hd, he⟩
          · exact hc e he
          · exact hcs d hd e he

end order

/-- The nodes have as many entries as they may have; a root may have fewer. -/
def Sized (f : Fanout) : (root : Bool) → {n : Nat} → Tree K V n → Prop
  | root, 0, t =>
    (root = false → f.leafMaxSize / 2 ≤ (Leaf.entries t).length) ∧ (Leaf.entries t).length ≤ f.leafMaxSize - 1
  | root, n + 1, t =>
    (if root then 2 else (f.internalMaxSize + 1) / 2) ≤ (Node.children t).length ∧
      (Node.children t).length ≤ f.internalMaxSize ∧ ∀ c ∈ Node.children t, Sized f false (n := n) c.2

def leaves : {n : Nat} → Tree K V n → List (Leaf K V)
  | 0, t => [t]
  | _ + 1, t => (Node.children t).flatMap fun c => leaves c.2

theorem contents_leaves (t : Tree K V n) : t.contents = t.leaves.flatMap Leaf.entries := by
  induction n with
  | zero => exact (List.append_nil _).symm
  | succ n ih =>
      show (Node.children t).flatMap _ = ((Node.children t).flatMap fun c => leaves c.2).flatMap _
      rw [List.flatMap_assoc]
      exact congrArg (List.flatMap · _) (funext fun c => ih c.2)

end Tree

structure Frame (K A : Type) where
  id : PageId
  left : List (K × A)
  key : K
  right : List (K × A)

/-- The page of a node whose hole is filled by the subtree at page `root`. -/
def Frame.page {K V : Type} {n : Nat} (frame : Frame K (Tree K V n)) (parent root : PageId) : InternalPage K :=
  ⟨parent, frame.id, Tree.refs frame.left ++ (frame.key, root) :: Tree.refs frame.right⟩

/-- The way from the root of a tree of depth `N` down to a hole of depth `n`. -/
inductive Path (K V : Type) : Nat → Nat → Type
  | top {N : Nat} : Path K V N N
  | under {n N : Nat} (frame : Frame K (Tree K V n)) (up : Path K V (n + 1) N) : Path K V n N

namespace Path

variable {K V : Type} {n N : Nat}

def fill (frame : Frame K (Tree K V n)) (t : Tree K V n) (ts : List (K × Tree K V n)) : Tree K V (n + 1) :=
  .node frame.id (frame.left ++ (frame.key, t) :: (ts ++ frame.right))

def plug : {n : Nat} → Path K V n N → Tree K V n → Tree K V N
  | _, .top, t => t
  | _, .under frame up, t => plug up (fill frame t [])

def isTop : Path K V n N → Bool
  | .top => true
  | .under _ _ => false

def parent : Path K V n N → PageId
  | .top => invalidPageId
  | .under frame _ => frame.id

def next : {n : Nat} → Path K V n N → PageId
  | _, .top => invalidPageId
  | _, .under frame up => Tree.headLeaf (next up) frame.right

def before : {n : Nat} → Path K V n N → List (K × V)
  | _, .top => []
  | _, .under frame up => before up ++ frame.left.flatMap fun c => c.2.contents

def after : {n : Nat} → Path K V n N → List (K × V)
  | _, .top => []
  | _, .under frame up => frame.right.flatMap (fun c => c.2.contents) ++ after up

/-- The pages around the hole, which is filled by a tree with this root and this
first leaf. -/
def pages (f : Fanout) : {n : Nat} → Path K V n N → (root first : PageId) → Multiset (PageId × PageData K V)
  | _, .top, _, _ => 0
  | _, .under frame up, root, first =>
    {(frame.id, .internal (frame.page up.parent root))} +
    Tree.forest f frame.id first frame.left + Tree.forest f frame.id up.next frame.right +
    pages f up frame.id (Tree.headLeaf first frame.left)

theorem contents_fill (frame : Frame K (Tree K V n)) (t : Tree K V n) (ts : List (K × Tree K V n)) :
    (fill frame t ts).contents = (frame.left.flatMap fun c => c.2.contents) ++
      ((t.contents ++ ts.flatMap fun c => c.2.contents) ++ frame.right.flatMap fun c => c.2.contents) := by
  show (frame.left ++ (frame.key, t) :: (ts ++ frame.right)).flatMap _ = _
  rw [List.flatMap_append, List.flatMap_cons, List.flatMap_append, List.append_assoc t.contents]

theorem contents_plug (path : Path K V n N) (t : Tree K V n) :
    (path.plug t).contents = path.before ++ (t.contents ++ path.after) := by
  induction path with
  | top => exact (List.append_nil _).symm
  | under frame up ih =>
      rw [plug, ih, contents_fill, before, after, List.flatMap_nil, List.append_nil]
      simp only [List.append_assoc]

theorem firstLeaf_fill (frame : Frame K (Tree K V n)) (t : Tree K V n) (ts : List (K × Tree K V n)) :
    (fill frame t ts).firstLeaf = Tree.headLeaf t.firstLeaf frame.left := by
  show (match frame.left ++ (frame.key, t) :: (ts ++ frame.right) with
    | [] => invalidPageId
    | c :: _ => c.2.firstLeaf) = _
  cases frame.left <;> rfl

theorem pages_plug (f : Fanout) (path : Path K V n N) (t : Tree K V n) :
    (path.plug t).pages f invalidPageId invalidPageId =
      path.pages f t.id t.firstLeaf + t.pages f path.parent path.next := by
  induction path with
  | top => exact (zero_add _).symm
  | under frame up ih =>
      rw [plug, ih, firstLeaf_fill, fill, Tree.pages_node, Tree.forest_append, Tree.forest_cons, Tree.refs_append,
        Tree.refs_cons, pages, Frame.page]
      simp only [Tree.headLeaf, parent, next, List.nil_append]
      rw [show (Tree.node frame.id (frame.left ++ (frame.key, t) :: frame.right)).id = frame.id from rfl]
      abel

theorem mem_pages (f : Fanout) (path : Path K V n N) (t : Tree K V n) (R : Multiset (PageId × PageData K V)) :
    (t.id, (t.page f path.parent path.next).data) ∈ (path.plug t).pages f invalidPageId invalidPageId + R := by
  rw [path.pages_plug]
  exact Multiset.mem_add.mpr (.inl (Multiset.mem_add.mpr (.inr t.mem_pages)))

section order

variable [LinearOrder K] {I : Set K} {t t' : Tree K V n}

def window (I : Set K) : {n : Nat} → Path K V n N → Set K
  | _, .top => I
  | _, .under frame up => Separators.window (window I up) frame.left frame.key frame.right

theorem bounded_plug (path : Path K V n N) (h : (path.plug t).Bounded I) :
    t.Bounded (path.window I) ∧ ∀ t' : Tree K V n, t'.Bounded (path.window I) → (path.plug t').Bounded I := by
  induction path with
  | top => exact ⟨h, fun t' h' => h'⟩
  | under frame up ih =>
      obtain ⟨hnode, hup⟩ := ih h
      obtain ⟨ht, hfill⟩ := spans_focus [] hnode
      exact ⟨ht, fun t' h' => hup _ (hfill t' [] h')⟩

theorem sides (path : Path K V n N) (h : (path.plug t).Bounded I) {x : K} (hx : x ∈ path.window I) :
    (∀ e ∈ path.before, e.1 < x) ∧ ∀ e ∈ path.after, x < e.1 := by
  induction path with
  | top => exact ⟨nofun, nofun⟩
  | under frame up ih =>
      obtain ⟨hbefore, hafter⟩ := ih h (Separators.window_subset hx)
      obtain ⟨hleft, hright⟩ := Spans.sides (g := Prod.fst) (C := Tree.contents) (fun I t h => h.contents.2)
        (up.bounded_plug h).1 hx
      constructor
      · intro e he
        rcases List.mem_append.mp he with he | he
        · exact hbefore e he
        · obtain ⟨c, hc, he⟩ := List.mem_flatMap.mp he
          exact hleft c hc e he
      · intro e he
        rcases List.mem_append.mp he with he | he
        · obtain ⟨c, hc, he⟩ := List.mem_flatMap.mp he
          exact hright c hc e he
        · exact hafter e he

theorem mem_contents (path : Path K V n N) (h : (path.plug t).Bounded I) {x : K} (hx : x ∈ path.window I) {v : V} :
    (x, v) ∈ (path.plug t).contents ↔ (x, v) ∈ t.contents := by
  obtain ⟨hbefore, hafter⟩ := path.sides h hx
  have hb : (x, v) ∉ path.before := fun hm => lt_irrefl x (hbefore _ hm)
  have ha : (x, v) ∉ path.after := fun hm => lt_irrefl x (hafter _ hm)
  rw [contents_plug, List.mem_append, List.mem_append, or_iff_right hb, or_iff_left ha]

end order

variable {f : Fanout} {t : Tree K V n}

theorem sized_plug (path : Path K V n N) (h : (path.plug t).Sized f true) :
    t.Sized f path.isTop ∧ ∀ t' : Tree K V n, t'.Sized f path.isTop → (path.plug t').Sized f true := by
  induction path with
  | top => exact ⟨h, fun t' h' => h'⟩
  | under frame up ih =>
      obtain ⟨⟨hmin, hmax, hcs⟩, hup⟩ := ih h
      refine ⟨hcs (frame.key, t) (List.mem_append_right _ List.mem_cons_self), fun t' h' => hup _ ⟨?_, ?_, ?_⟩⟩
      · simpa [fill, Tree.node] using hmin
      · simpa [fill, Tree.node] using hmax
      · intro c hc
        rcases List.mem_append.mp hc with hc | hc
        · exact hcs c (List.mem_append_left _ hc)
        · rcases List.mem_cons.mp hc with rfl | hc
          · exact h'
          · exact hcs c (List.mem_append_right _ (List.mem_cons_of_mem _ hc))

end Path

/-- What the members and pages of a `BPlusTree` stand for: no tree, or one of some
depth. -/
abbrev Index (K V : Type) := Option (Σ n, Tree K V n)

namespace Index

variable {K V : Type}

def contents : Index K V → List (K × V)
  | none => []
  | some t => t.2.contents

def rootPageId : Index K V → PageId
  | none => invalidPageId
  | some t => t.2.id

def pages (f : Fanout) : Index K V → Multiset (PageId × PageData K V)
  | none => 0
  | some t => t.2.pages f invalidPageId invalidPageId

/-- The keys are in order between the separators, and the nodes have as many
entries as they may have. -/
def WellFormed [LinearOrder K] (f : Fanout) : Index K V → Prop
  | none => True
  | some t => t.2.Bounded Set.univ ∧ t.2.Sized f true

end Index

end DBPlayground.Storage
