import DBPlayground.Storage.RemoveCall
import DBPlayground.Storage.TreeCalls
import Mathlib.Order.Interval.Set.LinearOrder

namespace DBPlayground.Storage

open Machine Footprint

section fits

variable {K V : Type} {f : Fanout} {n N : Nat} {parent next : PageId}

theorem Tree.fits_forest {cs : List (K × Tree K V n)}
    (h : ∀ c ∈ cs, ∀ parent next, ∀ x ∈ c.2.pages f parent next, x.2.Fits f) :
    ∀ x ∈ forest f parent next cs, x.2.Fits f := by
  induction cs with
  | nil =>
      intro x hx
      cases Multiset.notMem_zero x hx
  | cons c cs ih =>
      intro x hx
      rw [forest_cons] at hx
      rcases Multiset.mem_add.mp hx with hx | hx
      · exact h c List.mem_cons_self _ _ x hx
      · exact ih (fun d hd => h d (List.mem_cons_of_mem c hd)) x hx

theorem Tree.fits_pages (t : Tree K V n) (hmax : t.size ≤ maxSize f n) (hn : t.Nourished f) :
    ∀ x ∈ t.pages f parent next, x.2.Fits f := by
  induction n generalizing parent next with
  | zero =>
      intro x hx
      rw [Multiset.mem_singleton.mp hx]
      exact fits_page hmax
  | succ n ih =>
      intro x hx
      rw [pages_eq] at hx
      rcases Multiset.mem_add.mp hx with hx | hx
      · rw [Multiset.mem_singleton.mp hx]
        show (t.page f parent next).data.Fits f
        exact fits_page hmax
      · refine fits_forest (fun c hc parent next => ?_) x hx
        obtain ⟨_, hcmax, hcn⟩ := sized_iff.mp (hn c hc)
        exact ih c.2 hcmax hcn

theorem Tree.Sized.fits {t : Tree K V n} (h : t.Sized f false) (parent next : PageId) :
    ∀ x ∈ t.pages f parent next, x.2.Fits f := by
  obtain ⟨_, hmax, hn⟩ := Tree.sized_iff.mp h
  exact t.fits_pages hmax hn

theorem Path.fits_pages (path : Path K V n N) (h : path.Sized f) (root first : PageId) :
    ∀ x ∈ path.pages f root first, x.2.Fits f := by
  induction path generalizing root first with
  | top =>
      intro x hx
      cases Multiset.notMem_zero x hx
  | under frame up ih =>
      obtain ⟨_, hmax, hleft, hright, hup⟩ := h
      intro x hx
      rw [pages] at hx
      rcases Multiset.mem_add.mp hx with hx | hx
      · rcases Multiset.mem_add.mp hx with hx | hx
        · rcases Multiset.mem_add.mp hx with hx | hx
          · rw [Multiset.mem_singleton.mp hx]
            show (Tree.refs frame.left ++ (frame.key, root) :: Tree.refs frame.right).length ≤ f.internalMaxSize
            simpa [Tree.refs] using hmax
          · exact Tree.fits_forest (fun c hc => (hleft c hc).fits) x hx
        · exact Tree.fits_forest (fun c hc => (hright c hc).fits) x hx
      · exact ih hup _ _ x hx

theorem Keeps.ready {s : PageStore (PageData K V)} {path : Path K V n N} {t : Tree K V n}
    (hk : Keeps f s (some ⟨N, path.plug t⟩)) (limit : PageData K V → Prop) (ht : t.Weak f path.isTop) :
    Heap.Ready (.plain limit) f path t 0 0 0 ∅ s.pageSet
      { Scope.start s.members s.waits with freed := some s.freed } s.freed ((TupleStore.lift s).pin t.id) := by
  have hmem := path.mem_pages f t 0
  rw [add_zero] at hmem
  have hlive := hk.range _ hmem
  have hs := (hk.owns (Int.le_trans hlive.1 (Int.le_of_lt hlive.2))).pin (p := t.id) ⟨hlive.1, hlive.2, rfl⟩
  exact {
    weak := ht
    owns := { hs.of_eq (add_zero _).symm rfl subset_rfl with freed := fun _ hb => Option.some.inj hb }
    unlatched := rfl
    freed := rfl
    root := hk.root
    pinned := Multiset.zero_le _
    apart := fun p hp => absurd hp (Multiset.notMem_zero p)
    clean := fun _ _ => Set.notMem_empty _
    covered := False.elim
    tidy := False.elim }

end fits

namespace BPlusTree

variable {K V : Type} [LinearOrder K] [Inhabited K] {f : Fanout} {s : PageStore (PageData K V)} {fuel n N : Nat}

section pairs

/-- Two inner nodes with two leaves each. -/
def pairsStore (last : List (Nat × Nat)) (blocked : Nat → Bool) : PageStore (PageData Nat Nat) where
  pages
    | 0 => .leaf ⟨2, 4, 0, 1, [(1, 10)]⟩
    | 1 => .leaf ⟨2, 4, 1, 2, [(2, 20)]⟩
    | 2 => .leaf ⟨2, 5, 2, 3, [(3, 30)]⟩
    | 3 => .leaf ⟨2, 5, 3, invalidPageId, last⟩
    | 4 => .internal ⟨6, 4, [(1, 0), (2, 1)]⟩
    | 5 => .internal ⟨6, 5, [(3, 2), (4, 3)]⟩
    | 6 => .internal ⟨invalidPageId, 6, [(1, 4), (3, 5)]⟩
    | _ => .zero
  nextPageId := 7
  members _ := 6
  pageSet := []
  blocked := blocked

variable {last : List (Nat × Nat)} {blocked : Nat → Bool}

end pairs

end BPlusTree

namespace PageStore

variable {K V : Type} (x : PageStore (PageData K V) × Watch)

end PageStore

/-- A sibling that the removal of a key latches after it has deleted a page is in a frame that
the call still has latched. -/
def Index.Waits {K V : Type} [LinearOrder K] (f : Fanout) (x : K) (s : PageStore (PageData K V)) : Index K V → Prop
  | none => False
  | some T => ∃ (path : Path K V 0 T.1) (t : Tree K V 0), path.plug t = T.2 ∧ x ∈ path.window Set.univ ∧
      ∃ j < path.removalWaits f t x, s.blocked (s.waits + j) = true

namespace BPlusTree

open PageStore

variable {K V : Type} [LinearOrder K] [Inhabited K] {f : Fanout} {s : PageStore (PageData K V)} {x : K} {fuel N : Nat}

end BPlusTree

section reach

variable {K V : Type} {f : Fanout} {n : Nat}

end reach

namespace BPlusTree

open PageStore

variable {K V : Type} [LinearOrder K] [Inhabited K] {f : Fanout} {s : PageStore (PageData K V)} {x : K} {fuel : Nat}

end BPlusTree

end DBPlayground.Storage
