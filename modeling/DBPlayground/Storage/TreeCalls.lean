import DBPlayground.Storage.InsertCall
import DBPlayground.Storage.TreeScan

namespace DBPlayground.Storage

open Machine Footprint

/-- Every `NewPage` succeeds, and `limit` says what may be written. -/
def Regime.plain {K V : Type} (limit : PageData K V → Prop) : Regime K V := ⟨fun _ => false, False, limit, False⟩

variable {K V : Type} {f : Fanout} {s : PageStore (PageData K V)} {ix : Index K V}

theorem Keeps.owns (hk : Keeps f s ix) (hn : 0 ≤ s.nextPageId) :
    Heap.Owns (TupleStore.lift s) (ix.pages f) 0 ∅ s.pageSet (.start s.members s.waits) where
  holds := hk.holds
  live x hx := ⟨(hk.range x hx).1, (hk.range x hx).2, rfl⟩
  pins _ _ := rfl
  held := nofun
  pending := nofun
  pageSet := rfl
  members := rfl
  fresh _ _ := rfl
  next := hn
  created := nofun
  latched := nofun
  locked := False.elim
  freed := nofun
  waits := rfl

theorem Heap.Owns.keeps {h : Heap (PageData K V)} {R : Multiset (PageId × PageData K V)} {E : Multiset PageId}
    {D : Set PageId} {l : List PageId} {M : Scope} (hs : Owns h (ix.pages f + R) E D l M)
    (hroot : M.members .rootPageId = ix.rootPageId) : Keeps f h.erase ix where
  root := (congrFun hs.members _).trans hroot
  holds := hs.holds.left
  range x hx :=
    have hlive := hs.live x (Multiset.mem_add.mpr (.inl hx))
    ⟨hlive.1, hlive.2.1⟩

namespace BPlusTree

variable [LinearOrder K] [Inhabited K]

omit [Inhabited K] in
theorem getValue_returns (hk : Keeps f s ix) (hw : ix.WellFormed f) (hn : 0 ≤ s.nextPageId) (x : K) {fuel : Nat}
    (hf : ix.depth < fuel) :
    ∃ out s', Returns PageStore.handler (getValue f fuel x) s out s' ∧ ∀ v, out = some v ↔ (x, v) ∈ ix.contents := by
  cases ix with
  | none =>
      refine ⟨none, s, ends_perform rfl ?_, fun v => ⟨nofun, nofun⟩⟩
      rw [if_pos (show s.members .rootPageId = invalidPageId from hk.root)]
      rfl
  | some t =>
      have hs := hk.owns hn
      rw [← add_zero (Index.pages f _)] at hs
      obtain ⟨out, h', i', hr, _, hout, _⟩ := (hs.getValue hw.1 (fun _ _ => rfl) rfl rfl hk.root hf (x := x) (i := 0)
        (F := .plain fun _ => False) (X := fun _ _ => False)).returns (fun _ => rfl) (fun _ => False.elim)
        fun _ _ _ hq => hq.2.2.waits
      exact ⟨out, _, hr, hout⟩

/-- `Insert` says whether the key was new, and leaves a well-formed tree with the pair
added if it was, in which `GetValue` finds exactly the contents. -/
theorem insert_then_getValue (hin : f.InPage 1) (hk : Keeps f s ix) (hw : ix.WellFormed f) (hn : 0 ≤ s.nextPageId) (x : K)
    (v : V) {fuel : Nat} (hf : ix.depth < fuel) :
    ∃ r s' ix', Returns PageStore.handler (insert f fuel x v) s r s' ∧ Keeps f s' ix' ∧ Index.WellFormed f ix' ∧
      (r = true ↔ ∀ w, (x, w) ∉ ix.contents) ∧
      (∀ e, e ∈ ix'.contents ↔ r = true ∧ e = (x, v) ∨ e ∈ ix.contents) ∧
      ∀ k fuel', ix'.depth < fuel' → ∃ out s'', Returns PageStore.handler (getValue f fuel' k) s' out s'' ∧
        ∀ w, out = some w ↔ (k, w) ∈ ix'.contents := by
  have hs := hk.owns hn
  rw [← add_zero (Index.pages f _)] at hs
  obtain ⟨r, h', i', hr, ix', l', _, hw', hr', hc, hs'⟩ := (hs.insert (F := .plain (PageData.Roomy f))
    (X := fun _ _ => False) (i := 0) (fun _ => id) (fun _ => rfl) hw (fun _ _ => rfl) rfl rfl hk.root hf).returns
    (fun _ => rfl) (fun _ (hd : PageData.Roomy f _) => hd.inside hin) (by
      rintro _ _ _ ⟨_, _, _, _, _, _, hs'⟩
      exact hs'.waits)
  have hk' : Keeps f h'.erase ix' := hs'.keeps (Scope.members_setMember _)
  exact ⟨r, _, ix', hr, hk', hw', hr', hc, fun k fuel' hf' => getValue_returns hk' hw' hs'.next k hf'⟩

def narrow : Fanout := ⟨2, 3, by decide, by decide⟩

def rootLeaf (f : Fanout) (es : List (Nat × Nat)) : PageStore (PageData Nat Nat) where
  pages _ := .leaf ⟨f.leafMaxSize, invalidPageId, 0, invalidPageId, es⟩
  nextPageId := 1
  members _ := 0
  pageSet := []

theorem keeps_rootLeaf (f : Fanout) (es : List (Nat × Nat)) : Keeps f (rootLeaf f es) (some ⟨0, .leaf 0 es⟩) where
  root := rfl
  holds := ⟨Multiset.nodup_singleton _, fun x hx => by rw [Multiset.mem_singleton.mp hx]; rfl⟩
  range x hx := by
    rw [Multiset.mem_singleton.mp hx]
    exact ⟨Int.le_refl 0, Int.one_pos⟩

theorem wellFormed_rootLeaf {f : Fanout} {es : List (Nat × Nat)} (hs : es.Pairwise (·.1 < ·.1))
    (hlen : es.length ≤ f.leafMaxSize - 1) : Index.WellFormed f (some ⟨0, (.leaf 0 es : Tree Nat Nat 0)⟩) :=
  ⟨⟨hs, fun _ _ => trivial⟩, nofun, hlen⟩

def fullRoot : PageStore (PageData Nat Nat) := rootLeaf narrow [(5, 50)]

theorem keeps_fullRoot : Keeps narrow fullRoot (some ⟨0, .leaf 0 [(5, 50)]⟩) := keeps_rootLeaf narrow _

theorem wellFormed_fullRoot : Index.WellFormed narrow (some ⟨0, (.leaf 0 [(5, 50)] : Tree Nat Nat 0)⟩) :=
  wellFormed_rootLeaf (List.pairwise_singleton _ _) (Nat.le_refl 1)

/-- An insertion that splits the root. -/
theorem insert_into_fullRoot : ∃ s' ix', Returns PageStore.handler (insert narrow 1 7 70) fullRoot true s' ∧
    Keeps narrow s' ix' ∧ ∀ e, e ∈ ix'.contents ↔ e = (7, 70) ∨ e = (5, 50) := by
  obtain ⟨r, s', ix', hr, hk, _, hnew, hc, _⟩ :=
    insert_then_getValue (by decide) keeps_fullRoot wellFormed_fullRoot Int.one_nonneg 7 70 (Nat.lt_add_one 0)
  have hcontents : Index.contents (some ⟨0, (.leaf 0 [(5, 50)] : Tree Nat Nat 0)⟩) = [(5, 50)] := rfl
  rw [hcontents] at hnew hc
  obtain rfl : r = true := hnew.mpr (by simp)
  refine ⟨s', ix', hr, hk, fun e => ?_⟩
  rw [hc]
  simp

/-- A leaf may have one entry more than a page has room for, before it is split. -/
def overwide : Fanout := ⟨1023, 3, by decide, by decide⟩

def crowd : List (Nat × Nat) := (List.range 1022).map fun i => (i, i)

theorem wellFormed_crowd : Index.WellFormed overwide (some ⟨0, (.leaf 0 crowd : Tree Nat Nat 0)⟩) := by
  refine wellFormed_rootLeaf (List.pairwise_map.mpr List.pairwise_lt_range) ?_
  rw [crowd, List.length_map, List.length_range]
  exact Nat.le_refl 1022

/-- The entry that makes a split necessary is written past the end of the page. -/
theorem insert_past_page : Keeps overwide (rootLeaf overwide crowd) (some ⟨0, .leaf 0 crowd⟩) ∧
    Index.WellFormed overwide (some ⟨0, (.leaf 0 crowd : Tree Nat Nat 0)⟩) ∧
    ∀ r s', ¬ Returns PageStore.handler (insert overwide 1 1022 7) (rootLeaf overwide crowd) r s' := by
  refine ⟨keeps_rootLeaf overwide crowd, wellFormed_crowd, fun r s' hr => ?_⟩
  have hnone : (run PageStore.handler (insert overwide 1 1022 7).run (rootLeaf overwide crowd)).isNone = true := by
    decide +kernel
  rw [show run PageStore.handler (insert overwide 1 1022 7).run (rootLeaf overwide crowd) = _ from hr] at hnone
  cases hnone

end BPlusTree

end DBPlayground.Storage
