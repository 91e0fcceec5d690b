import DBPlayground.Storage.PinBalance

namespace DBPlayground.Storage

open Machine BufferPool Footprint

theorem Tree.Sized.children_pos {K V : Type} {f : Fanout} {n : Nat} {T : Tree K V (n + 1)} {root : Bool}
    (h : T.Sized f root) : 0 < (Node.children T).length := by
  have := f.three_le_internal
  obtain ⟨hlow, _⟩ := h
  split at hlow <;> omega

section denotes

variable {K V : Type} {ix ix' : Index K V} {m : K → Option V} {x : K}

theorem Index.Denotes.insert [DecidableEq K] {v : V} {b : Bool} (hm : ix.Denotes m) (hb : b = (m x).isNone)
    (hc : ∀ e, e ∈ ix'.contents ↔ b = true ∧ e = (x, v) ∨ e ∈ ix.contents) :
    ix'.Denotes (if (m x).isNone then Function.update m x (some v) else m) := by
  intro k w
  rw [hc, ← hm]
  cases hx : m x with
  | some u => simp [hb, hx]
  | none =>
      by_cases hk : k = x
      · subst hk
        simp [hb, hx, eq_comm]
      · simp [hb, hx, hk]

theorem Index.Denotes.remove [DecidableEq K] (hm : ix.Denotes m)
    (hc : ∀ e, e ∈ ix'.contents ↔ e ∈ ix.contents ∧ e.1 ≠ x) : ix'.Denotes (Function.update m x none) := by
  intro k w
  rw [hc, ← hm]
  by_cases hk : k = x
  · subst hk
    simp
  · simp [hk]

end denotes

inductive TreeCall (K V : Type)
  | getValue (x : K)
  | insert (x : K) (v : V)
  | remove (x : K)

inductive TreeReply (V : Type)
  | found (out : Option V)
  | inserted (b : Bool)
  | removed

namespace TreeCall

variable {n : Nat} {K V : Type} [LinearOrder K]

def Borrows (f : Fanout) (ix : Index K V) : TreeCall K V → Prop
  | .remove x => ix.Borrows f x
  | _ => False

variable [Inhabited K]

def run (f : Fanout) (fuel : Nat) : TreeCall K V → PageM (PageData K V) (TreeReply V)
  | .getValue x => do pure (.found (← BPlusTree.getValue f fuel x))
  | .insert x v => do pure (.inserted (← BPlusTree.insert f fuel x v))
  | .remove x => do
    BPlusTree.remove f fuel x
    pure .removed

variable {f : Fanout} {s : Session n (PageData K V)} {ix : Index K V} {fuel : Nat}

/-- A call gives back every pin that it took, unless a `Remove` ends with a node that takes an
entry from a sibling: then a pin is left. -/
theorem gives_back_pins_iff (c : TreeCall K V) (hin : f.InPage 1) (hs : Rests f s ix) (hw : ix.WellFormed f)
    (hf : ix.depth < fuel) (hroom : s.HasRoom (c.run f fuel)) :
    ∃ r s', Ends Session.handler (c.run f fuel) s r s' ∧ (s'.Unpinned ↔ ¬ c.Borrows f ix) := by
  cases c with
  | getValue x =>
      obtain ⟨out, s', hr, _, hs', _⟩ := getValue_rests hs hs.alone hw hf (Always.left hroom)
      exact ⟨.ok (.found out), s', hr.bind rfl, iff_of_true hs'.isUnpinned id⟩
  | insert x v =>
      obtain ⟨b, s', _, hr, _, _, _, hs', _⟩ := insert_rests hin hs hs.alone hw hf (Always.left hroom)
      exact ⟨.ok (.inserted b), s', hr.bind rfl, iff_of_true hs'.isUnpinned id⟩
  | remove x =>
      cases ix with
      | none =>
          have hroot : s.members .rootPageId = invalidPageId := hs.keeps.root
          have hthrow : Throws Session.handler (BPlusTree.remove f fuel x) s
            (.threw (.runtimeError "Empty tree")) s := by
            unfold Throws
            rw [BPlusTree.remove_eq]
            refine ends_perform rfl ?_
            rw [if_pos hroot]
            rfl
          exact ⟨_, s, hthrow.bind, iff_of_true hs.isUnpinned id⟩
      | some T =>
          obtain ⟨s', hr, hiff, _⟩ := remove_rests (hin.mono (Nat.zero_le 1)) hs hs.alone hw hf (Always.left hroom)
          exact ⟨.ok .removed, s', hr.bind rfl, hiff⟩

end TreeCall

theorem Session.idle_new {n : Nat} {K V : Type} {disk : MemDisk (PageData K V)} {members : Member → PageId}
    (hn : 0 ≤ disk.nextPageId) (hfresh : ∀ {p}, disk.nextPageId ≤ p → disk.content p = default) :
    (⟨.new n disk, fun _ => none, [], members, []⟩ : Session n (PageData K V)).Idle where
  inv := inv_new _
  fresh := ⟨fun hp => (by cases hp), hfresh⟩
  clean _ _ hp := by cases hp
  unpinned _ := rfl
  blank _ _ := rfl
  resident hp := by cases hp
  next := hn
  pageSet := rfl

theorem rests_new {n : Nat} {K V : Type} {f : Fanout} {ix : Index K V} {disk : MemDisk (PageData K V)}
    {members : Member → PageId}
    (hn : 0 ≤ disk.nextPageId) (hfresh : ∀ {p}, disk.nextPageId ≤ p → disk.content p = default)
    (hk : Keeps f { pages := disk.content, nextPageId := disk.nextPageId, members := members, pageSet := [] } ix) :
    Rests f (⟨.new n disk, fun _ => none, [], members, []⟩ : Session n (PageData K V)) ix :=
  ⟨Session.idle_new hn hfresh, hk⟩

namespace BPlusTree

def treeDisk (next : PageId) (pages : List (PageId × PageData Nat Nat)) : MemDisk (PageData Nat Nat) :=
  ⟨fun p => ((pages.find? (·.1 = p)).map Prod.snd).getD default, next⟩

def lender : Tree Nat Nat 1 := .node 2 [(0, .leaf 0 [(1, 10), (2, 20)]), (5, .leaf 1 [(5, 50), (6, 60), (7, 70)])]

def lenderPages : List (PageId × PageData Nat Nat) :=
  [(2, .internal ⟨invalidPageId, 2, [(0, 0), (5, 1)]⟩), (0, .leaf ⟨4, 2, 0, 1, [(1, 10), (2, 20)]⟩),
    (1, .leaf ⟨4, 2, 1, invalidPageId, [(5, 50), (6, 60), (7, 70)]⟩)]

def wide : Fanout := ⟨4, 5, by decide, by decide⟩

def lenderSession : Session 4 (PageData Nat Nat) := ⟨.new 4 (treeDisk 3 lenderPages), fun _ => none, [], fun _ => 2, []⟩

theorem wellFormed_lender : Index.WellFormed wide (some ⟨1, lender⟩) := by
  constructor
  · simp [lender, Tree.Bounded, Separators.Spans, Separators.SpansFrom, Tree.node, Tree.leaf]
  · simp only [lender, Tree.Sized, wide, Tree.node, Tree.leaf, List.mem_cons, List.not_mem_nil, or_false,
      forall_eq_or_imp, forall_eq]
    decide

theorem rests_lenderSession : Rests wide lenderSession (some ⟨1, lender⟩) := by
  refine rests_new (by decide) (fun {p} hp => ?_) ⟨rfl, ⟨by decide, fun x hx => ?_⟩, fun x hx => ?_⟩
  · have hp : (3 : Int) ≤ p := hp
    have h₀ : (0 : Int) ≠ p := by omega
    have h₁ : (1 : Int) ≠ p := by omega
    have h₂ : (2 : Int) ≠ p := by omega
    simp [treeDisk, lenderPages, h₀, h₁, h₂]
  · have hx : x ∈ lenderPages := hx
    simp only [lenderPages, List.mem_cons, List.not_mem_nil, or_false] at hx
    rcases hx with rfl | rfl | rfl <;> rfl
  · have hx : x ∈ lenderPages := hx
    simp only [lenderPages, List.mem_cons, List.not_mem_nil, or_false] at hx
    rcases hx with rfl | rfl | rfl <;> decide

theorem room_lenderSession : lenderSession.HasRoom ((TreeCall.remove 1 : TreeCall Nat Nat).run wide 2) :=
  always_of_checks (by decide +kernel)

theorem borrows_lender : (TreeCall.remove 1 : TreeCall Nat Nat).Borrows wide (some ⟨1, lender⟩) := by
  refine ⟨.under ⟨2, [], 0, [(5, .leaf 1 [(5, 50), (6, 60), (7, 70)])]⟩ .top, .leaf 0 [(1, 10), (2, 20)], rfl, ?_, rfl⟩
  simp [Path.window, Separators.window]

/-- After the removal the left leaf takes an entry from the right one, and a pin is left. -/
theorem gives_back_pins_lender : ∃ r s',
    Ends Session.handler ((TreeCall.remove 1 : TreeCall Nat Nat).run wide 2) lenderSession r s' ∧ ¬ s'.Unpinned := by
  obtain ⟨r, s, hr, hs⟩ := TreeCall.gives_back_pins_iff (.remove 1) (by decide)
    rests_lenderSession wellFormed_lender (by decide)
    room_lenderSession
  exact ⟨r, s, hr, fun hall => hs.mp hall borrows_lender⟩

/-- The two inner nodes with two leaves each, on a pool that has read no page yet. -/
def pairsSession (n : Nat) : Session n (PageData Nat Nat) :=
  ⟨.new n ⟨(pairsStore [(4, 40)] fun _ => false).pages, 7⟩, fun _ => none, [], fun _ => 6, []⟩

-- the left inner node is fetched into the frame of the leaf that was deleted, and that is still latched
example : (run Session.handler (remove narrow 3 4).run (pairsSession 12)).isNone = true := by decide +kernel

end BPlusTree

end DBPlayground.Storage
