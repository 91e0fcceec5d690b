import DBPlayground.Storage.TreeShape
import DBPlayground.Storage.TreeInsert

namespace DBPlayground.Storage

open Separators

/-- A tree page is not above `MaxSize`. -/
def PageData.Fits {K V : Type} (f : Fanout) : PageData K V → Prop
  | .leaf page => page.size ≤ f.leafMaxSize - 1
  | .internal page => page.size ≤ f.internalMaxSize
  | _ => True

theorem PageData.Fits.inside {K V : Type} {f : Fanout} {data : PageData K V} (h : data.Fits f) (hf : f.InPage 0) :
    data.inside = true := by
  obtain ⟨hleaf, hinternal⟩ := hf
  cases data with
  | leaf page =>
      change page.array.length ≤ _ at h
      exact decide_eq_true (by omega)
  | internal page =>
      change page.array.length ≤ _ at h
      exact decide_eq_true (by omega)
  | zero | catalog | value => rfl

section lists

variable {A : Type} (l₁ l₂ : List A) (a : A)

theorem eraseIdx_append_length : (l₁ ++ a :: l₂).eraseIdx l₁.length = l₁ ++ l₂ := by
  induction l₁ with
  | nil => rfl
  | cons b l₁ ih => exact congrArg (b :: ·) ih

theorem modify_append_length (g : A → A) : (l₁ ++ a :: l₂).modify l₁.length g = l₁ ++ g a :: l₂ := by
  induction l₁ with
  | nil => rfl
  | cons b l₁ ih => exact congrArg (b :: ·) ih

theorem getElem?_append_length : (l₁ ++ a :: l₂)[l₁.length]? = some a := by
  simp

end lists

namespace Tree

variable {K V : Type} {n : Nat} {f : Fanout}

def size : {n : Nat} → Tree K V n → Nat
  | 0, t => (Leaf.entries t).length
  | _ + 1, t => (Node.children t).length

@[simp] theorem size_leaf (id : PageId) (es : List (K × V)) : (leaf id es).size = es.length := rfl

@[simp] theorem size_node (id : PageId) (cs : List (K × Tree K V n)) : (node id cs).size = cs.length := rfl

def minSize (f : Fanout) : Nat → Nat
  | 0 => f.leafMaxSize / 2
  | _ + 1 => (f.internalMaxSize + 1) / 2

def maxSize (f : Fanout) : Nat → Nat
  | 0 => f.leafMaxSize - 1
  | _ + 1 => f.internalMaxSize

def Nourished (f : Fanout) : {n : Nat} → Tree K V n → Prop
  | 0, _ => True
  | n + 1, t => ∀ c ∈ Node.children t, Sized f false (n := n) c.2

theorem sized_iff {t : Tree K V n} : t.Sized f false ↔ minSize f n ≤ t.size ∧ t.size ≤ maxSize f n ∧ t.Nourished f := by
  cases n with
  | zero => exact ⟨fun h => ⟨h.1 rfl, h.2, trivial⟩, fun h => ⟨fun _ => h.1, h.2.1⟩⟩
  | succ n => exact Iff.rfl

/-- A node as `CoalesceOrRedistribute` may find it: one entry short of the least size,
or a root with fewer entries than before. -/
def Weak (f : Fanout) : (root : Bool) → {n : Nat} → Tree K V n → Prop
  | false, n, t => t.size + 1 = minSize f n ∧ t.Nourished f
  | true, 0, t => t.size ≤ maxSize f 0
  | true, n + 1, t => 0 < t.size ∧ t.size ≤ maxSize f (n + 1) ∧ t.Nourished f

theorem one_le_minSize (f : Fanout) (n : Nat) : 1 ≤ minSize f n := by
  cases n with
  | zero =>
      have := f.two_le_leaf
      show 1 ≤ f.leafMaxSize / 2
      omega
  | succ n =>
      have := f.three_le_internal
      show 1 ≤ (f.internalMaxSize + 1) / 2
      omega

theorem two_le_minSize (f : Fanout) (n : Nat) : 2 ≤ minSize f (n + 1) := by
  have := f.three_le_internal
  show 2 ≤ (f.internalMaxSize + 1) / 2
  omega

theorem lend_or_fit {s t : Nat} (ht : t + 1 = minSize f n) (hfit : ¬ s + t ≤ maxSize f n) : minSize f n < s := by
  cases n with
  | zero =>
      have := f.two_le_leaf
      change t + 1 = f.leafMaxSize / 2 at ht
      change ¬ s + t ≤ f.leafMaxSize - 1 at hfit
      show f.leafMaxSize / 2 < s
      omega
  | succ n =>
      have := f.three_le_internal
      change t + 1 = (f.internalMaxSize + 1) / 2 at ht
      change ¬ s + t ≤ f.internalMaxSize at hfit
      show (f.internalMaxSize + 1) / 2 < s
      omega

theorem size_page (t : Tree K V n) {parent next : PageId} : (t.page f parent next).size = t.size := by
  cases n with
  | zero => rfl
  | succ n => exact List.length_map _

theorem fits_page {t : Tree K V n} {parent next : PageId} (h : t.size ≤ maxSize f n) :
    (t.page f parent next).data.Fits f := by
  cases n with
  | zero => exact h
  | succ n =>
      show (refs (Node.children t)).length ≤ _
      rwa [refs, List.length_map]

theorem minSize_page (t : Tree K V n) {parent next : PageId} : (t.page f parent next).minSize f = minSize f n := by
  cases n <;> rfl

theorem pageId_page (t : Tree K V n) {parent next : PageId} : (t.page f parent next).pageId = t.id := by
  cases n <;> rfl

theorem fitOne_page (s t : Tree K V n) {parent next parent' next' : PageId} :
    BPlusTree.fitOne f (s.page f parent next) (t.page f parent' next') = decide (s.size + t.size ≤ maxSize f n) := by
  cases n with
  | zero => rfl
  | succ n =>
      show decide ((refs (Node.children s)).length + (refs (Node.children t)).length ≤ f.internalMaxSize) = _
      rw [refs, List.length_map, refs, List.length_map]
      rfl

def rekey {A : Type} (k : K) : List (K × A) → List (K × A)
  | [] => []
  | c :: cs => (k, c.2) :: cs

theorem refs_rekey (k : K) (cs : List (K × Tree K V n)) : refs (rekey k cs) = InternalPage.withFirstKey (refs cs) k := by
  cases cs <;> rfl

theorem length_rekey {A : Type} (k : K) (cs : List (K × A)) : (rekey k cs).length = cs.length := by
  cases cs <;> rfl

theorem forest_rekey (k : K) (cs : List (K × Tree K V n)) (parent next : PageId) :
    forest f parent next (rekey k cs) = forest f parent next cs := by
  cases cs with
  | nil => rfl
  | cons c cs => rw [rekey, forest_cons, forest_cons]

theorem headLeaf_rekey (k : K) (cs : List (K × Tree K V n)) (next : PageId) :
    headLeaf next (rekey k cs) = headLeaf next cs := by
  cases cs <;> rfl

/-- What `Coalesce` makes of two neighbours, with the key between them. -/
def merge (k : K) : {n : Nat} → Tree K V n → Tree K V n → Tree K V n
  | 0, t₁, t₂ => .leaf t₁.id (Leaf.entries t₁ ++ Leaf.entries t₂)
  | _ + 1, t₁, t₂ => .node t₁.id (Node.children t₁ ++ rekey k (Node.children t₂))

variable {k : K} {t₁ t₂ : Tree K V n}

theorem id_merge : (merge k t₁ t₂).id = t₁.id := by
  cases n <;> rfl

theorem size_merge : (merge k t₁ t₂).size = t₁.size + t₂.size := by
  cases n with
  | zero => exact List.length_append
  | succ n =>
      show (Node.children t₁ ++ rekey k (Node.children t₂)).length = _
      rw [List.length_append, length_rekey]
      rfl

theorem contents_merge : (merge k t₁ t₂).contents = t₁.contents ++ t₂.contents := by
  cases n with
  | zero => rfl
  | succ n =>
      show (Node.children t₁ ++ rekey k (Node.children t₂)).flatMap _ = _
      rw [List.flatMap_append]
      refine congrArg ((Node.children t₁).flatMap _ ++ ·) ?_
      cases hcs : Node.children t₂ with
      | nil => rw [rekey, contents, hcs]
      | cons c cs => rw [rekey, contents, hcs, List.flatMap_cons, List.flatMap_cons]

theorem nourished_merge (h₁ : t₁.Nourished f) (h₂ : t₂.Nourished f) : (merge k t₁ t₂).Nourished f := by
  cases n with
  | zero => trivial
  | succ n =>
      intro c hc
      rcases List.mem_append.mp hc with hc | hc
      · exact h₁ c hc
      · change ∀ c ∈ Node.children t₂, _ at h₂
        cases hcs : Node.children t₂ with
        | nil =>
            rw [hcs] at hc
            cases hc
        | cons d cs =>
            rw [hcs] at hc h₂
            rcases List.mem_cons.mp hc with rfl | hc
            · exact h₂ d List.mem_cons_self
            · exact h₂ c (List.mem_cons_of_mem d hc)

theorem firstLeaf_merge (h : n ≠ 0 → 0 < t₁.size) : (merge k t₁ t₂).firstLeaf = t₁.firstLeaf := by
  cases n with
  | zero => rfl
  | succ n =>
      obtain ⟨id, cs, rfl⟩ : ∃ id cs, t₁ = Tree.node id cs := ⟨_, _, rfl⟩
      cases cs with
      | nil => exact absurd (h (Nat.succ_ne_zero n)) (Nat.lt_irrefl 0)
      | cons c cs => rfl

theorem bounded_merge [LinearOrder K] {J : Set K}
    (h : SpansFrom (fun I (c : Tree K V n) => c.Bounded I) J t₁ [(k, t₂)]) : (merge k t₁ t₂).Bounded J := by
  obtain ⟨hk, hne, h₁, h₂⟩ := h
  cases n with
  | zero =>
      obtain ⟨hs₁, hm₁⟩ := h₁
      obtain ⟨hs₂, hm₂⟩ := h₂
      refine ⟨List.pairwise_append.mpr ⟨hs₁, hs₂, fun a ha b hb => lt_of_lt_of_le (hm₁ a ha).2 (hm₂ b hb).2⟩, ?_⟩
      intro e he
      rcases List.mem_append.mp he with he | he
      · exact (hm₁ e he).1
      · exact (hm₂ e he).1
  | succ n =>
      change Spans _ _ (Node.children t₁) at h₁
      change Spans _ _ (Node.children t₂) at h₂
      show Spans (fun I (c : Tree K V n) => c.Bounded I) J (Node.children t₁ ++ rekey k (Node.children t₂))
      cases hcs₁ : Node.children t₁ with
      | nil =>
          rw [hcs₁] at h₁
          cases h₁
      | cons c cs =>
          cases hcs₂ : Node.children t₂ with
          | nil =>
              rw [hcs₂] at h₂
              cases h₂
          | cons d ds =>
              rw [hcs₁] at h₁
              rw [hcs₂] at h₂
              exact spansFrom_append.mpr ⟨hk, hne, h₁, h₂⟩

section cut

variable [LinearOrder K] {J : Set K}

theorem cut_leaf {id j : PageId} {A B : List (K × V)} {e : K × V} (h : (leaf id (A ++ e :: B)).Bounded J) (hA : A ≠ []) :
    SpansFrom (fun I (c : Tree K V 0) => c.Bounded I) J (leaf id A) [(e.1, leaf j (e :: B))] := by
  obtain ⟨hsorted, hmem⟩ := h
  change (A ++ e :: B).Pairwise (·.1 < ·.1) at hsorted
  change ∀ x ∈ A ++ e :: B, x.1 ∈ J at hmem
  obtain ⟨hlow, hupp, hcross⟩ := List.pairwise_append.mp hsorted
  have hk : ∀ x ∈ A, x.1 < e.1 := fun x hx => hcross x hx e List.mem_cons_self
  obtain ⟨a, ha⟩ := List.exists_mem_of_ne_nil A hA
  refine ⟨hmem e (by simp), ⟨a.1, hmem a (List.mem_append_left _ ha), hk a ha⟩, ?_, ?_⟩
  · exact ⟨hlow, fun x hx => ⟨hmem x (List.mem_append_left _ hx), hk x hx⟩⟩
  · refine ⟨hupp, fun x hx => ⟨hmem x (List.mem_append_right _ hx), ?_⟩⟩
    rcases List.mem_cons.mp hx with rfl | hx
    · exact le_refl _
    · exact le_of_lt ((List.pairwise_cons.mp hupp).1 x hx)

theorem cut_node {id id' : PageId} {A B : List (K × Tree K V n)} {c : K × Tree K V n}
    (h : (node id (A ++ c :: B)).Bounded J) (hA : A ≠ []) :
    SpansFrom (fun I (c : Tree K V (n + 1)) => c.Bounded I) J (node id A) [(c.1, node id' (c :: B))] := by
  obtain ⟨a, A, rfl⟩ := List.exists_cons_of_ne_nil hA
  obtain ⟨hk, hne, hlow, hupp⟩ := spansFrom_append.mp (show SpansFrom _ J a.2 (A ++ (c.1, c.2) :: B) from h)
  exact ⟨hk, hne, hlow, hupp⟩

end cut

/-- An entry has moved between two neighbours, and the key between them with it. -/
structure Shifted [LinearOrder K] (f : Fanout) (k : K) (t₁ t₂ : Tree K V n) (k' : K) (t₁' t₂' : Tree K V n) : Prop where
  left_id : t₁'.id = t₁.id
  right_id : t₂'.id = t₂.id
  contents : t₁'.contents ++ t₂'.contents = t₁.contents ++ t₂.contents
  spans : ∀ J, SpansFrom (fun I (c : Tree K V n) => c.Bounded I) J t₁ [(k, t₂)] →
    SpansFrom (fun I (c : Tree K V n) => c.Bounded I) J t₁' [(k', t₂')]
  left_sized : t₁'.Sized f false
  right_sized : t₂'.Sized f false

section shift

variable [LinearOrder K] {i₁ i₂ : PageId}

theorem shifted_leaf_right {es₁ es : List (K × V)} {e e' : K × V} (h₁ : es₁.length + 1 = minSize f 0)
    (h₂ : minSize f 0 < es.length + 2) (hmax : es.length + 2 ≤ maxSize f 0) :
    Shifted f k (leaf i₁ es₁) (leaf i₂ (e :: e' :: es)) e'.1 (leaf i₁ (es₁ ++ [e])) (leaf i₂ (e' :: es)) where
  left_id := rfl
  right_id := rfl
  contents := List.append_assoc es₁ [e] (e' :: es)
  spans J h := by
    refine cut_leaf (j := i₂) ?_ (by simp)
    rw [List.append_assoc]
    exact bounded_merge h
  left_sized := sized_iff.mpr ⟨by simp; omega, by simp; omega, trivial⟩
  right_sized := sized_iff.mpr ⟨by simp; omega, by simp; omega, trivial⟩

theorem shifted_leaf_left {es₂ es : List (K × V)} {e : K × V} (h₂ : es₂.length + 1 = minSize f 0)
    (h₁ : minSize f 0 < es.length + 1) (hmax : es.length + 1 ≤ maxSize f 0) :
    Shifted f k (leaf i₁ (es ++ [e])) (leaf i₂ es₂) e.1 (leaf i₁ es) (leaf i₂ (e :: es₂)) where
  left_id := rfl
  right_id := rfl
  contents := (List.append_assoc es [e] es₂).symm
  spans J h := by
    have hmin := one_le_minSize f 0
    refine cut_leaf ?_ (List.ne_nil_of_length_pos (by omega))
    have hm := bounded_merge h
    change (leaf i₁ (es ++ [e] ++ es₂)).Bounded J at hm
    rwa [List.append_assoc] at hm
  left_sized := sized_iff.mpr ⟨by simp; omega, by simp; omega, trivial⟩
  right_sized := sized_iff.mpr ⟨by simp; omega, by simp; omega, trivial⟩

theorem shifted_node_right {cs₁ cs : List (K × Tree K V n)} {c d : K × Tree K V n}
    (h₁ : cs₁.length + 1 = minSize f (n + 1)) (h₂ : minSize f (n + 1) < cs.length + 2)
    (hmax : cs.length + 2 ≤ maxSize f (n + 1)) (hn₁ : (node i₁ cs₁).Nourished f)
    (hn₂ : (node i₂ (c :: d :: cs)).Nourished f) :
    Shifted f k (node i₁ cs₁) (node i₂ (c :: d :: cs)) d.1 (node i₁ (cs₁ ++ [(k, c.2)])) (node i₂ (d :: cs)) where
  left_id := rfl
  right_id := rfl
  contents := by
    show (cs₁ ++ [(k, c.2)]).flatMap _ ++ (d :: cs).flatMap _ = cs₁.flatMap _ ++ (c :: d :: cs).flatMap _
    simp only [List.flatMap_append, List.flatMap_cons, List.flatMap_nil, List.append_nil, List.append_assoc]
  spans J h := by
    refine cut_node ?_ (by simp)
    have hm := bounded_merge h
    change (node i₁ (cs₁ ++ (k, c.2) :: d :: cs)).Bounded J at hm
    rwa [List.append_assoc]
  left_sized := by
    refine sized_iff.mpr ⟨by simp; omega, by simp; omega, fun a ha => ?_⟩
    rcases List.mem_append.mp ha with ha | ha
    · exact hn₁ a ha
    · obtain rfl := List.mem_singleton.mp ha
      exact hn₂ c List.mem_cons_self
  right_sized := by
    refine sized_iff.mpr ⟨by simp; omega, by simp; omega, fun a ha => ?_⟩
    exact hn₂ a (List.mem_cons_of_mem c ha)

end shift

end Tree

end DBPlayground.Storage
