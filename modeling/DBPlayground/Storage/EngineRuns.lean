import DBPlayground.Lib.Beside
import DBPlayground.Lib.Service
import DBPlayground.Storage.BPlusTreeEngine
import DBPlayground.Storage.TupleRuns

namespace DBPlayground.Storage.BPlusTreeEngine

open ByteReader Program Machine Service TupleStore KvCursor

inductive IndexOp
  | getValue (k : EncodedKey)
  | insert (k : EncodedKey) (rid : RID)
  | remove (k : EncodedKey)

abbrev IndexOp.Ans : IndexOp → Type
  | .getValue _ => Option RID
  | .insert _ _ => Bool
  | .remove _ => Unit

/-- The index behaves as a finite map: `view` is the map that a state of it stands for. -/
structure IsMap {I : Type} (N : Handler IndexOp IndexOp.Ans I) (view : I → EncodedKey → Option RID) : Prop where
  getValue : ∀ i k, ∃ i', N (.getValue k) i = some (view i k, i') ∧ view i' = view i
  insert : ∀ i k rid, ∃ i', N (.insert k rid) i = some ((view i k).isNone, i') ∧
    view i' = if (view i k).isNone then Function.update (view i) k (some rid) else view i
  remove : ∀ i k, ∃ i', N (.remove k) i = some ((), i') ∧ view i' = Function.update (view i) k none

/-- The engine over any index, with its tuple store in a pool. -/
abbrev EngineM := Method (PoolOp EnginePage ⊕ IndexOp) (Both PoolOp.Ans IndexOp.Ans) Abort

def parts (fuel : Nat) : Parts EngineM where
  getValue k := askRight (IndexOp.getValue k)
  insert k rid := askRight (IndexOp.insert k rid)
  remove k := askRight (IndexOp.remove k)
  put value := leftM (TupleStore.put fuel value)
  get rid := leftM (TupleStore.get rid)
  delete rid := leftM (TupleStore.delete rid)

inductive Call
  | insert (key value : Bytes)
  | get (key : Bytes)
  | remove (key : Bytes)

def Call.key : Call → Bytes
  | .insert key _ => key
  | .get key => key
  | .remove key => key

inductive Reply
  | inserted (b : Bool)
  | found (value : Option Bytes)
  | removed (b : Bool)

def call (fuel : Nat) : Call → EngineM Reply
  | .insert key value => do pure (.inserted (← insert (parts fuel) key value))
  | .get key => do pure (.found (← get (parts fuel) key))
  | .remove key => do pure (.removed (← remove (parts fuel) key))

abbrev KvMap := EncodedKey → Option Bytes

def tooLarge : Abort := .threw (.runtimeError "TupleStore: value too large for a single page")

/-- What a map with insert-if-absent answers to a call, and the map after it. -/
def KvMap.respond (a : KvMap) : Call → Except Abort Reply × KvMap
  | .insert key value =>
    match toKey key with
    | none => (.error badKey, a)
    | some k =>
      if (a k).isSome then (.ok (.inserted false), a)
      else if value.length > maxValueSize then (.error tooLarge, a)
      else (.ok (.inserted true), Function.update a k (some value))
  | .get key =>
    match toKey key with
    | none => (.error badKey, a)
    | some k => (.ok (.found (a k)), a)
  | .remove key =>
    match toKey key with
    | none => (.error badKey, a)
    | some k => (.ok (.removed (a k).isSome), Function.update a k none)

variable {I : Type} {N : Handler IndexOp IndexOp.Ans I} {view : I → EncodedKey → Option RID}

/-- A call of the source ends: with enough fuel for its loops the result is this one. -/
def Answers (N : Handler IndexOp IndexOp.Ans I) (c : Call) (x : PageStore EnginePage × I) (r : Except Abort Reply)
    (y : PageStore EnginePage × I) : Prop :=
  ∃ n, ∀ fuel, n ≤ fuel → Ends (beside PageStore.handler N) (call fuel c) x r y

theorem Answers.unique {c : Call} {x y y' : PageStore EnginePage × I} {r r' : Except Abort Reply} (h : Answers N c x r y)
    (h' : Answers N c x r' y') : r = r' ∧ y = y' := by
  obtain ⟨n, hn⟩ := h
  obtain ⟨n', hn'⟩ := h'
  have he := (hn (max n n') (Nat.le_max_left _ _)).symm.trans (hn' (max n n') (Nat.le_max_right _ _))
  exact Prod.mk.inj (Option.some.inj he)

inductive Plays (N : Handler IndexOp IndexOp.Ans I) :
    PageStore EnginePage × I → List Call → List (Except Abort Reply) → PageStore EnginePage × I → Prop
  | nil (x) : Plays N x [] [] x
  | cons {x y z c cs r rs} (h : Answers N c x r y) (ht : Plays N y cs rs z) : Plays N x (c :: cs) (r :: rs) z

/-- Index and tuple store together hold the map: every key in the index has a slot of its
own, with the value of the key on it. -/
structure Linked (view : I → EncodedKey → Option RID) (x : PageStore EnginePage × I) (a : KvMap)
    (dir : Directory) : Prop where
  stored : Stored x.1 dir
  value : ∀ k, (view x.2 k).bind dir.content = a k
  issued : ∀ k rid, view x.2 k = some rid → dir.Issued rid
  live : ∀ k rid, view x.2 k = some rid → (dir.content rid).isSome = true
  apart : ∀ k k' rid, view x.2 k = some rid → view x.2 k' = some rid → k = k'

variable {x : PageStore EnginePage × I} {a : KvMap} {dir : Directory} {key value : Bytes} {k : EncodedKey}

theorem encode_some {m : Type → Type} [Monad m] [MonadExceptOf Abort m] (hk : toKey key = some k) :
    (encode key : m EncodedKey) = pure k := by
  rw [encode, hk]

theorem encode_none {m : Type → Type} [Monad m] [MonadExceptOf Abort m] (hk : toKey key = none) :
    (encode key : m EncodedKey) = throw badKey := by
  rw [encode, hk]

theorem answers_badKey {c : Call} (hk : toKey c.key = none) : Answers N c x (.error badKey) x := by
  refine ⟨0, fun fuel _ => ?_⟩
  cases c with
  | insert key value =>
      show Ends _ (insert (parts fuel) key value >>= _) x _ x
      rw [insert, encode_none (show toKey key = none from hk)]
      rfl
  | get key =>
      show Ends _ (get (parts fuel) key >>= _) x _ x
      rw [get, encode_none (show toKey key = none from hk)]
      rfl
  | remove key =>
      show Ends _ (remove (parts fuel) key >>= _) x _ x
      rw [remove, encode_none (show toKey key = none from hk)]
      rfl

theorem KvMap.respond_badKey {c : Call} (hk : toKey c.key = none) : a.respond c = (.error badKey, a) := by
  cases c with
  | insert key value => rw [KvMap.respond, show toKey key = none from hk]
  | get key => rw [KvMap.respond, show toKey key = none from hk]
  | remove key => rw [KvMap.respond, show toKey key = none from hk]

namespace Linked

theorem reindex (h : Linked view x a dir) {i : I} (hi : view i = view x.2) : Linked view (x.1, i) a dir where
  stored := h.stored
  value := by
    rw [hi]
    exact h.value
  issued := by
    rw [hi]
    exact h.issued
  live := by
    rw [hi]
    exact h.live
  apart := by
    rw [hi]
    exact h.apart

theorem absent (h : Linked view x a dir) (hk : view x.2 k = none) : a k = none := by
  rw [← h.value k, hk]
  rfl

theorem present (h : Linked view x a dir) {rid : RID} (hk : view x.2 k = some rid) : a k = dir.content rid := by
  rw [← h.value k, hk]
  rfl

theorem isSome_eq (h : Linked view x a dir) (k : EncodedKey) : (view x.2 k).isSome = (a k).isSome := by
  cases hk : view x.2 k with
  | none =>
      rw [h.absent hk]
      rfl
  | some rid =>
      rw [h.present hk, h.live k rid hk]
      rfl

theorem missing (h : Linked view x a dir) (ha : a k = none) : view x.2 k = none := by
  have he := h.isSome_eq k
  rw [ha] at he
  exact Option.not_isSome_iff_eq_none.mp (Bool.eq_false_iff.mp he)

theorem add (h : Linked view x a dir) {s : PageStore EnginePage} {i : I} {p : PageId} (hk : view x.2 k = none)
    (hs : Stored s (dir.add p value)) (hi : view i = Function.update (view x.2) k (some (dir.nextRid p))) :
    Linked view (s, i) (Function.update a k (some value)) (dir.add p value) := by
  have hfresh : ∀ k' rid, view x.2 k' = some rid → rid ≠ dir.nextRid p := by
    rintro k' _ hk' rfl
    exact h.stored.not_issued p (h.issued k' _ hk')
  have hview : ∀ k' rid, view i k' = some rid → k' = k ∧ rid = dir.nextRid p ∨ k' ≠ k ∧ view x.2 k' = some rid := by
    intro k' rid hk'
    rw [hi] at hk'
    by_cases he : k' = k
    · rw [he, Function.update_self] at hk'
      exact .inl ⟨he, (Option.some.inj hk').symm⟩
    · rw [Function.update_of_ne he] at hk'
      exact .inr ⟨he, hk'⟩
  refine ⟨hs, fun k' => ?_, fun k' rid hk' => ?_, fun k' rid hk' => ?_, fun k₁ k₂ rid h₁ h₂ => ?_⟩
  · rw [h.stored.content_add]
    show (view i k').bind _ = _
    rw [hi]
    by_cases he : k' = k
    · rw [he, Function.update_self, Function.update_self, Option.bind_some, Function.update_self]
    · rw [Function.update_of_ne he, Function.update_of_ne he, ← h.value k']
      cases hv : view x.2 k' with
      | none => rfl
      | some rid => exact Function.update_of_ne (hfresh k' rid hv) ..
  · rw [h.stored.issued_add]
    obtain ⟨_, rfl⟩ | ⟨_, hold⟩ := hview k' rid hk'
    · exact .inl rfl
    · exact .inr (h.issued k' rid hold)
  · rw [h.stored.content_add]
    obtain ⟨_, rfl⟩ | ⟨_, hold⟩ := hview k' rid hk'
    · rw [Function.update_self]
      rfl
    · rw [Function.update_of_ne (hfresh k' rid hold)]
      exact h.live k' rid hold
  · obtain ⟨rfl, rfl⟩ | ⟨_, hold₁⟩ := hview k₁ rid h₁
    · obtain ⟨rfl, _⟩ | ⟨_, hold₂⟩ := hview k₂ _ h₂
      · rfl
      · exact absurd rfl (hfresh k₂ _ hold₂)
    · obtain ⟨_, rfl⟩ | ⟨_, hold₂⟩ := hview k₂ rid h₂
      · exact absurd rfl (hfresh k₁ _ hold₁)
      · exact h.apart k₁ k₂ rid hold₁ hold₂

theorem drop (h : Linked view x a dir) {s : PageStore EnginePage} {i : I} {rid : RID} (hk : view x.2 k = some rid)
    (hs : Stored s (dir.change rid none)) (hi : view i = Function.update (view x.2) k none) :
    Linked view (s, i) (Function.update a k none) (dir.change rid none) := by
  have hview : ∀ k' r, view i k' = some r → view x.2 k' = some r ∧ r ≠ rid := by
    intro k' r hk'
    rw [hi] at hk'
    by_cases he : k' = k
    · rw [he, Function.update_self] at hk'
      cases hk'
    · rw [Function.update_of_ne he] at hk'
      refine ⟨hk', ?_⟩
      rintro rfl
      exact he (h.apart k' k r hk' hk)
  have hcontent := Directory.content_change (x := none) (h.issued k rid hk)
  refine ⟨hs, fun k' => ?_, fun k' r hk' => ?_, fun k' r hk' => ?_, fun k₁ k₂ r h₁ h₂ => ?_⟩
  · by_cases he : k' = k
    · show (view i k').bind _ = _
      rw [hi, he, Function.update_self, Function.update_self]
      rfl
    · rw [Function.update_of_ne he, ← h.value k', hcontent]
      show (view i k').bind _ = _
      cases hv : view i k' with
      | none =>
          rw [hi, Function.update_of_ne he] at hv
          rw [hv]
          rfl
      | some r =>
          rw [(hview k' r hv).1]
          exact Function.update_of_ne (hview k' r hv).2 ..
  · exact Directory.issued_change.mpr (h.issued k' r (hview k' r hk').1)
  · rw [hcontent, Function.update_of_ne (hview k' r hk').2]
    exact h.live k' r (hview k' r hk').1
  · exact h.apart k₁ k₂ r (hview k₁ r h₁).1 (hview k₂ r h₂).1

variable (hN : IsMap N view)

include hN

theorem answers_get (h : Linked view x a dir) (hk : toKey key = some k) :
    ∃ y, Answers N (.get key) x (.ok (.found (a k))) y ∧ Linked view y a dir := by
  obtain ⟨i, hget, hi⟩ := hN.getValue x.2 k
  refine ⟨(x.1, i), ⟨0, fun fuel _ => ?_⟩, h.reindex hi⟩
  show Ends _ (get (parts fuel) key >>= _) _ _ _
  rw [get, encode_some hk, pure_bind]
  refine Ends.bind (Ends.bind (ends_askRight hget) ?_) ends_pure
  cases hv : view x.2 k with
  | none =>
      rw [h.absent hv]
      exact ends_pure
  | some rid =>
      rw [h.present hv]
      exact ends_leftM (returns_get h.stored (h.issued k rid hv)) i

theorem answers_remove (h : Linked view x a dir) (hk : toKey key = some k) :
    ∃ y dir', Answers N (.remove key) x (.ok (.removed (a k).isSome)) y ∧ Linked view y (Function.update a k none) dir' := by
  obtain ⟨i, hget, hi⟩ := hN.getValue x.2 k
  have hx := h.reindex hi
  cases hv : view x.2 k with
  | none =>
      have ha := h.absent hv
      have hsame : Function.update a k none = a := by
        rw [← ha, Function.update_eq_self]
      rw [hsame, ha]
      refine ⟨(x.1, i), dir, ⟨0, fun fuel _ => ?_⟩, hx⟩
      show Ends _ (remove (parts fuel) key >>= _) _ _ _
      rw [remove, encode_some hk, pure_bind]
      refine Ends.bind (Ends.bind (ends_askRight hget) ?_) ends_pure
      rw [hv]
      exact ends_pure
  | some rid =>
      obtain ⟨j, hrem, hj⟩ := hN.remove i k
      obtain ⟨s, hdel, hs⟩ := returns_delete h.stored (h.issued k rid hv)
      rw [hi] at hj
      rw [h.present hv, h.live k rid hv]
      refine ⟨(s, j), _, ⟨0, fun fuel _ => ?_⟩, h.drop hv hs hj⟩
      show Ends _ (remove (parts fuel) key >>= _) _ _ _
      rw [remove, encode_some hk, pure_bind]
      refine Ends.bind (Ends.bind (ends_askRight hget) ?_) ends_pure
      rw [hv]
      exact Ends.bind (ends_askRight hrem) (Ends.bind (ends_leftM hdel j) ends_pure)

theorem answers_insert_present (h : Linked view x a dir) (hk : toKey key = some k) (ha : (a k).isSome = true) :
    ∃ y, Answers N (.insert key value) x (.ok (.inserted false)) y ∧ Linked view y a dir := by
  obtain ⟨i, hget, hi⟩ := hN.getValue x.2 k
  obtain ⟨rid, hv⟩ := Option.isSome_iff_exists.mp ((h.isSome_eq k).trans ha)
  refine ⟨(x.1, i), ⟨0, fun fuel _ => ?_⟩, h.reindex hi⟩
  show Ends _ (insert (parts fuel) key value >>= _) _ _ _
  rw [insert, encode_some hk, pure_bind]
  refine Ends.bind (Ends.bind (ends_askRight hget) ?_) ends_pure
  rw [hv]
  exact ends_pure

theorem answers_insert_large (h : Linked view x a dir) (hk : toKey key = some k) (ha : a k = none)
    (hlen : maxValueSize < value.length) :
    ∃ i, view i = view x.2 ∧ Answers N (.insert key value) x (.error tooLarge) (x.1, i) := by
  obtain ⟨i, hget, hi⟩ := hN.getValue x.2 k
  refine ⟨i, hi, ⟨0, fun fuel _ => ?_⟩⟩
  have hput : Ends PageStore.handler (TupleStore.put fuel value) x.1 (.error tooLarge) x.1 := by
    rw [TupleStore.put, if_pos hlen]
    rfl
  show Ends _ (insert (parts fuel) key value >>= _) _ _ _
  rw [insert, encode_some hk, pure_bind]
  refine Ends.throw (Ends.bind (ends_askRight hget) ?_)
  rw [h.missing ha]
  exact Ends.throw (ends_leftM hput i)

theorem answers_insert_fresh (h : Linked view x a dir) (hk : toKey key = some k) (ha : a k = none)
    (hlen : value.length ≤ maxValueSize) :
    ∃ y dir', Answers N (.insert key value) x (.ok (.inserted true)) y ∧
      Linked view y (Function.update a k (some value)) dir' := by
  obtain ⟨i, hget, hi⟩ := hN.getValue x.2 k
  have hv := h.missing ha
  obtain ⟨p, s, ⟨n, hput⟩, hs⟩ := computes_put h.stored hlen
  obtain ⟨j, hins, hj⟩ := hN.insert i k (dir.nextRid p)
  rw [hi, hv] at hins hj
  refine ⟨(s, j), _, ⟨n, fun fuel hf => ?_⟩, h.add hv hs hj⟩
  show Ends _ (insert (parts fuel) key value >>= _) _ _ _
  rw [insert, encode_some hk, pure_bind]
  refine Ends.bind (Ends.bind (ends_askRight hget) ?_) ends_pure
  rw [hv]
  exact Ends.bind (ends_leftM (hput fuel hf) i) (Ends.bind (ends_askRight hins) ends_pure)

theorem answers (h : Linked view x a dir) (c : Call) :
    ∃ y dir', Answers N c x (a.respond c).1 y ∧ Linked view y (a.respond c).2 dir' := by
  cases hk : toKey c.key with
  | none =>
      rw [KvMap.respond_badKey hk]
      exact ⟨x, dir, answers_badKey hk, h⟩
  | some k =>
      cases c with
      | get key =>
          rw [KvMap.respond, show toKey key = some k from hk]
          obtain ⟨y, hy, hl⟩ := h.answers_get hN hk
          exact ⟨y, dir, hy, hl⟩
      | remove key =>
          rw [KvMap.respond, show toKey key = some k from hk]
          exact h.answers_remove hN hk
      | insert key value =>
          rw [KvMap.respond, show toKey key = some k from hk]
          dsimp only
          by_cases ha : (a k).isSome = true
          · rw [if_pos ha]
            obtain ⟨y, hy, hl⟩ := h.answers_insert_present hN hk ha
            exact ⟨y, dir, hy, hl⟩
          · have hnone := Option.not_isSome_iff_eq_none.mp ha
            rw [if_neg ha]
            by_cases hlen : maxValueSize < value.length
            · rw [if_pos hlen]
              obtain ⟨i, hi, hy⟩ := h.answers_insert_large hN hk hnone hlen
              exact ⟨_, dir, hy, h.reindex hi⟩
            · rw [if_neg hlen]
              exact h.answers_insert_fresh hN hk hnone (Nat.not_lt.mp hlen)

theorem plays (h : Linked view x a dir) (cs : List Call) :
    ∃ y dir', Plays N x cs (replies KvMap.respond a cs) y ∧ Linked view y (outcome KvMap.respond a cs) dir' := by
  induction cs generalizing x a dir with
  | nil => exact ⟨x, dir, .nil x, h⟩
  | cons c cs ih =>
      obtain ⟨y, dir₁, hy, hl⟩ := h.answers hN c
      obtain ⟨z, dir₂, hz, hl'⟩ := ih hl
      exact ⟨z, dir₂, .cons hy hz, hl'⟩

end Linked

theorem Plays.unique {cs : List Call} {rs rs' : List (Except Abort Reply)} {y y' : PageStore EnginePage × I}
    (h : Plays N x cs rs y) (h' : Plays N x cs rs' y') : rs = rs' ∧ y = y' := by
  induction h generalizing rs' y' with
  | nil x =>
      cases h'
      exact ⟨rfl, rfl⟩
  | cons hc _ ih =>
      cases h' with
      | cons hc' ht' =>
          obtain ⟨rfl, rfl⟩ := hc.unique hc'
          obtain ⟨rfl, rfl⟩ := ih ht'
          exact ⟨rfl, rfl⟩

def KvMap.empty : KvMap := fun _ => none

theorem linked_new {s : PageStore EnginePage} {i : I} (hnext : 0 ≤ s.nextPageId)
    (hfirst : s.members .firstPageId = invalidPageId) (hi : view i = fun _ => none) :
    Linked view (s, i) .empty .empty := by
  have hnone : ∀ k rid, view i k ≠ some rid := by
    intro k rid hk
    rw [hi] at hk
    cases hk
  refine ⟨(refines_start hnext hfirst).stored, fun k => ?_, ?_, ?_, ?_⟩
  · show (view i k).bind _ = _
    rw [hi]
    rfl
  · exact fun k rid hk => absurd hk (hnone k rid)
  · exact fun k rid hk => absurd hk (hnone k rid)
  · exact fun k _ rid hk => absurd hk (hnone k rid)

theorem toKey_eq_none (hk : key.length ≠ kKeyLen) : toKey key = none := dif_neg hk

/-- The engine is a map with insert-if-absent. It answers every run of calls as the map does;
a call with a bad key, or with a value too large for a key that is absent, throws and leaves
index and tuples as they were; and the keys of the index have slots of their own, all live. -/
theorem engine_refines_map (hN : IsMap N view) {s : PageStore EnginePage} {i : I} (hnext : 0 ≤ s.nextPageId)
    (hfirst : s.members .firstPageId = invalidPageId) (hi : view i = fun _ => none) (cs : List Call) :
    ∃ y, (∀ rs z, Plays N (s, i) cs rs z ↔ rs = replies KvMap.respond .empty cs ∧ z = y) ∧
      (∀ c : Call, c.key.length ≠ kKeyLen → Answers N c y (.error badKey) y) ∧
      (∀ key value k, toKey key = some k → outcome KvMap.respond .empty cs k = none → maxValueSize < value.length →
        ∃ j, view j = view y.2 ∧ Answers N (.insert key value) y (.error tooLarge) (y.1, j)) ∧
      (∀ k, (view y.2 k).isSome = (outcome KvMap.respond .empty cs k).isSome) ∧
      (∀ k k' rid, view y.2 k = some rid → view y.2 k' = some rid → k = k') ∧
      ∀ k rid, view y.2 k = some rid →
        ∃ v, outcome KvMap.respond .empty cs k = some v ∧
          Returns PageStore.handler (TupleStore.get rid) y.1 (some v) y.1 := by
  obtain ⟨y, dir, hplays, hy⟩ := (linked_new hnext hfirst hi).plays hN cs
  refine ⟨y, fun rs z => ⟨fun h => h.unique hplays, ?_⟩, fun c hc => answers_badKey (toKey_eq_none hc),
    fun key value k hk ha hlen => hy.answers_insert_large hN hk ha hlen, hy.isSome_eq, hy.apart, fun k rid hk => ?_⟩
  · rintro ⟨rfl, rfl⟩
    exact hplays
  · obtain ⟨v, hv⟩ := Option.isSome_iff_exists.mp (hy.live k rid hk)
    have hget := returns_get hy.stored (hy.issued k rid hk)
    rw [hv] at hget
    exact ⟨v, (hy.present hk).trans hv, hget⟩

def mapIndex : Handler IndexOp IndexOp.Ans (EncodedKey → Option RID)
  | .getValue k, i => some (i k, i)
  | .insert k rid, i => some ((i k).isNone, if (i k).isNone then Function.update i k (some rid) else i)
  | .remove k, i => some ((), Function.update i k none)

theorem isMap_mapIndex : IsMap mapIndex id where
  getValue i _ := ⟨i, rfl, rfl⟩
  insert _ _ _ := ⟨_, rfl, rfl⟩
  remove _ _ := ⟨_, rfl, rfl⟩

theorem engine_refines_map_six : ∃ y, Plays mapIndex (newStore, fun _ => none)
    [.insert [0, 0, 0, 0, 0, 0, 0, 1] [5], .insert [0, 0, 0, 0, 0, 0, 0, 1] [6], .get [1],
      .get [0, 0, 0, 0, 0, 0, 0, 1], .remove [0, 0, 0, 0, 0, 0, 0, 1], .get [0, 0, 0, 0, 0, 0, 0, 1]]
    [.ok (.inserted true), .ok (.inserted false), .error badKey, .ok (.found (some [5])), .ok (.removed true),
      .ok (.found none)] y := by
  obtain ⟨y, hplays, _⟩ := engine_refines_map isMap_mapIndex (s := newStore) (i := fun _ => none) (Int.le_refl 0) rfl rfl
    [.insert [0, 0, 0, 0, 0, 0, 0, 1] [5], .insert [0, 0, 0, 0, 0, 0, 0, 1] [6], .get [1],
      .get [0, 0, 0, 0, 0, 0, 0, 1], .remove [0, 0, 0, 0, 0, 0, 0, 1], .get [0, 0, 0, 0, 0, 0, 0, 1]]
  exact ⟨y, (hplays _ _).mpr ⟨rfl, rfl⟩⟩

end DBPlayground.Storage.BPlusTreeEngine
