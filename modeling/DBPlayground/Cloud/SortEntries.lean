import DBPlayground.Cloud.WalIndexer

namespace DBPlayground.SortEntries

open ByteReader Table Wire Records Store WalIndexer

section Order

variable {a b c : Bytes}

theorem bytesLe_total (a b : Bytes) : (bytesLe a b || bytesLe b a) = true := by
  induction a generalizing b with
  | nil => rfl
  | cons x xs ih =>
      cases b with
      | nil => rfl
      | cons y ys =>
          have hrest := ih ys
          simp only [bytesLe, Bool.or_eq_true, Bool.and_eq_true, decide_eq_true_eq, beq_iff_eq] at hrest ⊢
          by_cases hxy : x = y
          · subst hxy
            tauto
          · have hne : x.toNat ≠ y.toNat := fun h => hxy (BitVec.eq_of_toNat_eq h)
            omega

theorem bytesLe_trans (hab : bytesLe a b = true) (hbc : bytesLe b c = true) : bytesLe a c = true := by
  induction a generalizing b c with
  | nil => rfl
  | cons x xs ih =>
      cases b with
      | nil => cases hab
      | cons y ys =>
          cases c with
          | nil => cases hbc
          | cons z zs =>
              simp only [bytesLe, Bool.or_eq_true, Bool.and_eq_true, decide_eq_true_eq, beq_iff_eq] at hab hbc ⊢
              obtain hxy | ⟨rfl, hxy⟩ := hab
              · obtain hyz | ⟨rfl, _⟩ := hbc
                · exact .inl (Nat.lt_trans hxy hyz)
                · exact .inl hxy
              · obtain hyz | ⟨rfl, hyz⟩ := hbc
                · exact .inl hyz
                · exact .inr ⟨rfl, ih hxy hyz⟩

theorem bytesLe_antisymm (hab : bytesLe a b = true) (hba : bytesLe b a = true) : a = b := by
  induction a generalizing b with
  | nil =>
      cases b with
      | nil => rfl
      | cons y ys => cases hba
  | cons x xs ih =>
      cases b with
      | nil => cases hab
      | cons y ys =>
          simp only [bytesLe, Bool.or_eq_true, Bool.and_eq_true, decide_eq_true_eq, beq_iff_eq] at hab hba
          obtain hxy | ⟨rfl, hxy⟩ := hab
          · obtain hyx | ⟨rfl, _⟩ := hba
            · omega
            · omega
          · obtain hyx | ⟨_, hyx⟩ := hba
            · omega
            · rw [ih hxy hyx]

end Order

theorem mem_of_mem_uniqueAfter {last e : SequentialBatchEntry} {es : List SequentialBatchEntry}
    (h : e ∈ uniqueAfter last es) : e ∈ es := by
  induction es generalizing last with
  | nil => cases h
  | cons a es ih =>
      rw [uniqueAfter] at h
      split at h
      · exact List.mem_cons_of_mem _ (ih h)
      · rcases List.mem_cons.mp h with rfl | h
        · exact List.mem_cons_self
        · exact List.mem_cons_of_mem _ (ih h)

theorem id_mem_uniqueAfter (last : SequentialBatchEntry) {e : SequentialBatchEntry}
    {es : List SequentialBatchEntry} (h : e ∈ es) :
    e.batchId = last.batchId ∨ ∃ e' ∈ uniqueAfter last es, e'.batchId = e.batchId := by
  induction es generalizing last with
  | nil => cases h
  | cons a es ih =>
      rw [uniqueAfter]
      split
      · rename_i heq
        rcases List.mem_cons.mp h with rfl | h
        · exact .inl heq
        · exact ih last h
      · rcases List.mem_cons.mp h with rfl | h
        · exact .inr ⟨e, List.mem_cons_self, rfl⟩
        · rcases ih a h with heq | ⟨e', he', heq⟩
          · exact .inr ⟨a, List.mem_cons_self, heq.symm⟩
          · exact .inr ⟨e', List.mem_cons_of_mem _ he', heq⟩

theorem mem_of_mem_sortEntries {e : SequentialBatchEntry} {es : List SequentialBatchEntry}
    (h : e ∈ sortEntries es) : e ∈ es := by
  refine List.mem_mergeSort.mp (?_ : e ∈ es.mergeSort fun a b => bytesLe a.batchId b.batchId)
  revert h
  unfold sortEntries
  cases es.mergeSort fun a b => bytesLe a.batchId b.batchId with
  | nil => exact id
  | cons a es =>
      intro h
      rcases List.mem_cons.mp h with rfl | h
      · exact List.mem_cons_self
      · exact List.mem_cons_of_mem _ (mem_of_mem_uniqueAfter h)

theorem id_mem_sortEntries {e : SequentialBatchEntry} {es : List SequentialBatchEntry} (h : e ∈ es) :
    ∃ e' ∈ sortEntries es, e'.batchId = e.batchId := by
  have h : e ∈ es.mergeSort fun a b => bytesLe a.batchId b.batchId := List.mem_mergeSort.mpr h
  revert h
  unfold sortEntries
  cases es.mergeSort fun a b => bytesLe a.batchId b.batchId with
  | nil => exact fun h => nomatch h
  | cons a es =>
      intro h
      rcases List.mem_cons.mp h with rfl | h
      · exact ⟨e, List.mem_cons_self, rfl⟩
      · rcases id_mem_uniqueAfter a h with heq | ⟨e', he', heq⟩
        · exact ⟨a, List.mem_cons_self, heq.symm⟩
        · exact ⟨e', List.mem_cons_of_mem _ he', heq⟩

theorem nodup_uniqueAfter {last : SequentialBatchEntry} {es : List SequentialBatchEntry}
    (h : (last :: es).Pairwise fun a b => bytesLe a.batchId b.batchId = true) :
    ((last :: uniqueAfter last es).map (·.batchId)).Nodup := by
  induction es generalizing last with
  | nil => exact List.pairwise_singleton _ _
  | cons e es ih =>
      obtain ⟨hlast, hes⟩ := List.pairwise_cons.mp h
      rw [uniqueAfter]
      split
      · obtain ⟨_, hrest⟩ := List.pairwise_cons.mp hes
        exact ih (List.pairwise_cons.mpr ⟨fun x hx => hlast x (List.mem_cons_of_mem e hx), hrest⟩)
      · rename_i hne
        rw [List.map_cons, List.nodup_cons]
        refine ⟨?_, ih hes⟩
        intro hmem
        obtain ⟨x, hx, heq⟩ := List.mem_map.mp hmem
        rcases List.mem_cons.mp hx with rfl | hx
        · exact hne heq
        · have hex := (List.pairwise_cons.mp hes).1 x (mem_of_mem_uniqueAfter hx)
          rw [heq] at hex
          exact hne (bytesLe_antisymm hex (hlast e List.mem_cons_self))

theorem nodup_sortEntries (es : List SequentialBatchEntry) : ((sortEntries es).map (·.batchId)).Nodup := by
  have htrans : ∀ a b c : SequentialBatchEntry, bytesLe a.batchId b.batchId = true → bytesLe b.batchId c.batchId = true →
      bytesLe a.batchId c.batchId = true := fun _ _ _ => bytesLe_trans
  have hsorted := List.pairwise_mergeSort htrans (fun a b => bytesLe_total a.batchId b.batchId) es
  revert hsorted
  unfold sortEntries
  cases es.mergeSort fun a b => bytesLe a.batchId b.batchId with
  | nil => exact fun _ => List.nodup_nil
  | cons e es => exact nodup_uniqueAfter

end DBPlayground.SortEntries
