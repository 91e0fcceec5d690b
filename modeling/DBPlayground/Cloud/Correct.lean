import DBPlayground.Cloud.ImportSpec
import DBPlayground.Cloud.StartSpec
import DBPlayground.Cloud.IndexSpec
import DBPlayground.Cloud.LoadSpec

namespace DBPlayground.Correct

open ByteReader Table Wire Records Keys WalCodec Program RelyGuarantee Session Store StateStore TableWriter
  WalIndexer SnapshotLoader CloudSystem Log Invariant Rules Contract

variable {ι : Type} [DecidableEq ι] {P : Params ι} {i : ι} {c : Call} {s : World ι}

theorem method_ok (hs : Inv P s) (hpre : Pre P i c s) :
    wpm (ctx P i c) (method P i c) (Ends P i c) (Throws P i c) s := by
  cases c with
  | start => exact StartSpec.start_ok hs hpre
  | fence seq epoch => exact StartSpec.fence_ok hs hpre
  | importBatch b => exact ImportSpec.import_ok hs hpre.1 hpre.2
  | publish b seq epoch => exact PublishSpec.publish_ok hs hpre
  | index => exact IndexSpec.index_ok hs hpre
  | load n => exact LoadSpec.load_ok hs hpre

/-- An exception that leaves a method becomes the reply. -/
def outcome : Except Exn (Outcome Call Reply) → Outcome Call Reply
  | .ok o => o
  | .error x => .done (.threw x)

theorem wp_code {Q : Outcome Call Reply → World ι → Prop}
    (h : wpm (ctx P i c) (method P i c) Q (fun x => Q (.done (.threw x))) s) :
    wp (ctx P i c) ((service P).code i c) Q s := by
  refine wp_bind_ret (g := outcome) ?_ (wp_mono h ?_)
  · intro r
    cases r <;> rfl
  · intro r t _ hr
    cases r <;> exact hr

omit [DecidableEq ι] in
theorem inv_empty (P : Params ι) : Inv P (World.empty : World ι) where
  slots _ _ h := nomatch h
  files _ h := nomatch h
  onlySlots _ _ h := nomatch h
  room := Nat.two_pow_pos 64
  onlyIssued _ _ h := nomatch h
  disjoint _ _ _ _ h := nomatch h
  sorted _ _ _ _ _ h := nomatch h
  blocks _ _ h := nomatch h
  fences _ h := nomatch h
  stamps _ _ h := nomatch h
  authors := List.nodup_nil
  epochs := List.Pairwise.nil
  held _ := Held.of_none rfl
  lives _ h := nomatch h
  versions _ _ h := nomatch h
  absent _ := ⟨rfl, rfl⟩
  current _ h := nomatch h

theorem enter_ok (hs : Inv P s) (hidle : Idle P i s) (hc : (service P).entry i c = true) :
    Guar P i s (s.enter i c) ∧ Inv P (s.enter i c) ∧ Pre P i c (s.enter i c) := by
  refine ⟨guar_enter, hs.enter, ?_⟩
  simp only [service, Bool.and_eq_true] at hc
  obtain ⟨hclient, haccept⟩ := hc
  cases c with
  | fence | publish => cases hclient
  | index | load => exact hidle
  | importBatch b => exact ⟨hidle, i, haccept⟩
  | start =>
      cases hcur : (s.writers i).currentState with
      | some cs =>
          have hsame : s.enter i .start = s := by simp only [World.enter, hcur]
          rw [hsame]
          refine ⟨hidle, ?_⟩
          rw [hcur]
          exact fun h => nomatch h
      | none =>
          have hnew : s.enter i .start =
              { s with incarnation := Function.update s.incarnation i (s.incarnation i + 1) } := by
            simp only [World.enter, hcur]
          rw [hnew]
          refine ⟨Idle.of_none hcur, ?_⟩
          intro _ a ha heq
          have hle := hs.lives a ha
          rw [heq] at hle
          simp only [Function.update_self] at hle
          omega

/-- Every call of every object keeps its contract, whatever the others do. -/
def verified (P : Params ι) : Verified (service P) where
  inv := Inv P
  rely := Rely P
  guar := Guar P
  idle := Idle P
  pre := Pre P
  post := Post P
  rely_refl := Rely.refl
  rely_trans := Rely.trans
  guar_rely hij hg := hg.others _ (Ne.symm hij)
  idle_stable hs ht hidle hr := hidle.quiet hs ht hr.quiet
  enter_ok := enter_ok
  code_ok {i c _} hs hpre := wp_mono (wp_code (Q := Ends P i c) (method_ok hs hpre)) fun o _ _ h => by
    cases o <;> exact h

theorem good_initial (P : Params ι) : (verified P).Good initial := by
  refine ⟨inv_empty P, ?_⟩
  intro i
  exact Idle.of_none rfl

theorem good_of_reachable {x : Config ι Op Ans (World ι) Call Reply} (h : Reachable P x) :
    (verified P).Good x := (good_initial P).steps h

theorem inv_of_reachable {x : Config ι Op Ans (World ι) Call Reply} (h : Reachable P x) : Inv P x.store :=
  (good_of_reachable h).inv

theorem grow_of_steps {x y : Config ι Op Ans (World ι) Call Reply} (h : Reachable P x)
    (hs : Steps (service P) x y) : Grow P x.store y.store :=
  (good_of_reachable h).evolves (P := Grow P) Grow.refl Grow.trans Guar.grow hs

end DBPlayground.Correct
