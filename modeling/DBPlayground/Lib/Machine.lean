import DBPlayground.Lib.Program

namespace DBPlayground.Machine

open Program

variable {Op : Type} {Ans : Op → Type} {σ ε α β : Type}

/-- A handler carries out one request at a time; `none` marks a request it
has no answer for. -/
abbrev Handler (Op : Type) (Ans : Op → Type) (σ : Type) := (o : Op) → σ → Option (Ans o × σ)

def run (M : Handler Op Ans σ) : Prog Op Ans α → σ → Option (α × σ)
  | .ret a, s => some (a, s)
  | .call o k, s =>
    match M o s with
    | none => none
    | some (r, t) => run M (k r) t

def perform (o : Op) : Method Op Ans ε (Ans o) := Prog.call o fun r => .ret (.ok r)

variable {M : Handler Op Ans σ} {s t u : σ}

theorem run_bind (p : Prog Op Ans α) (f : α → Prog Op Ans β) :
    run M (p.bind f) s = (run M p s).bind fun x => run M (f x.1) x.2 := by
  induction p generalizing s with
  | ret a => rfl
  | call o k ih =>
      simp only [Prog.bind, run]
      cases M o s with
      | none => rfl
      | some x => exact ih x.1

def Returns (M : Handler Op Ans σ) (m : Method Op Ans ε α) (s : σ) (a : α) (t : σ) : Prop :=
  run M m.run s = some (.ok a, t)

def Throws (M : Handler Op Ans σ) (m : Method Op Ans ε α) (s : σ) (e : ε) (t : σ) : Prop :=
  run M m.run s = some (.error e, t)

variable {m : Method Op Ans ε α} {f : α → Method Op Ans ε β} {a : α} {b : β} {e : ε}

theorem returns_pure : Returns M (pure a : Method Op Ans ε α) s a s := rfl

theorem returns_perform {o : Op} {r : Ans o} (h : M o s = some (r, t)) :
    Returns M (perform o : Method Op Ans ε (Ans o)) s r t := by
  unfold Returns
  rw [show (perform o : Method Op Ans ε (Ans o)).run = Prog.call o fun r => .ret (.ok r) from rfl]
  simp [run, h]

theorem run_bindM : run M (m >>= f).run s = (run M m.run s).bind fun x =>
    match x.1 with
    | .ok a => run M (f a).run x.2
    | .error e => some (.error e, x.2) := by
  refine (run_bind m _).trans ?_
  congr 1
  funext x
  obtain ⟨r, y⟩ := x
  cases r with
  | ok a => rfl
  | error e => rfl

theorem Returns.bind (hm : Returns M m s a t) (hf : Returns M (f a) t b u) : Returns M (m >>= f) s b u := by
  unfold Returns at hm hf ⊢
  rw [run_bindM, hm]
  exact hf

theorem Returns.throws (hm : Returns M m s a t) (hf : Throws M (f a) t e u) : Throws M (m >>= f) s e u := by
  unfold Returns at hm
  unfold Throws at hf ⊢
  rw [run_bindM, hm]
  exact hf

theorem Throws.bind (hm : Throws M m s e t) : Throws M (m >>= f) s e t := by
  unfold Throws at hm ⊢
  rw [run_bindM, hm]
  rfl

/-- The method ends with this result, a value or an exception. -/
abbrev Ends (M : Handler Op Ans σ) (m : Method Op Ans ε α) (s : σ) (r : Except ε α) (t : σ) : Prop :=
  run M m.run s = some (r, t)

theorem Ends.bind {r : Except ε β} (hm : Ends M m s (.ok a) t) (hf : Ends M (f a) t r u) : Ends M (m >>= f) s r u := by
  unfold Ends at hm hf ⊢
  rw [run_bindM, hm]
  exact hf

theorem Ends.throw (hm : Ends M m s (.error e) t) : Ends M (m >>= f) s (.error e) t := Throws.bind hm

theorem ends_perform {o : Op} {x : Ans o} {k : Ans o → Method Op Ans ε β} {r : Except ε β} (h : M o s = some (x, t))
    (hk : Ends M (k x) t r u) : Ends M (perform o >>= k) s r u :=
  Ends.bind (returns_perform h) hk

theorem ends_pure : Ends M (pure a : Method Op Ans ε α) s (.ok a) s := rfl

theorem ends_lift {x : Except ε α} {r : Except ε β} (hx : x = .ok a) (hf : Ends M (f a) s r t) :
    Ends M (Program.lift x >>= f) s r t := by
  subst hx
  exact hf

theorem ends_lift_throw {x : Except ε α} (hx : x = .error e) : Ends M (Program.lift x >>= f) s (.error e) s := by
  subst hx
  rfl

theorem Returns.unique {a' : α} {t' : σ} (h : Returns M m s a t) (h' : Returns M m s a' t') :
    a = a' ∧ t = t' := by
  unfold Returns at h h'
  rw [h] at h'
  cases h'
  exact ⟨rfl, rfl⟩

section simulation

variable {τ : Type} {N : Handler Op Ans τ} {R : σ → τ → Prop} {x : τ}

/-- Whatever the first handler answers, the second answers too. -/
def Simulates (M : Handler Op Ans σ) (N : Handler Op Ans τ) (R : σ → τ → Prop) : Prop :=
  ∀ o s x r t, R s x → M o s = some (r, t) → ∃ y, N o x = some (r, y) ∧ R t y

theorem Simulates.run (hsim : Simulates M N R) {p : Prog Op Ans α} (hr : R s x) (hm : run M p s = some (a, t)) :
    ∃ y, run N p x = some (a, y) ∧ R t y := by
  induction p generalizing s x with
  | ret b =>
      cases hm
      exact ⟨x, rfl, hr⟩
  | call o k ih =>
      unfold Machine.run at hm ⊢
      cases ho : M o s with
      | none =>
          rw [ho] at hm
          cases hm
      | some q =>
          rw [ho] at hm
          obtain ⟨y, hy, hry⟩ := hsim o s x q.1 q.2 hr ho
          rw [hy]
          exact ih q.1 hry hm

theorem run_invariant {I : σ → Prop} (hI : ∀ o s r t, I s → M o s = some (r, t) → I t) {p : Prog Op Ans α} (hs : I s)
    (hm : run M p s = some (a, t)) : I t := by
  have hsim : Simulates M M fun s x => s = x ∧ I s := by
    rintro o s _ r t ⟨rfl, hs⟩ ho
    exact ⟨t, ho, rfl, hI o s r t hs ho⟩
  obtain ⟨_, _, _, ht⟩ := hsim.run ⟨rfl, hs⟩ hm
  exact ht

theorem Simulates.returns (hsim : Simulates M N R) (hr : R s x) (hm : Returns M m s a t) :
    ∃ y, Returns N m x a y ∧ R t y :=
  hsim.run hr hm

/-- Whenever the program makes a request, the request meets `P` in the state at
that moment. -/
def Always (M : Handler Op Ans σ) (P : Op → σ → Prop) : Prog Op Ans α → σ → Prop
  | .ret _, _ => True
  | .call o k, s => P o s ∧ ∀ r t, M o s = some (r, t) → Always M P (k r) t

theorem Always.bindM {P : Op → σ → Prop} (hm : Always M P m.run s)
    (hf : ∀ a t, Ends M m s (.ok a) t → Always M P (f a).run t) : Always M P (m >>= f).run s := by
  have hbind : ∀ (p : Prog Op Ans (Except ε α)) (s : σ), Always M P p s →
      (∀ a t, Machine.run M p s = some (.ok a, t) → Always M P (f a).run t) →
      Always M P (p.bind (ExceptT.bindCont f)) s := by
    intro p
    induction p with
    | ret r =>
        intro s _ hf
        cases r with
        | ok a => exact hf a s rfl
        | error e => trivial
    | call o k ih =>
        intro s hp hf
        refine ⟨hp.1, fun r t ho => ih r t (hp.2 r t ho) fun a u hr => hf a u ?_⟩
        rw [Machine.run, ho]
        exact hr
  exact hbind m.run s hm hf

theorem Always.left {P : Op → σ → Prop} (h : Always M P (m >>= f).run s) : Always M P m.run s := by
  have hbind : ∀ (p : Prog Op Ans (Except ε α)) (s : σ), Always M P (p.bind (ExceptT.bindCont f)) s → Always M P p s := by
    intro p
    induction p with
    | ret r => exact fun _ _ => trivial
    | call o k ih => exact fun s hp => ⟨hp.1, fun r t ho => ih r t (hp.2 r t ho)⟩
  exact hbind m.run s h

theorem Always.right {P : Op → σ → Prop} (h : Always M P (m >>= f).run s) (hm : Ends M m s (.ok a) t) :
    Always M P (f a).run t := by
  have hbind : ∀ (p : Prog Op Ans (Except ε α)) (s : σ), Always M P (p.bind (ExceptT.bindCont f)) s →
      Machine.run M p s = some (.ok a, t) → Always M P (f a).run t := by
    intro p
    induction p with
    | ret r =>
        intro s hp hr
        cases hr
        exact hp
    | call o k ih =>
        intro s hp hr
        rw [Machine.run] at hr
        cases ho : M o s with
        | none =>
            rw [ho] at hr
            cases hr
        | some y =>
            rw [ho] at hr
            exact ih y.1 y.2 (hp.2 y.1 y.2 ho) hr
  exact hbind m.run s h hm

theorem Always.perform {P : Op → σ → Prop} {o : Op} {x : Ans o} {k : Ans o → Method Op Ans ε β}
    (h : Always M P (perform o >>= k).run s) (ho : M o s = some (x, t)) : Always M P (k x).run t :=
  h.2 x t ho

def checks (M : Handler Op Ans σ) (P : Op → σ → Bool) : Prog Op Ans α → σ → Bool
  | .ret _, _ => true
  | .call o k, s => P o s && (M o s).elim true fun y => checks M P (k y.1) y.2

theorem always_of_checks {P : Op → σ → Bool} {p : Prog Op Ans α} (h : checks M P p s = true) :
    Always M (fun o s => P o s = true) p s := by
  induction p generalizing s with
  | ret a => trivial
  | call o k ih =>
      obtain ⟨hp, hk⟩ := (Bool.and_eq_true _ _).mp h
      refine ⟨hp, fun r t ho => ih r ?_⟩
      rwa [ho] at hk

/-- The handler refuses the requests that do not meet `P`. -/
def guard (M : Handler Op Ans σ) (P : Op → σ → Bool) : Handler Op Ans σ := fun o s => if P o s then M o s else none

theorem guard_eq_some {P : Op → σ → Bool} {o : Op} {x : Ans o × σ} :
    guard M P o s = some x ↔ P o s = true ∧ M o s = some x := by
  unfold guard
  split
  · next hp => exact ⟨fun h => ⟨hp, h⟩, And.right⟩
  · next hp => exact ⟨fun h => (by cases h), fun h => absurd h.1 hp⟩

theorem Always.guard {P : Op → σ → Prop} {Q : Op → σ → Bool} {p : Prog Op Ans α} (h : Always M P p s) :
    Always (guard M Q) P p s := by
  induction p generalizing s with
  | ret a => trivial
  | call o k ih => exact ⟨h.1, fun r t ho => ih r (h.2 r t (guard_eq_some.mp ho).2)⟩

/-- A run of the guarded handler is one of the handler itself that meets `P` all the way. -/
theorem run_guard {P : Op → σ → Bool} {p : Prog Op Ans α} {x : α × σ} :
    run (guard M P) p s = some x ↔ run M p s = some x ∧ Always M (fun o s => P o s = true) p s := by
  induction p generalizing s with
  | ret a => exact ⟨fun h => ⟨h, trivial⟩, And.left⟩
  | call o k ih =>
      unfold Machine.run
      cases ho : M o s with
      | none =>
          have hg : Machine.guard M P o s = none := by
            unfold Machine.guard
            rw [ho, ite_self]
          rw [hg]
          exact ⟨fun h => (by cases h), fun h => by cases h.1⟩
      | some y =>
          by_cases hp : P o s = true
          · rw [show Machine.guard M P o s = some y from guard_eq_some.mpr ⟨hp, ho⟩]
            refine (ih y.1).trans (and_congr_right fun _ => ⟨fun h => ⟨hp, fun r t hr => ?_⟩, fun h => h.2 _ _ ho⟩)
            cases ho.symm.trans hr
            exact h
          · rw [show Machine.guard M P o s = none from if_neg hp]
            exact ⟨fun h => (by cases h), fun h => absurd h.2.1 hp⟩

/-- The method ends with this result, and every request it makes meets `P`. -/
structure EndsWithin (M : Handler Op Ans σ) (P : Op → σ → Prop) (m : Method Op Ans ε α) (s : σ) (r : Except ε α) (t : σ) :
    Prop where
  ends : Ends M m s r t
  always : Always M P m.run s

theorem EndsWithin.bind {P : Op → σ → Prop} {r : Except ε β} (hm : EndsWithin M P m s (.ok a) t)
    (hf : EndsWithin M P (f a) t r u) : EndsWithin M P (m >>= f) s r u where
  ends := hm.ends.bind hf.ends
  always := by
    refine hm.always.bindM fun a' t' h' => ?_
    obtain ⟨ha, rfl⟩ := Prod.mk.inj (Option.some.inj (hm.ends.symm.trans h'))
    cases ha
    exact hf.always

/-- Whatever the first handler answers, the second answers too where the request meets `P`. -/
def SimulatesWhile (P : Op → τ → Prop) (M : Handler Op Ans σ) (N : Handler Op Ans τ) (R : σ → τ → Prop) : Prop :=
  ∀ o s x r t, R s x → P o x → M o s = some (r, t) → ∃ y, N o x = some (r, y) ∧ R t y

theorem SimulatesWhile.run {P : Op → τ → Prop} (hsim : SimulatesWhile P M N R) {p : Prog Op Ans α} (hr : R s x)
    (hp : Always N P p x) (hm : Machine.run M p s = some (a, t)) : ∃ y, Machine.run N p x = some (a, y) ∧ R t y := by
  induction p generalizing s x with
  | ret b =>
      cases hm
      exact ⟨x, rfl, hr⟩
  | call o k ih =>
      unfold Machine.run at hm ⊢
      cases ho : M o s with
      | none =>
          rw [ho] at hm
          cases hm
      | some q =>
          rw [ho] at hm
          obtain ⟨y, hy, hry⟩ := hsim o s x q.1 q.2 hr hp.1 ho
          rw [hy]
          exact ih q.1 hry (hp.2 q.1 y hy) hm

theorem Simulates.always {P : Op → τ → Prop} (hsim : Simulates M N R)
    (hP : ∀ o s x r t, R s x → M o s = some (r, t) → P o x) {p : Prog Op Ans α} (hr : R s x)
    (hm : Machine.run M p s = some (a, t)) : Always N P p x := by
  induction p generalizing s x with
  | ret b => trivial
  | call o k ih =>
      unfold Machine.run at hm
      cases ho : M o s with
      | none =>
          rw [ho] at hm
          cases hm
      | some q =>
          rw [ho] at hm
          refine ⟨hP o s x q.1 q.2 hr ho, fun r y hy => ?_⟩
          obtain ⟨y', hy', hry⟩ := hsim o s x q.1 q.2 hr ho
          obtain ⟨rfl, rfl⟩ := Prod.mk.inj (Option.some.inj (hy'.symm.trans hy))
          exact ih q.1 hry hm

end simulation

end DBPlayground.Machine
