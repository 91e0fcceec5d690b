import DBPlayground.Lib.Session
import DBPlayground.Lib.Machine

namespace DBPlayground.Solo

open Program Session

variable {ι Op σ Env Call Reply α β ε : Type} {Ans : Op → Type} {S : Service ι Op Ans σ Env Call Reply}
  {i : ι} {c : Call} {s t u : σ}

/-- Object `i` carries out a program of call `c` while nobody else moves. -/
inductive Runs (S : Service ι Op Ans σ Env Call Reply) (i : ι) (c : Call) : Prog Op Ans α → σ → α → σ → Prop
  | ret (a : α) (s : σ) : Runs S i c (.ret a) s a s
  | call {o : Op} {k : Ans o → Prog Op Ans α} {r : Ans o} {s s' t : σ} {a : α}
      (hx : S.exec i c o s r s') (hk : Runs S i c (k r) s' a t) : Runs S i c (.call o k) s a t

theorem Runs.bind {p : Prog Op Ans α} {f : α → Prog Op Ans β} {a : α} {b : β} (hp : Runs S i c p s a t)
    (hf : Runs S i c (f a) t b u) : Runs S i c (p.bind f) s b u := by
  induction hp with
  | ret a s => exact hf
  | call hx _ ih => exact .call hx (ih hf)

theorem Runs.of_run {M : Machine.Handler Op Ans σ} {p : Prog Op Ans α} {a : α}
    (hM : ∀ o s r t, M o s = some (r, t) → S.exec i c o s r t) (h : Machine.run M p s = some (a, t)) :
    Runs S i c p s a t := by
  induction p generalizing s with
  | ret b =>
      cases h
      exact .ret _ _
  | call o k ih =>
      unfold Machine.run at h
      cases ho : M o s with
      | none =>
          rw [ho] at h
          cases h
      | some q =>
          rw [ho] at h
          exact .call (hM o s q.1 q.2 ho) (ih q.1 h)

abbrev RunsM (S : Service ι Op Ans σ Env Call Reply) (i : ι) (c : Call) (m : Method Op Ans ε α) (s : σ)
    (r : Except ε α) (t : σ) : Prop :=
  Runs S i c (show Prog Op Ans (Except ε α) from m) s r t

theorem runsM_bind {m : Method Op Ans ε α} {f : α → Method Op Ans ε β} {a : α} {r : Except ε β}
    (hm : RunsM S i c m s (.ok a) t) (hf : RunsM S i c (f a) t r u) : RunsM S i c (m >>= f) s r u :=
  hm.bind hf

theorem runsM_throw {m : Method Op Ans ε α} {f : α → Method Op Ans ε β} {e : ε}
    (hm : RunsM S i c m s (.error e) t) : RunsM S i c (m >>= f) s (.error e) t :=
  hm.bind (.ret _ _)

theorem runsM_pure (a : α) : RunsM S i c (pure a : Method Op Ans ε α) s (.ok a) s := .ret _ _

theorem runsM_lift {x : Except ε α} {a : α} {f : α → Method Op Ans ε β} {r : Except ε β} (hx : x = .ok a)
    (hf : RunsM S i c (f a) s r t) : RunsM S i c (lift x >>= f) s r t := by
  subst hx
  exact hf

theorem runsM_lift_throw {x : Except ε α} {e : ε} {f : α → Method Op Ans ε β} (hx : x = .error e) :
    RunsM S i c (lift x >>= f) s (.error e) s := by
  subst hx
  exact .ret _ _

variable [DecidableEq ι] {th : ι → Thread Op Ans Call Reply} {o : Outcome Call Reply}

theorem step_exec {o : Op} {k : Ans o → Prog Op Ans (Outcome Call Reply)} {r : Ans o} (hx : S.exec i c o s r t) :
    Step S ⟨s, Function.update th i (.busy c (.call o k))⟩ ⟨t, Function.update th i (.busy c (k r))⟩ := by
  have hstep := Step.request (S := S) ⟨s, Function.update th i (.busy c (.call o k))⟩ i c o k r t
    (by simp only [Function.update_self]) hx
  simp only [Function.update_idem] at hstep
  exact hstep

theorem update_ne_idle {p : Prog Op Ans (Outcome Call Reply)} : Function.update th i (.busy c p) i ≠ .idle := by
  rw [Function.update_self]
  intro h
  cases h

theorem Runs.during {p : Prog Op Ans (Outcome Call Reply)} (h : Runs S i c p s o t) :
    During S i ⟨s, Function.update th i (.busy c p)⟩ ⟨t, Function.update th i (.busy c (.ret o))⟩ := by
  induction h with
  | ret a s => exact .refl
  | call hx _ ih => exact .head ⟨step_exec hx, update_ne_idle⟩ ih

/-- A run that begins with a request, cut behind it. -/
theorem Runs.first {q : Op} {k : Ans q → Prog Op Ans (Outcome Call Reply)} (h : Runs S i c (.call q k) s o t) :
    ∃ z, Step S ⟨s, Function.update th i (.busy c (.call q k))⟩ z ∧ z.thread i ≠ .busy c (.call q k) ∧
      z.thread i ≠ .idle ∧ During S i z ⟨t, Function.update th i (.busy c (.ret o))⟩ := by
  cases h with
  | call hx hk =>
      refine ⟨_, step_exec hx, ?_, update_ne_idle, hk.during⟩
      intro h
      have hk := (Function.update_self i _ th).symm.trans h
      exact Prog.ne_of_call _ rfl _ (Thread.busy.inj hk).2

theorem Runs.steps {p : Prog Op Ans (Outcome Call Reply)} (h : Runs S i c p s o t) :
    Steps S ⟨s, Function.update th i (.busy c p)⟩ ⟨t, Function.update th i (.busy c (.ret o))⟩ := h.during.steps

theorem steps_call (hc : S.entry i c = true) (h : Runs S i c (S.code i c) (S.enter i c s) o t) :
    Steps S ⟨s, Function.update th i .idle⟩ ⟨t, Function.update th i (.busy c (.ret o))⟩ := by
  have hstep := Step.call (S := S) ⟨s, Function.update th i .idle⟩ i c (by simp only [Function.update_self]) hc
  simp only [Function.update_idem] at hstep
  exact .head hstep h.steps

theorem steps_tail {d : Call} :
    Steps S ⟨s, Function.update th i (.busy c (.ret (.tail d)))⟩ ⟨s, Function.update th i (.busy d (S.code i d))⟩ := by
  have hstep := Step.tail (S := S) ⟨s, Function.update th i (.busy c (.ret (.tail d)))⟩ i c d
    (by simp only [Function.update_self])
  simp only [Function.update_idem] at hstep
  exact .single hstep

theorem steps_reply {r : Reply} :
    Steps S ⟨s, Function.update th i (.busy c (.ret (.done r)))⟩ ⟨s, Function.update th i .idle⟩ := by
  have hstep := Step.reply (S := S) ⟨s, Function.update th i (.busy c (.ret (.done r)))⟩ i c r
    (by simp only [Function.update_self])
  simp only [Function.update_idem] at hstep
  exact .single hstep

theorem replies_done {r : Reply} :
    Replies (⟨s, Function.update th i (.busy c (.ret (.done r)))⟩ : Config ι Op Ans σ Call Reply) i c r :=
  Function.update_self i _ th

end DBPlayground.Solo
