import DBPlayground.Lib.Machine

namespace DBPlayground.RelyGuarantee

open Program

/-- What a program runs among: how requests act on the shared state, what
the others may do between two requests, what this program promises about its
own steps, and the invariant that all of them keep. -/
structure Context (Op : Type) (Ans : Op → Type) (σ : Type) where
  exec : (o : Op) → σ → Ans o → σ → Prop
  rely : σ → σ → Prop
  guar : σ → σ → Prop
  inv : σ → Prop
  rely_refl : ∀ s, rely s s
  rely_trans : ∀ {s t u}, rely s t → rely t u → rely s u

variable {Op : Type} {Ans : Op → Type} {ε α β σ : Type} {C : Context Op Ans σ}

/-- Every interference allowed by the rely condition may happen before each
request and before the result is looked at. -/
def wp (C : Context Op Ans σ) : Prog Op Ans α → (α → σ → Prop) → σ → Prop
  | .ret a, Q, s => ∀ s', C.rely s s' → C.inv s' → Q a s'
  | .call o k, Q, s => ∀ s', C.rely s s' → C.inv s' → ∀ r s'', C.exec o s' r s'' →
      C.guar s' s'' ∧ C.inv s'' ∧ wp C (k r) Q s''

theorem wp_stable {p : Prog Op Ans α} {Q : α → σ → Prop} {s s' : σ}
    (h : wp C p Q s) (hr : C.rely s s') : wp C p Q s' := by
  cases p with
  | ret a => exact fun t ht hi => h t (C.rely_trans hr ht) hi
  | call o k => exact fun t ht hi => h t (C.rely_trans hr ht) hi

theorem wp_mono {p : Prog Op Ans α} {Q Q' : α → σ → Prop} {s : σ}
    (h : wp C p Q s) (hQ : ∀ a s', C.inv s' → Q a s' → Q' a s') : wp C p Q' s := by
  induction p generalizing s with
  | ret a => exact fun t ht hi => hQ a t hi (h t ht hi)
  | call o k ih =>
      intro t ht hi r u hx
      obtain ⟨hg, hu, hk⟩ := h t ht hi r u hx
      exact ⟨hg, hu, ih r hk⟩

theorem wp_bind {p : Prog Op Ans α} {f : α → Prog Op Ans β} {Q : β → σ → Prop} {s : σ}
    (hs : C.inv s) (h : wp C p (fun a => wp C (f a) Q) s) : wp C (p.bind f) Q s := by
  induction p generalizing s with
  | ret a => exact h s (C.rely_refl s) hs
  | call o k ih =>
      intro t ht hi r u hx
      obtain ⟨hg, hu, hk⟩ := h t ht hi r u hx
      exact ⟨hg, hu, ih r hu hk⟩

theorem wp_bind_ret {p : Prog Op Ans α} {f : α → Prog Op Ans β} {g : α → β} {Q : β → σ → Prop} {s : σ}
    (hf : ∀ a, f a = .ret (g a)) (h : wp C p (fun a => Q (g a)) s) : wp C (p.bind f) Q s := by
  induction p generalizing s with
  | ret a =>
      rw [Prog.bind, hf]
      exact h
  | call o k ih =>
      intro t ht hi r u hx
      obtain ⟨hg, hu, hk⟩ := h t ht hi r u hx
      exact ⟨hg, hu, ih r hk⟩

/-- The rule for methods keeps one postcondition for values and one for
exceptions, so that sequencing only has to treat values. -/
def wpm (C : Context Op Ans σ) (m : Method Op Ans ε α) (Q : α → σ → Prop) (E : ε → σ → Prop) :
    σ → Prop :=
  wp C m (fun r => match r with | .ok a => Q a | .error e => E e)

section Methods

variable {m : Method Op Ans ε α} {f : α → Method Op Ans ε β} {Q : β → σ → Prop}
  {E : ε → σ → Prop} {s : σ}

theorem wpm_stable {Q : α → σ → Prop} {s' : σ} (h : wpm C m Q E s) (hr : C.rely s s') :
    wpm C m Q E s' := wp_stable h hr

theorem wpm_mono {Q Q' : α → σ → Prop} (h : wpm C m Q E s)
    (hQ : ∀ a s', C.inv s' → Q a s' → Q' a s') : wpm C m Q' E s := by
  refine wp_mono h ?_
  intro r s' hi hr
  cases r with
  | ok a => exact hQ a s' hi hr
  | error e => exact hr

theorem wpm_bind (hs : C.inv s) (h : wpm C m (fun a => wpm C (f a) Q E) E s) :
    wpm C (m >>= f) Q E s := by
  refine wp_bind hs ?_
  induction m generalizing s with
  | ret r =>
      cases r with
      | ok a => exact h
      | error e => exact fun t ht hi u hu hv => h u (C.rely_trans ht hu) hv
  | call o k ih =>
      intro t ht hi r u hx
      obtain ⟨hg, hu, hk⟩ := h t ht hi r u hx
      exact ⟨hg, hu, ih r hu hk⟩

theorem wpm_pure {a : α} {Q : α → σ → Prop} (h : ∀ s', C.rely s s' → C.inv s' → Q a s') :
    wpm C (pure a : Method Op Ans ε α) Q E s := h

theorem wpm_throw {e : ε} {Q : α → σ → Prop} (h : ∀ s', C.rely s s' → C.inv s' → E e s') :
    wpm C (throw e : Method Op Ans ε α) Q E s := h

theorem wpm_lift {x : Except ε α} {Q : α → σ → Prop}
    (hok : ∀ a, x = .ok a → ∀ s', C.rely s s' → C.inv s' → Q a s')
    (herr : ∀ e, x = .error e → ∀ s', C.rely s s' → C.inv s' → E e s') :
    wpm C (Program.lift x : Method Op Ans ε α) Q E s := by
  cases x with
  | ok a => exact hok a rfl
  | error e => exact herr e rfl

theorem wpm_lift_bind {x : Except ε α} (hs : C.inv s) (hok : ∀ a, x = .ok a → wpm C (f a) Q E s)
    (herr : ∀ e, x = .error e → ∀ s', C.rely s s' → C.inv s' → E e s') :
    wpm C (Program.lift x >>= f) Q E s :=
  wpm_bind hs (wpm_lift (fun a ha _ hr _ => wpm_stable (hok a ha) hr) herr)

theorem wpm_tryCatch {h : ε → Method Op Ans ε α} {Q : α → σ → Prop} (hs : C.inv s)
    (hm : wpm C m Q (fun e => wpm C (h e) Q E) s) : wpm C (tryCatch m h) Q E s := by
  induction m generalizing s with
  | ret r =>
      cases r with
      | ok a => exact hm
      | error e => exact hm s (C.rely_refl s) hs
  | call o k ih =>
      intro t ht hi r u hx
      obtain ⟨hg, hu, hk⟩ := hm t ht hi r u hx
      exact ⟨hg, hu, ih r hu hk⟩

theorem wpm_perform_bind {o : Op} {f : Ans o → Method Op Ans ε β}
    (h : ∀ s', C.rely s s' → C.inv s' → ∀ r s'', C.exec o s' r s'' → C.guar s' s'' ∧ C.inv s'' ∧ wpm C (f r) Q E s'') :
    wpm C (Machine.perform o >>= f) Q E s := h

end Methods

theorem wpm_ask_bind {Res : Op → Type} {C : Context Op (fun o => Except ε (Res o)) σ} {o : Op}
    {f : Res o → Method Op (fun o => Except ε (Res o)) ε β} {Q : β → σ → Prop} {E : ε → σ → Prop} {s : σ}
    (h : ∀ s', C.rely s s' → C.inv s' → ∀ r s'', C.exec o s' r s'' → C.guar s' s'' ∧ C.inv s'' ∧
      match r with
      | .ok a => wpm C (f a) Q E s''
      | .error e => ∀ t, C.rely s'' t → C.inv t → E e t) : wpm C (ask o >>= f) Q E s := by
  intro t ht hi r u hx
  obtain ⟨hg, hu, hQ⟩ := h t ht hi r u hx
  refine ⟨hg, hu, ?_⟩
  cases r with
  | ok a => exact hQ
  | error e => exact hQ

end DBPlayground.RelyGuarantee
