import DBPlayground.Lib.RelyGuarantee

namespace DBPlayground.Effects

open Program RelyGuarantee

variable {Op : Type} {Ans : Op → Type} {ε α β σ : Type} {R : Op → Prop}

/-- All requests of the program are among `R`, and all its results among `L`,
whatever the answers are. -/
def Within (R : Op → Prop) (L : α → Prop) : Prog Op Ans α → Prop
  | .ret a => L a
  | .call o k => R o ∧ ∀ r, Within R L (k r)

theorem within_bind {L : β → Prop} {p : Prog Op Ans α} {f : α → Prog Op Ans β}
    (h : Within R (fun a => Within R L (f a)) p) : Within R L (p.bind f) := by
  induction p with
  | ret a => exact h
  | call o k ih => exact ⟨h.1, fun r => ih r (h.2 r)⟩

theorem Within.mono {R' : Op → Prop} {L L' : α → Prop} {p : Prog Op Ans α} (h : Within R L p)
    (hR : ∀ o, R o → R' o) (hL : ∀ a, L a → L' a) : Within R' L' p := by
  induction p with
  | ret a => exact hL a h
  | call o k ih => exact ⟨hR o h.1, fun r => ih r (h.2 r)⟩

/-- The same for methods, whose exceptions are not restricted. -/
def WithinM (R : Op → Prop) (L : α → Prop) (m : Method Op Ans ε α) : Prop :=
  Within R (fun r => ∀ a, r = .ok a → L a) m

theorem WithinM.mono {R' : Op → Prop} {L L' : α → Prop} {m : Method Op Ans ε α} (h : WithinM R L m)
    (hR : ∀ o, R o → R' o) (hL : ∀ a, L a → L' a) : WithinM R' L' m :=
  Within.mono h hR fun _ hr a ha => hL a (hr a ha)

section Methods

variable {L : β → Prop} {m : Method Op Ans ε α} {f : α → Method Op Ans ε β}

theorem withinM_pure {L : α → Prop} {a : α} (h : L a) : WithinM R L (pure a : Method Op Ans ε α) := by
  rintro b ⟨⟩
  exact h

theorem withinM_throw {L : α → Prop} (e : ε) : WithinM R L (throw e : Method Op Ans ε α) := nofun

theorem withinM_bind (h : WithinM R (fun a => WithinM R L (f a)) m) : WithinM R L (m >>= f) := by
  refine within_bind (Within.mono h (fun _ => id) ?_)
  intro r hr
  cases r with
  | ok a => exact hr a rfl
  | error e => exact nofun

theorem WithinM.bind {L' : α → Prop} (h : WithinM R L' m) (hf : ∀ a, L' a → WithinM R L (f a)) :
    WithinM R L (m >>= f) :=
  withinM_bind (h.mono (fun _ => id) hf)

theorem withinM_lift {x : Except ε α} (h : ∀ a, x = .ok a → WithinM R L (f a)) :
    WithinM R L (Program.lift x >>= f) := withinM_bind h

end Methods

theorem withinM_ask {Res : Op → Type} {L : β → Prop} {o : Op}
    {f : Res o → Method Op (fun o => Except ε (Res o)) ε β} (ho : R o) (h : ∀ a, WithinM R L (f a)) :
    WithinM R L (ask o >>= f) := by
  refine withinM_bind ⟨ho, ?_⟩
  rintro r a rfl
  exact h a

variable {C : Context Op Ans σ} {same : σ → σ → Prop} {Q : α → σ → Prop}

/-- Up to the request that is the first to change the state, the requests of
the program leave it the same; after that one the program ends in `Q`. Without
such a request its result is in `L`. -/
def Settles (C : Context Op Ans σ) (same : σ → σ → Prop) (L : α → Prop) (Q : α → σ → Prop) :
    Prog Op Ans α → σ → Prop
  | .ret a, _ => L a
  | .call o k, s => ∀ s', C.rely s s' → ∀ r s'', C.exec o s' r s'' →
      (same s' s'' ∧ Settles C same L Q (k r) s'') ∨ wp C (k r) Q s''

theorem Settles.stable {L : α → Prop} {p : Prog Op Ans α} {s s' : σ} (h : Settles C same L Q p s)
    (hr : C.rely s s') : Settles C same L Q p s' := by
  cases p with
  | ret a => exact h
  | call o k => exact fun t ht => h t (C.rely_trans hr ht)

theorem settles_bind {K : α → Prop} {L : β → Prop} {Q : β → σ → Prop} {p : Prog Op Ans α}
    {f : α → Prog Op Ans β} (hR : ∀ o s r s', R o → C.exec o s r s' → same s s') (hp : Within R K p)
    (hf : ∀ a s, K a → Settles C same L Q (f a) s) (s : σ) : Settles C same L Q (p.bind f) s := by
  induction p generalizing s with
  | ret a => exact hf a s hp
  | call o k ih => exact fun t _ r u hx => .inl ⟨hR o t r u hp.1 hx, ih r (hp.2 r) u⟩

theorem Settles.bind_ret {L : β → Prop} {Q : β → σ → Prop} {p : Prog Op Ans α} {f : α → Prog Op Ans β} {g : α → β}
    {s : σ} (hf : ∀ a, f a = .ret (g a)) (h : Settles C same (fun a => L (g a)) (fun a => Q (g a)) p s) :
    Settles C same L Q (p.bind f) s := by
  induction p generalizing s with
  | ret a =>
      rw [Prog.bind, hf]
      exact h
  | call o k ih =>
      intro t ht r u hx
      rcases h t ht r u hx with ⟨hsame, hk⟩ | hk
      · exact .inl ⟨hsame, ih r hk⟩
      · exact .inr (wp_bind_ret hf hk)

theorem Within.wp {L : α → Prop} {p : Prog Op Ans α} (h : Within R L p) (hguar : ∀ s t, C.guar s t)
    (hinv : ∀ s, C.inv s) (hQ : ∀ a s, L a → Q a s) (s : σ) : wp C p Q s := by
  induction p generalizing s with
  | ret a => exact fun t _ _ => hQ a t h
  | call o k ih => exact fun t _ _ r u _ => ⟨hguar t u, hinv u, ih r (h.2 r) u⟩

theorem WithinM.wpm {L : α → Prop} {E : ε → σ → Prop} {m : Method Op Ans ε α} (h : WithinM R L m)
    (hguar : ∀ s t, C.guar s t) (hinv : ∀ s, C.inv s) (hQ : ∀ a s, L a → Q a s) (hE : ∀ e s, E e s) (s : σ) :
    wpm C m Q E s := by
  refine Within.wp h hguar hinv ?_ s
  intro r t hr
  cases r with
  | ok a => exact hQ a t (hr a rfl)
  | error e => exact hE e t

end DBPlayground.Effects
