import DBPlayground.Cloud.PreserveState
import DBPlayground.Cloud.PreserveLog

namespace DBPlayground.Rules

open ByteReader Table Wire Records Keys WalCodec Program RelyGuarantee Session Store StateStore TableWriter
  WalIndexer CloudSystem Log Invariant

variable {ι : Type} (P : Params ι) (i : ι) (c : Call)

def ctx [DecidableEq ι] : Context Op Ans (World ι) :=
  ⟨(service P).exec i c, Rely P i, Guar P i, Inv P, Rely.refl i, Rely.trans⟩

/-- An exception raised by a store on this request may leave the call. -/
def Faults (E : Exn → World ι → Prop) (s : World ι) (o : Op) : Prop :=
  ∀ s' x u, Rely P i s s' → Inv P s' → P.allow i c o s' (.error x) = true → Rely P i s' u → Inv P u → E x u

def Escapes (E : Exn → World ι → Prop) (s : World ι) : Prop := ∀ x u, Quiet P i s u → Inv P u → E x u

variable {P i c} {α : Type} {Q : α → World ι → Prop} {E : Exn → World ι → Prop} {s : World ι}

theorem Escapes.quiet (h : Escapes P i E s) {u : World ι} (hq : Quiet P i s u) : Escapes P i E u :=
  fun x v hv hi => h x v (hq.trans hv) hi

theorem Escapes.faults (h : Escapes P i E s) (o : Op) : Faults P i c E s o :=
  fun _ x u h₁ _ _ h₂ hu => h x u (h₁.quiet.trans h₂.quiet) hu

theorem Faults.rely {o : Op} (h : Faults P i c E s o) {u : World ι} (hr : Rely P i s u) : Faults P i c E u o :=
  fun s' x v h₁ hi ha h₂ hv => h s' x v (hr.trans h₁) hi ha h₂ hv

theorem guar_refl (s : World ι) : Guar P i s s := ⟨Grow.refl s, fun j _ => Rely.refl j s, .same rfl, .refl s⟩

variable [DecidableEq ι]

theorem wpm_request {o : Op} {f : Res o → StoreMethod α}
    (h : ∀ s', Rely P i s s' → Inv P s' → ∀ e r s'', perform i c e o s' = some (r, s'') →
      P.allow i c o s' r = true → Guar P i s' s'' ∧ Inv P s'' ∧
      match r with
      | .ok a => wpm (ctx P i c) (f a) Q E s''
      | .error x => ∀ u, Rely P i s'' u → Inv P u → E x u) :
    wpm (ctx P i c) (request o >>= f) Q E s := by
  refine wpm_ask_bind ?_
  rintro s' hr hi r s'' ⟨e, hp, ha⟩
  have hx := h s' hr hi e r s'' hp ha
  cases r <;> exact hx

theorem wpm_metaGet {key : Bytes} {f : Option VersionedValue → StoreMethod α}
    (hF : Faults P i c E s (.metaGet key))
    (h : ∀ s', Rely P i s s' → Inv P s' → P.allow i c (.metaGet key) s' (.ok (s'.entries key)) = true →
      wpm (ctx P i c) (f (s'.entries key)) Q E s') :
    wpm (ctx P i c) (metaGet key >>= f) Q E s := by
  refine wpm_request ?_
  intro s' hr hi e r s'' hp ha
  cases e with
  | answer =>
      cases hp
      exact ⟨guar_refl s', hi, h s' hr hi ha⟩
  | fault what applied =>
      cases hp
      exact ⟨guar_refl s', hi, fun u hu hiu => hF s' _ u hr hi ha hu hiu⟩
  | conflict | key => cases hp

theorem wpm_openInput {path : Bytes} {f : Option Bytes → StoreMethod α}
    (hF : Faults P i c E s (.openInput path))
    (h : ∀ s', Rely P i s s' → Inv P s' → P.allow i c (.openInput path) s' (.ok (s'.files path)) = true →
      wpm (ctx P i c) (f (s'.files path)) Q E s') :
    wpm (ctx P i c) (openInput path >>= f) Q E s := by
  refine wpm_request ?_
  intro s' hr hi e r s'' hp ha
  cases e with
  | answer =>
      cases hp
      exact ⟨guar_refl s', hi, h s' hr hi ha⟩
  | fault what applied =>
      cases hp
      exact ⟨guar_refl s', hi, fun u hu hiu => hF s' _ u hr hi ha hu hiu⟩
  | conflict | key => cases hp

theorem wpm_self {f : Writer → StoreMethod α}
    (h : ∀ s', Rely P i s s' → Inv P s' → wpm (ctx P i c) (f (s.writers i)) Q E s') :
    wpm (ctx P i c) (self >>= f) Q E s := by
  refine wpm_request ?_
  intro s' hr hi e r s'' hp _
  cases hp
  rw [hr.quiet.writer]
  exact ⟨guar_refl s', hi, h s' hr hi⟩

theorem wpm_setSelf {x : Writer} {f : Unit → StoreMethod α} (hx : Held P s i x)
    (h : ∀ s', Rely P i s s' → Inv P s' → Inv P (s'.setWriter i x) →
      wpm (ctx P i c) (f ()) Q E (s'.setWriter i x)) :
    wpm (ctx P i c) (setSelf x >>= f) Q E s := by
  refine wpm_request ?_
  intro s' hr hi e r s'' hp _
  cases hp
  have hi' := hi.setWriter (hx.quiet hr.quiet)
  exact ⟨guar_setWriter, hi', h s' hr hi hi'⟩

theorem wpm_newManifestKey {f : Bytes → StoreMethod α}
    (h : ∀ s' key, Rely P i s s' → Inv P s' → wpm (ctx P i c) (f key) Q E s') :
    wpm (ctx P i c) (newManifestKey >>= f) Q E s := by
  refine wpm_request ?_
  intro s' hr hi e r s'' hp _
  cases e with
  | key k =>
      cases hp
      exact ⟨guar_refl s', hi, h s' k hr hi⟩
  | answer | conflict | fault => cases hp

theorem wpm_newDataFileKey {f : Bytes → StoreMethod α}
    (h : ∀ u key, Quiet P i s u → Inv P u → u.issued key = some i →
      (key.take 5 = ascii "data/" → u.files (dataPath P.table key) = none) →
      wpm (ctx P i c) (f key) Q E u) :
    wpm (ctx P i c) (newDataFileKey >>= f) Q E s := by
  refine wpm_request ?_
  intro s' hr hi e r s'' hp _
  cases e with
  | key k =>
      simp only [perform] at hp
      split at hp
      · rename_i hnone
        cases hp
        refine ⟨guar_issue hnone, hi.issue hnone, h _ k (hr.quiet.trans (quiet_issue hnone)) (hi.issue hnone)
          (by simp [World.issue]) ?_⟩
        intro hd
        cases hf : s'.files (dataPath P.table k) with
        | none => exact hf
        | some b => exact absurd hnone (hi.onlyIssued k b hf hd)
      · cases hp
  | answer | conflict | fault => cases hp

theorem wpm_throwIf {bad : Prop} [Decidable bad] {x : Exn} {f : Unit → StoreMethod α} (hs : Inv P s)
    (hbad : bad → ∀ u, Rely P i s u → Inv P u → E x u) (h : ¬ bad → wpm (ctx P i c) (f ()) Q E s) :
    wpm (ctx P i c) (throwIf bad x >>= f) Q E s := by
  unfold throwIf
  split
  · rename_i hb
    exact wpm_bind hs (wpm_throw (hbad hb))
  · rename_i hb
    exact h hb

end DBPlayground.Rules
