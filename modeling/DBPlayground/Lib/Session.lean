import DBPlayground.Lib.RelyGuarantee
import Mathlib.Logic.Relation

namespace DBPlayground.Session

open Program RelyGuarantee

/-- A finished call either answers its client or goes on as another call. -/
inductive Outcome (Call Reply : Type)
  | done (r : Reply)
  | tail (c : Call)

/-- Sequential objects over one shared state. `perform` is executable: the
environment's choice `e` settles what a request answers and what it changes.
`enter` is bookkeeping at the start of a call, `entry` says which calls clients
make, and `allow` restricts the answers that are considered. -/
structure Service (ι Op : Type) (Ans : Op → Type) (σ Env Call Reply : Type) where
  code : ι → Call → Prog Op Ans (Outcome Call Reply)
  entry : ι → Call → Bool
  enter : ι → Call → σ → σ
  perform : ι → Call → Env → (o : Op) → σ → Option (Ans o × σ)
  allow : ι → Call → (o : Op) → σ → Ans o → Bool

inductive Thread (Op : Type) (Ans : Op → Type) (Call Reply : Type)
  | idle
  | busy (c : Call) (p : Prog Op Ans (Outcome Call Reply))

structure Config (ι Op : Type) (Ans : Op → Type) (σ Call Reply : Type) where
  store : σ
  thread : ι → Thread Op Ans Call Reply

variable {ι Op σ Env Call Reply : Type} {Ans : Op → Type} [DecidableEq ι]
  {S : Service ι Op Ans σ Env Call Reply}

def Service.exec (S : Service ι Op Ans σ Env Call Reply) (i : ι) (c : Call) (o : Op) (s : σ)
    (r : Ans o) (s' : σ) : Prop :=
  ∃ e, S.perform i c e o s = some (r, s') ∧ S.allow i c o s r = true

/-- One step of one object: a client makes a call, the pending request is
performed, the call goes on as another one, or the reply is delivered. -/
inductive Step (S : Service ι Op Ans σ Env Call Reply) :
    Config ι Op Ans σ Call Reply → Config ι Op Ans σ Call Reply → Prop
  | call (x) (i) (c) (hi : x.thread i = .idle) (hc : S.entry i c = true) :
      Step S x ⟨S.enter i c x.store, Function.update x.thread i (.busy c (S.code i c))⟩
  | request (x) (i) (c) (o) (k) (r : Ans o) (s') (hi : x.thread i = .busy c (.call o k))
      (hx : S.exec i c o x.store r s') :
      Step S x ⟨s', Function.update x.thread i (.busy c (k r))⟩
  | tail (x) (i) (c) (d) (hi : x.thread i = .busy c (.ret (.tail d))) :
      Step S x ⟨x.store, Function.update x.thread i (.busy d (S.code i d))⟩
  | reply (x) (i) (c) (r) (hi : x.thread i = .busy c (.ret (.done r))) :
      Step S x ⟨x.store, Function.update x.thread i .idle⟩

theorem Step.called {x y : Config ι Op Ans σ Call Reply} (h : Step S x y) {i : ι} (hi : x.thread i = .idle)
    {c : Call} {p : Prog Op Ans (Outcome Call Reply)} (hy : y.thread i = .busy c p) :
    y.store = S.enter i c x.store ∧ p = S.code i c := by
  cases h with
  | call j d hj hd =>
      by_cases hij : i = j
      · subst hij
        simp only [Function.update_self, Thread.busy.injEq] at hy
        obtain ⟨rfl, rfl⟩ := hy
        exact ⟨rfl, rfl⟩
      · simp only [Function.update_of_ne hij, hi] at hy
        cases hy
  | request j d o k r s' hj _ | tail j d d' hj | reply j d r hj =>
      by_cases hij : i = j
      · subst hij
        rw [hi] at hj
        cases hj
      · simp only [Function.update_of_ne hij, hi] at hy
        cases hy

def Steps (S : Service ι Op Ans σ Env Call Reply) :
    Config ι Op Ans σ Call Reply → Config ι Op Ans σ Call Reply → Prop :=
  Relation.ReflTransGen (Step S)

/-- A run during which object `i` does not become idle. -/
def During (S : Service ι Op Ans σ Env Call Reply) (i : ι) :
    Config ι Op Ans σ Call Reply → Config ι Op Ans σ Call Reply → Prop :=
  Relation.ReflTransGen fun x y => Step S x y ∧ y.thread i ≠ .idle

theorem During.steps {i : ι} {x y : Config ι Op Ans σ Call Reply} (h : During S i x y) : Steps S x y := by
  induction h with
  | refl => exact .refl
  | tail _ hs ih => exact ih.tail hs.1

/-- What holds of a busy object, is not disturbed by the others, and is passed
on by its own requests and tail calls, holds as long as the object is busy. -/
theorem During.thread {i : ι} {T : Call → Prog Op Ans (Outcome Call Reply) → σ → Prop} {R : σ → σ → Prop}
    (hstable : ∀ {c p s t}, T c p s → R s t → T c p t)
    (hrequest : ∀ {c o k s} {r : Ans o} {s'}, T c (.call o k) s → S.exec i c o s r s' → T c (k r) s')
    (htail : ∀ {c d s}, T c (.ret (.tail d)) s → T d (S.code i d) s)
    {x y : Config ι Op Ans σ Call Reply} (hrely : ∀ {y z}, Steps S x y → Step S y z → R y.store z.store)
    {c : Call} {p : Prog Op Ans (Outcome Call Reply)} (hi : x.thread i = .busy c p) (hx : T c p x.store)
    (h : During S i x y) : ∃ d q, y.thread i = .busy d q ∧ T d q y.store := by
  induction h with
  | refl => exact ⟨c, p, hi, hx⟩
  | @tail y z hxy hyz ih =>
      obtain ⟨d, q, hd, hT⟩ := ih
      obtain ⟨hstep, hbusy⟩ := hyz
      have hr := hrely (During.steps hxy) hstep
      cases hstep with
      | call j e hj _ =>
          have hij : i ≠ j := by
            rintro rfl
            rw [hd] at hj
            cases hj
          exact ⟨d, q, by simpa only [Function.update_of_ne hij] using hd, hstable hT hr⟩
      | request j e o k r s' hj hx =>
          by_cases hij : i = j
          · subst hij
            rw [hd] at hj
            cases hj
            exact ⟨d, k r, by simp only [Function.update_self], hrequest hT hx⟩
          · exact ⟨d, q, by simpa only [Function.update_of_ne hij] using hd, hstable hT hr⟩
      | tail j e e' hj =>
          by_cases hij : i = j
          · subst hij
            rw [hd] at hj
            cases hj
            exact ⟨e', _, by simp only [Function.update_self], htail hT⟩
          · exact ⟨d, q, by simpa only [Function.update_of_ne hij] using hd, hstable hT hr⟩
      | reply j e r hj =>
          have hij : i ≠ j := by
            rintro rfl
            simp only [Function.update_self, ne_eq, not_true_eq_false] at hbusy
          exact ⟨d, q, by simpa only [Function.update_of_ne hij] using hd, hstable hT hr⟩

def Replies (x : Config ι Op Ans σ Call Reply) (i : ι) (c : Call) (r : Reply) : Prop :=
  x.thread i = .busy c (.ret (.done r))

/-- A rely-guarantee proof of a service: every call, started in its
precondition, keeps the invariant and its guarantee at each request and ends in
its postcondition, or in the precondition of the call it goes on as. -/
structure Verified (S : Service ι Op Ans σ Env Call Reply) where
  inv : σ → Prop
  rely : ι → σ → σ → Prop
  guar : ι → σ → σ → Prop
  idle : ι → σ → Prop
  pre : ι → Call → σ → Prop
  post : ι → Call → Reply → σ → Prop
  rely_refl : ∀ i s, rely i s s
  rely_trans : ∀ {i s t u}, rely i s t → rely i t u → rely i s u
  guar_rely : ∀ {i j s t}, i ≠ j → guar i s t → rely j s t
  idle_stable : ∀ {i s t}, inv s → inv t → idle i s → rely i s t → idle i t
  enter_ok : ∀ {i c s}, inv s → idle i s → S.entry i c = true →
    guar i s (S.enter i c s) ∧ inv (S.enter i c s) ∧ pre i c (S.enter i c s)
  code_ok : ∀ {i c s}, inv s → pre i c s →
    wp ⟨S.exec i c, rely i, guar i, inv, rely_refl i, rely_trans⟩ (S.code i c)
      (fun o t => match o with | .done r => idle i t ∧ post i c r t | .tail d => pre i d t) s

namespace Verified

variable (V : Verified S)

def context (i : ι) (c : Call) : Context Op Ans σ :=
  ⟨S.exec i c, V.rely i, V.guar i, V.inv, V.rely_refl i, V.rely_trans⟩

def ends (i : ι) (c : Call) (o : Outcome Call Reply) (t : σ) : Prop :=
  match o with
  | .done r => V.idle i t ∧ V.post i c r t
  | .tail d => V.pre i d t

def ThreadOk (i : ι) (s : σ) : Thread Op Ans Call Reply → Prop
  | .idle => V.idle i s
  | .busy c p => wp (V.context i c) p (V.ends i c) s

structure Good (x : Config ι Op Ans σ Call Reply) : Prop where
  inv : V.inv x.store
  thread : ∀ i, V.ThreadOk i x.store (x.thread i)

variable {V}

omit [DecidableEq ι] in
theorem ThreadOk.stable {i : ι} {s t : σ} {th : Thread Op Ans Call Reply} (hs : V.inv s)
    (ht : V.inv t) (h : V.ThreadOk i s th) (hr : V.rely i s t) : V.ThreadOk i t th := by
  cases th with
  | idle => exact V.idle_stable hs ht h hr
  | busy c p => exact wp_stable (C := V.context i c) h hr

/-- A step of object `i` that keeps its guarantee leaves every other object
in order, so only the new state of `i` itself has to be looked at. -/
theorem Good.update {x : Config ι Op Ans σ Call Reply} (h : V.Good x) (i : ι) {t : σ}
    {th : Thread Op Ans Call Reply} (hg : V.guar i x.store t) (hv : V.inv t)
    (ht : V.ThreadOk i t th) : V.Good ⟨t, Function.update x.thread i th⟩ := by
  refine ⟨hv, ?_⟩
  intro j
  by_cases hj : j = i
  · subst hj
    simpa only [Function.update_self] using ht
  · simpa only [Function.update_of_ne hj] using
      (h.thread j).stable h.inv hv (V.guar_rely (Ne.symm hj) hg)

theorem Good.update_same {x : Config ι Op Ans σ Call Reply} (h : V.Good x) (i : ι)
    {th : Thread Op Ans Call Reply} (ht : V.ThreadOk i x.store th) :
    V.Good ⟨x.store, Function.update x.thread i th⟩ := by
  refine ⟨h.inv, ?_⟩
  intro j
  by_cases hj : j = i
  · subst hj
    simpa only [Function.update_self] using ht
  · simpa only [Function.update_of_ne hj] using h.thread j

omit [DecidableEq ι] in
theorem Good.busy {x : Config ι Op Ans σ Call Reply} (h : V.Good x) {i : ι} {c : Call}
    {p : Prog Op Ans (Outcome Call Reply)} (hi : x.thread i = .busy c p) :
    wp (V.context i c) p (V.ends i c) x.store := by
  have ht := h.thread i
  rw [hi] at ht
  exact ht

omit [DecidableEq ι] in
theorem Good.ret {x : Config ι Op Ans σ Call Reply} (h : V.Good x) {i : ι} {c : Call}
    {o : Outcome Call Reply} (hi : x.thread i = .busy c (.ret o)) : V.ends i c o x.store :=
  h.busy hi x.store (V.rely_refl i x.store) h.inv

theorem Good.step {x y : Config ι Op Ans σ Call Reply} (h : V.Good x) (hs : Step S x y) :
    V.Good y := by
  cases hs with
  | call i c hi hc =>
      have hidle := h.thread i
      rw [hi] at hidle
      obtain ⟨hg, hv, hp⟩ := V.enter_ok h.inv hidle hc
      exact h.update i hg hv (V.code_ok hv hp)
  | request i c o k r s' hi hx =>
      obtain ⟨hg, hv, hk⟩ := h.busy hi x.store (V.rely_refl i x.store) h.inv r s' hx
      exact h.update i hg hv hk
  | tail i c d hi => exact h.update_same i (V.code_ok h.inv (h.ret hi))
  | reply i c r hi => exact h.update_same i (h.ret hi).1

theorem Good.steps {x y : Config ι Op Ans σ Call Reply} (h : V.Good x) (hs : Steps S x y) :
    V.Good y := by
  induction hs with
  | refl => exact h
  | tail _ hs ih => exact ih.step hs

omit [DecidableEq ι] in
theorem Good.replies {x : Config ι Op Ans σ Call Reply} (h : V.Good x) {i : ι} {c : Call}
    {r : Reply} (hr : Replies x i c r) : V.idle i x.store ∧ V.post i c r x.store :=
  h.ret hr

theorem Good.step_guar {x y : Config ι Op Ans σ Call Reply} (h : V.Good x) (hs : Step S x y) :
    x.store = y.store ∨ ∃ i, V.guar i x.store y.store := by
  cases hs with
  | call i c hi hc =>
      have hidle := h.thread i
      rw [hi] at hidle
      exact .inr ⟨i, (V.enter_ok h.inv hidle hc).1⟩
  | request i c o k r s' hi hx =>
      exact .inr ⟨i, (h.busy hi x.store (V.rely_refl i x.store) h.inv r s' hx).1⟩
  | tail => exact .inl rfl
  | reply => exact .inl rfl

/-- What every object guarantees of its own steps holds between any two
states of a run, when it is reflexive and transitive. -/
theorem Good.evolves {P : σ → σ → Prop} (hrefl : ∀ s, P s s)
    (htrans : ∀ {s t u}, P s t → P t u → P s u) (hP : ∀ {i s t}, V.guar i s t → P s t)
    {x y : Config ι Op Ans σ Call Reply} (h : V.Good x) (hs : Steps S x y) :
    P x.store y.store := by
  induction hs with
  | refl => exact hrefl _
  | @tail y z hxy hs ih =>
      refine htrans ih ?_
      rcases (h.steps hxy).step_guar hs with heq | ⟨i, hg⟩
      · rw [heq]
        exact hrefl _
      · exact hP hg

/-- As long as object `i` is busy with a call that cannot go on as another,
whatever its code was shown to end in still lies ahead. -/
theorem Good.pending {i : ι} {c : Call} {Q : Outcome Call Reply → σ → Prop} (hQ : ∀ d s, ¬ Q (.tail d) s)
    {x y : Config ι Op Ans σ Call Reply} (h : V.Good x) {p : Prog Op Ans (Outcome Call Reply)}
    (hi : x.thread i = .busy c p) (hp : wp (V.context i c) p Q x.store)
    (hs : During S i x y) :
    ∃ p', y.thread i = .busy c p' ∧ wp (V.context i c) p' Q y.store := by
  induction hs with
  | refl => exact ⟨p, hi, hp⟩
  | @tail y z hxy hyz ih =>
      obtain ⟨p', hi', hp'⟩ := ih
      have hy : V.Good y := h.steps (During.steps hxy)
      obtain ⟨hstep, hbusy⟩ := hyz
      cases hstep with
      | call j d hj hd =>
          have hji : j ≠ i := by
            rintro rfl
            rw [hi'] at hj
            cases hj
          have hidle := hy.thread j
          rw [hj] at hidle
          have hr := V.guar_rely hji (V.enter_ok hy.inv hidle hd).1
          exact ⟨p', by simpa only [Function.update_of_ne (Ne.symm hji)] using hi', wp_stable hp' hr⟩
      | request j d o k r s' hj hx =>
          by_cases hji : j = i
          · subst hji
            rw [hi'] at hj
            cases hj
            obtain ⟨_, _, hk⟩ := hp' y.store (V.rely_refl j y.store) hy.inv r s' hx
            exact ⟨k r, by simp only [Function.update_self], hk⟩
          · have hr := V.guar_rely hji (hy.busy hj y.store (V.rely_refl j y.store) hy.inv r s' hx).1
            exact ⟨p', by simpa only [Function.update_of_ne (Ne.symm hji)] using hi', wp_stable hp' hr⟩
      | tail j d d' hj =>
          have hji : j ≠ i := by
            rintro rfl
            rw [hi'] at hj
            cases hj
            exact hQ d' y.store (hp' y.store (V.rely_refl j y.store) hy.inv)
          exact ⟨p', by simpa only [Function.update_of_ne (Ne.symm hji)] using hi', hp'⟩
      | reply j d r hj =>
          have hji : j ≠ i := by
            rintro rfl
            simp only [Function.update_self, ne_eq, not_true_eq_false] at hbusy
          exact ⟨p', by simpa only [Function.update_of_ne (Ne.symm hji)] using hi', hp'⟩

end Verified

/-- One scheduling decision, with the environment's choice where a request is
performed. -/
inductive Move (Env Call : Type)
  | call (c : Call)
  | request (e : Env)
  | finish

def play (S : Service ι Op Ans σ Env Call Reply) (x : Config ι Op Ans σ Call Reply) (i : ι) :
    Move Env Call → Option (Config ι Op Ans σ Call Reply)
  | .call c => match x.thread i with
    | .idle => if S.entry i c then
        some ⟨S.enter i c x.store, Function.update x.thread i (.busy c (S.code i c))⟩ else none
    | .busy _ _ => none
  | .request e => match x.thread i with
    | .busy c (.call o k) => match S.perform i c e o x.store with
      | some (r, s') => if S.allow i c o x.store r then
          some ⟨s', Function.update x.thread i (.busy c (k r))⟩ else none
      | none => none
    | _ => none
  | .finish => match x.thread i with
    | .busy _ (.ret (.tail d)) =>
        some ⟨x.store, Function.update x.thread i (.busy d (S.code i d))⟩
    | .busy _ (.ret (.done _)) => some ⟨x.store, Function.update x.thread i .idle⟩
    | _ => none

def playAll (S : Service ι Op Ans σ Env Call Reply) :
    List (ι × Move Env Call) → Config ι Op Ans σ Call Reply → Option (Config ι Op Ans σ Call Reply)
  | [], x => some x
  | (i, m) :: ms, x => (play S x i m).bind (playAll S ms)

theorem play_step {x y : Config ι Op Ans σ Call Reply} {i : ι} {m : Move Env Call}
    (h : play S x i m = some y) : Step S x y := by
  cases m with
  | call c =>
      simp only [play] at h
      split at h
      · rename_i hi
        split at h
        · rename_i hc
          cases h
          exact .call x i c hi hc
        · cases h
      · cases h
  | request e =>
      simp only [play] at h
      split at h
      · rename_i c o k hi
        split at h
        · rename_i r s' hp
          split at h
          · rename_i ha
            cases h
            exact .request x i c o k r s' hi ⟨e, hp, ha⟩
          · cases h
        · cases h
      · cases h
  | finish =>
      simp only [play] at h
      split at h
      · rename_i c d hi
        cases h
        exact .tail x i c d hi
      · rename_i c r hi
        cases h
        exact .reply x i c r hi
      · cases h

theorem playAll_steps {ms : List (ι × Move Env Call)} {x y : Config ι Op Ans σ Call Reply}
    (h : playAll S ms x = some y) : Steps S x y := by
  induction ms generalizing x with
  | nil =>
      cases h
      exact .refl
  | cons m ms ih =>
      obtain ⟨i, m⟩ := m
      simp only [playAll, Option.bind_eq_some_iff] at h
      obtain ⟨z, hz, hy⟩ := h
      exact .head (play_step hz) (ih hy)

end DBPlayground.Session
