import DBPlayground.Lib.Program
import Mathlib.Order.Basic

namespace DBPlayground.Lockstep

open Program

/-- When two requests, and when two answers to such requests, count as the same. What is
known of the values in them grows along `W`. -/
structure Bridge (W Op : Type) (Ans : Op → Type) where
  op : W → Op → Op → Prop
  ans : W → (o o' : Op) → Ans o → Ans o' → Prop

variable {W Op ε α α' β β' : Type} [Preorder W] {Ans : Op → Type}

/-- Two programs that make the same requests as long as they get the same answers, and
end with results in `R`. -/
inductive Related (B : Bridge W Op Ans) (R : W → α → α' → Prop) : W → Prog Op Ans α → Prog Op Ans α' → Prop
  | ret {w a a'} (h : R w a a') : Related B R w (.ret a) (.ret a')
  | call {w o o' k k'} (ho : B.op w o o')
      (hk : ∀ v, w ≤ v → ∀ r r', B.ans v o o' r r' → Related B R v (k r) (k' r')) : Related B R w (.call o k) (.call o' k')

def Monotone (R : W → α → α' → Prop) : Prop := ∀ ⦃w v a a'⦄, w ≤ v → R w a a' → R v a a'

variable {B : Bridge W Op Ans} {R : W → α → α' → Prop} {S : W → β → β' → Prop} {w v : W}

theorem Related.mono {p : Prog Op Ans α} {p' : Prog Op Ans α'} (hop : ∀ ⦃w v o o'⦄, w ≤ v → B.op w o o' → B.op v o o')
    (hR : Monotone R) (hw : w ≤ v) (h : Related B R w p p') : Related B R v p p' := by
  cases h with
  | ret h => exact .ret (hR hw h)
  | call ho hk => exact .call (hop hw ho) fun u hu => hk u (hw.trans hu)

theorem Related.bind {p : Prog Op Ans α} {p' : Prog Op Ans α'} {f : α → Prog Op Ans β} {f' : α' → Prog Op Ans β'}
    (h : Related B R w p p') (hf : ∀ v, w ≤ v → ∀ a a', R v a a' → Related B S v (f a) (f' a')) :
    Related B S w (p.bind f) (p'.bind f') := by
  induction h with
  | ret h => exact hf _ le_rfl _ _ h
  | call ho _ ih =>
      refine .call ho fun v hv r r' hr => ih v hv r r' hr fun u hu => hf u (hv.trans hu)

inductive Results (R : W → α → α' → Prop) (w : W) : Except ε α → Except ε α' → Prop
  | error (e : ε) : Results R w (.error e) (.error e)
  | ok {a a'} (h : R w a a') : Results R w (.ok a) (.ok a')

def RelatedM (B : Bridge W Op Ans) (R : W → α → α' → Prop) (w : W) (m : Method Op Ans ε α)
    (m' : Method Op Ans ε α') : Prop :=
  Related B (Results R) w m.run m'.run

section methods

variable {m : Method Op Ans ε α} {m' : Method Op Ans ε α'} {f : α → Method Op Ans ε β} {f' : α' → Method Op Ans ε β'}

theorem relatedM_pure {a : α} {a' : α'} (h : R w a a') :
    RelatedM B R w (pure a : Method Op Ans ε α) (pure a' : Method Op Ans ε α') := .ret (.ok h)

theorem relatedM_throw (e : ε) : RelatedM B R w (throw e : Method Op Ans ε α) (throw e : Method Op Ans ε α') :=
  .ret (.error e)

theorem RelatedM.bind (h : RelatedM B R w m m') (hf : ∀ v, w ≤ v → ∀ a a', R v a a' → RelatedM B S v (f a) (f' a')) :
    RelatedM B S w (m >>= f) (m' >>= f') := by
  refine Related.bind (R := Results R) h fun v hv x x' hx => ?_
  cases hx with
  | error e => exact .ret (.error e)
  | ok h => exact hf v hv _ _ h

theorem relatedM_lift {x : Except ε α} {f : α → Method Op Ans ε β} {f' : α → Method Op Ans ε β'}
    (hf : ∀ a, x = .ok a → RelatedM B S w (f a) (f' a)) : RelatedM B S w (lift x >>= f) (lift x >>= f') := by
  cases x with
  | error e => exact .ret (.error e)
  | ok a => exact hf a rfl

end methods

end DBPlayground.Lockstep
