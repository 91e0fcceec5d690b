import DBPlayground.Lib.Machine

namespace DBPlayground.Machine

open Program

variable {Op₁ Op₂ σ τ ε α : Type} {Ans₁ : Op₁ → Type} {Ans₂ : Op₂ → Type}

abbrev Both (Ans₁ : Op₁ → Type) (Ans₂ : Op₂ → Type) : Op₁ ⊕ Op₂ → Type
  | .inl o => Ans₁ o
  | .inr o => Ans₂ o

/-- Two handlers side by side, each with a state of its own. -/
def beside (M : Handler Op₁ Ans₁ σ) (N : Handler Op₂ Ans₂ τ) : Handler (Op₁ ⊕ Op₂) (Both Ans₁ Ans₂) (σ × τ)
  | .inl o, x => (M o x.1).map fun y => (y.1, y.2, x.2)
  | .inr o, x => (N o x.2).map fun y => (y.1, x.1, y.2)

def left : Prog Op₁ Ans₁ α → Prog (Op₁ ⊕ Op₂) (Both Ans₁ Ans₂) α
  | .ret a => .ret a
  | .call o k => .call (.inl o) fun r => left (k r)

def leftM (m : Method Op₁ Ans₁ ε α) : Method (Op₁ ⊕ Op₂) (Both Ans₁ Ans₂) ε α := left m.run

def askRight (o : Op₂) : Method (Op₁ ⊕ Op₂) (Both Ans₁ Ans₂) ε (Ans₂ o) := Prog.call (.inr o) fun r => .ret (.ok r)

variable {M : Handler Op₁ Ans₁ σ} {N : Handler Op₂ Ans₂ τ} {s t : σ}

theorem run_left {p : Prog Op₁ Ans₁ α} {a : α} (h : run M p s = some (a, t)) (x : τ) :
    run (beside M N) (left p) (s, x) = some (a, t, x) := by
  induction p generalizing s with
  | ret b =>
      cases h
      rfl
  | call o k ih =>
      unfold run at h
      cases ho : M o s with
      | none =>
          rw [ho] at h
          cases h
      | some q =>
          rw [ho] at h
          have hq : beside M N (.inl o) (s, x) = some (q.1, q.2, x) := congrArg (Option.map _) ho
          unfold left run
          rw [hq]
          exact ih q.1 h

theorem ends_leftM {m : Method Op₁ Ans₁ ε α} {r : Except ε α} (h : Ends M m s r t) (x : τ) :
    Ends (beside M N) (leftM m) (s, x) r (t, x) := run_left h x

theorem ends_askRight {o : Op₂} {b : Ans₂ o} {x y : τ} (h : N o x = some (b, y)) :
    Ends (beside M N) (askRight o : Method (Op₁ ⊕ Op₂) (Both Ans₁ Ans₂) ε (Ans₂ o)) (s, x) (.ok b) (s, y) :=
  returns_perform (congrArg (Option.map _) h)

end DBPlayground.Machine
