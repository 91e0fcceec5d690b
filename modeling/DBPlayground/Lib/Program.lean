import Mathlib.Logic.Function.Basic

namespace DBPlayground.Program

/-- A program that issues requests to its surroundings one at a time. The
request fixes the type of its answer, and the program resumes with the answer. -/
inductive Prog (Op : Type) (Ans : Op → Type) (α : Type)
  | ret (a : α)
  | call (o : Op) (k : Ans o → Prog Op Ans α)

variable {Op : Type} {Ans : Op → Type} {ε α β σ : Type}

def Prog.bind : Prog Op Ans α → (α → Prog Op Ans β) → Prog Op Ans β
  | .ret a, f => f a
  | .call o k, f => .call o (fun r => (k r).bind f)

instance : Monad (Prog Op Ans) where
  pure := .ret
  bind := .bind

theorem Prog.ne_of_call (p : Prog Op Ans α) {o : Op} {k : Ans o → Prog Op Ans α} (h : p = .call o k) (r : Ans o) :
    k r ≠ p := by
  induction p generalizing o with
  | ret a => cases h
  | call o' k' ih =>
      cases h
      exact fun hr => ih r hr r rfl

theorem Prog.bind_ret (p : Prog Op Ans α) : p.bind .ret = p := by
  induction p with
  | ret a => rfl
  | call o k ih => exact congrArg (Prog.call o) (funext ih)

theorem Prog.bind_bind {γ : Type} (p : Prog Op Ans α) (f : α → Prog Op Ans β) (g : β → Prog Op Ans γ) :
    (p.bind f).bind g = p.bind fun a => (f a).bind g := by
  induction p with
  | ret a => rfl
  | call o k ih => exact congrArg (Prog.call o) (funext ih)

instance : LawfulMonad (Prog Op Ans) :=
  LawfulMonad.mk' (Prog Op Ans) Prog.bind_ret (fun _ _ => rfl) Prog.bind_bind

def Prog.eval (h : (o : Op) → Ans o) : Prog Op Ans α → α
  | .ret a => a
  | .call o k => (k (h o)).eval h

theorem Prog.eval_bind (h : (o : Op) → Ans o) (p : Prog Op Ans α) (f : α → Prog Op Ans β) :
    (p.bind f).eval h = (f (p.eval h)).eval h := by
  induction p with
  | ret a => rfl
  | call o k ih => exact ih (h o)

/-- A method is a program that may end in an exception of type `ε`. -/
abbrev Method (Op : Type) (Ans : Op → Type) (ε : Type) := ExceptT ε (Prog Op Ans)

/-- Issue a request whose answer is itself a value or an exception. -/
def ask {Res : Op → Type} (o : Op) : Method Op (fun o => Except ε (Res o)) ε (Res o) :=
  .call o .ret

def lift (x : Except ε α) : Method Op Ans ε α := .ret x

def evalMethod (h : (o : Op) → Ans o) (m : Method Op Ans ε α) : Except ε α := Prog.eval h m

theorem evalMethod_bind (h : (o : Op) → Ans o) (m : Method Op Ans ε α) (f : α → Method Op Ans ε β) :
    evalMethod h (m >>= f) = (evalMethod h m).bind fun a => evalMethod h (f a) := by
  refine (Prog.eval_bind h m _).trans ?_
  unfold evalMethod
  cases Prog.eval h m with
  | ok a => rfl
  | error e => rfl

end DBPlayground.Program
