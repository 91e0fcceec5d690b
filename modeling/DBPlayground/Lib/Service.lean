import Mathlib.Init

namespace DBPlayground.Service

variable {C B σ A : Type} (step : C → σ → Option (B × σ))

def serve : List C → σ → Option (List B × σ)
  | [], s => some ([], s)
  | c :: cs, s => do
    let (b, s) ← step c s
    let (bs, s) ← serve cs s
    pure (b :: bs, s)

def Replies (answers : A → C → B → Prop) (after : A → C → A) : A → List C → List B → Prop
  | _, [], bs => bs = []
  | a, c :: cs, bs => ∃ b rest, bs = b :: rest ∧ answers a c b ∧ Replies answers after (after a c) cs rest

/-- The replies of an object that has one answer to each request. -/
def replies (respond : A → C → B × A) : A → List C → List B
  | _, [] => []
  | a, c :: cs => (respond a c).1 :: replies respond (respond a c).2 cs

/-- The state in which the requests leave such an object. -/
def outcome (respond : A → C → B × A) (a : A) (cs : List C) : A := cs.foldl (fun a c => (respond a c).2) a

variable {step} {ok : C → σ → Prop} {answers : A → C → B → Prop} {after : A → C → A} {R : σ → A → Prop} {s : σ} {a : A}

end DBPlayground.Service
