import Mathlib.Data.List.Basic

namespace DBPlayground

/-- A file that is read and written at any position. What lies after its end counts as
filled with the default. -/
structure RandomFile (B : Type) [Inhabited B] where
  byte : Nat → B
  length : Nat
  unwritten : ∀ i, length ≤ i → byte i = default

namespace RandomFile

variable {B : Type} [Inhabited B]

def empty : RandomFile B := ⟨fun _ => default, 0, fun _ _ => rfl⟩

def read (f : RandomFile B) (offset count : Nat) : List B :=
  (List.range (min count (f.length - offset))).map fun k => f.byte (offset + k)

def write (f : RandomFile B) (offset : Nat) (data : List B) : RandomFile B where
  byte i := if offset ≤ i then data[i - offset]?.getD (f.byte i) else f.byte i
  length := if data = [] then f.length else max f.length (offset + data.length)
  unwritten i hi := by
    split at hi
    · next hnil => simp [hnil, f.unwritten i hi]
    · rw [List.getElem?_eq_none (by omega), Option.getD_none, f.unwritten i (by omega), ite_self]

variable {f g : RandomFile B} {offset i k : Nat} {data : List B}

@[simp] theorem length_read : (f.read offset k).length = min k (f.length - offset) := by
  simp [read]

theorem length_write (hne : data ≠ []) : (f.write offset data).length = max f.length (offset + data.length) :=
  if_neg hne

theorem byte_write_outside (h : i < offset ∨ offset + data.length ≤ i) : (f.write offset data).byte i = f.byte i := by
  show (if offset ≤ i then data[i - offset]?.getD (f.byte i) else f.byte i) = f.byte i
  split
  · rw [List.getElem?_eq_none (by omega), Option.getD_none]
  · rfl

theorem byte_write_inside (hk : k < data.length) : (f.write offset data).byte (offset + k) = data[k] := by
  show (if offset ≤ offset + k then _ else _) = _
  rw [if_pos (Nat.le_add_right offset k), Nat.add_sub_cancel_left, List.getElem?_eq_getElem hk, Option.getD_some]

theorem byte_write_congr (h : f.byte i = g.byte i) : (f.write offset data).byte i = (g.write offset data).byte i := by
  simp only [write, h]

theorem read_eq (hlen : offset + data.length ≤ f.length) (h : ∀ k, (hk : k < data.length) → f.byte (offset + k) = data[k]) :
    f.read offset data.length = data := by
  apply List.ext_getElem
  · rw [length_read]
    omega
  · intro k _ hk
    simp only [read, List.getElem_map, List.getElem_range]
    exact h k hk

theorem read_congr (hlen : f.length = g.length) (h : ∀ j < k, f.byte (offset + j) = g.byte (offset + j)) :
    f.read offset k = g.read offset k := by
  rw [read, read, hlen]
  apply List.map_congr_left
  intro j hj
  rw [List.mem_range] at hj
  exact h j (by omega)

end RandomFile

end DBPlayground
