import Mathlib.Data.List.Basic
import Mathlib.Data.List.Forall2
import Mathlib.Data.List.TakeDrop
import Mathlib.Tactic.Ring

namespace DBPlayground.ByteReader

abbrev Byte := BitVec 8
abbrev Bytes := List Byte

def ascii (s : String) : Bytes := s.toList.map (fun c => BitVec.ofNat 8 c.toNat)

def leBytes : Nat → Nat → Bytes
  | 0, _ => []
  | k + 1, n => BitVec.ofNat 8 n :: leBytes k (n / 256)

def leNat : Bytes → Nat
  | [] => 0
  | b :: bs => b.toNat + 256 * leNat bs

@[simp] theorem length_leBytes (k n : Nat) : (leBytes k n).length = k := by
  induction k generalizing n with
  | zero => rfl
  | succ k ih => simp only [leBytes, List.length_cons, ih]

theorem leNat_leBytes (k n : Nat) : leNat (leBytes k n) = n % 256 ^ k := by
  induction k generalizing n with
  | zero => simp only [leBytes, leNat, pow_zero, Nat.mod_one]
  | succ k ih =>
      rw [leBytes, leNat, ih, BitVec.toNat_ofNat, pow_succ 256 k, Nat.mul_comm (256 ^ k) 256, Nat.mod_mul]

theorem ofNat_leNat_leBytes {w k : Nat} (v : BitVec w) (h : 2 ^ w = 256 ^ k) :
    BitVec.ofNat w (leNat (leBytes k v.toNat)) = v := by
  rw [leNat_leBytes, ← h, Nat.mod_eq_of_lt v.isLt, BitVec.ofNat_toNat, BitVec.setWidth_eq]

theorem leBytes_leNat (bs : Bytes) : leBytes bs.length (leNat bs) = bs := by
  induction bs with
  | nil => rfl
  | cons b bs ih =>
      have hlt : b.toNat < 256 := b.isLt
      have hdiv : (b.toNat + 256 * leNat bs) / 256 = leNat bs := by omega
      have hhead : BitVec.ofNat 8 (b.toNat + 256 * leNat bs) = b := by
        apply BitVec.eq_of_toNat_eq
        rw [BitVec.toNat_ofNat]
        omega
      rw [List.length_cons, leNat, leBytes, hdiv, ih, hhead]

theorem leNat_lt (bs : Bytes) : leNat bs < 256 ^ bs.length := by
  induction bs with
  | nil => exact Nat.one_pos
  | cons b bs ih =>
      have hlt : b.toNat < 256 := b.isLt
      rw [leNat, List.length_cons, pow_succ]
      omega

def throwIf {ε : Type} {m : Type → Type} [Monad m] [MonadExceptOf ε m] (bad : Prop) [Decidable bad]
    (e : ε) : m Unit :=
  if bad then throw e else pure ()

theorem throwIf_ok {ε : Type} {bad : Prop} [Decidable bad] {e : ε} {u : Unit} :
    (throwIf bad e : Except ε Unit) = .ok u ↔ ¬ bad := by
  unfold throwIf
  split
  · rename_i h
    exact iff_of_false (fun hc => nomatch hc) (fun hn => hn h)
  · rename_i h
    exact ⟨fun _ => h, fun _ => rfl⟩

theorem Except.bind_ok {ε α β : Type} {x : Except ε α} {f : α → Except ε β} {b : β} :
    (x >>= f) = .ok b ↔ ∃ a, x = .ok a ∧ f a = .ok b := by
  cases x with
  | error e =>
      constructor
      · intro h
        cases h
      · rintro ⟨a, ha, _⟩
        cases ha
  | ok a =>
      constructor
      · exact fun h => ⟨a, rfl, h⟩
      · rintro ⟨a', ha, h⟩
        cases ha
        exact h

theorem Except.bind_ne_error {ε α β : Type} {x : Except ε α} {f : α → Except ε β} {e : ε} :
    (x >>= f) ≠ .error e ↔ x ≠ .error e ∧ ∀ a, x = .ok a → f a ≠ .error e := by
  cases x with
  | error e' =>
      show Except.error e' ≠ Except.error e ↔ _
      simp
  | ok a =>
      show f a ≠ .error e ↔ _
      simp

theorem mapM_ok {ε α β : Type} {f : α → Except ε β} {xs : List α} {ys : List β} :
    xs.mapM f = .ok ys ↔ List.Forall₂ (fun x y => f x = .ok y) xs ys := by
  induction xs generalizing ys with
  | nil =>
      constructor
      · intro h
        cases h
        exact .nil
      · intro h
        cases h
        rfl
  | cons x xs ih =>
      rw [List.mapM_cons, Except.bind_ok]
      simp only [Except.bind_ok, ih]
      constructor
      · rintro ⟨y, hy, zs, hzs, h⟩
        cases h
        exact .cons hy hzs
      · intro h
        cases h with
        | cons hy hzs => exact ⟨_, hy, _, hzs, rfl⟩

theorem exists_of_forall₂ {α β : Type} {R : α → β → Prop} {xs : List α} {ys : List β} (h : List.Forall₂ R xs ys)
    {x : α} (hx : x ∈ xs) : ∃ y ∈ ys, R x y := by
  induction h with
  | nil => cases hx
  | cons hr _ ih =>
      rcases List.mem_cons.mp hx with rfl | hx
      · exact ⟨_, List.mem_cons_self, hr⟩
      · obtain ⟨y, hy, hr⟩ := ih hx
        exact ⟨y, List.mem_cons_of_mem _ hy, hr⟩

theorem mapM_of_forall {ε α β : Type} {f : α → Except ε β} {g : α → β} {xs : List α}
    (h : ∀ x ∈ xs, f x = .ok (g x)) : xs.mapM f = .ok (xs.map g) := by
  refine mapM_ok.mpr ?_
  rw [List.forall₂_map_right_iff, List.forall₂_same]
  exact h

/-- A reader consumes bytes from the front of its input. -/
abbrev Reader (ε : Type) := StateT Bytes (Except ε)

variable {ε α β : Type}

def raw (short : ε) (n : Nat) : Reader ε Bytes := fun s =>
  if n ≤ s.length then .ok (s.take n, s.drop n) else .error short

def byte (short : ε) : Reader ε Byte
  | [] => .error short
  | b :: s => .ok (b, s)

def le (short : ε) : Nat → Reader ε Nat
  | 0 => pure 0
  | k + 1 => do
    let b ← byte short
    let n ← le short k
    pure (b.toNat + 256 * n)

def fromExcept (x : Except ε α) : Reader ε α := fun s => x.map (fun a => (a, s))

def remaining : Reader ε Nat := fun s => .ok (s.length, s)

def times : Nat → Reader ε α → Reader ε (List α)
  | 0, _ => pure []
  | n + 1, r => do
    let a ← r
    let as ← times n r
    pure (a :: as)

theorem run_bind_ok {r : Reader ε α} {f : α → Reader ε β} {s s' : Bytes} {b : β} :
    (r >>= f) s = .ok (b, s') ↔ ∃ a t, r s = .ok (a, t) ∧ f a t = .ok (b, s') := by
  refine Except.bind_ok.trans ?_
  exact ⟨fun ⟨p, hp, h⟩ => ⟨p.1, p.2, hp, h⟩, fun ⟨a, t, hp, h⟩ => ⟨(a, t), hp, h⟩⟩

theorem length_times {r : Reader ε α} {n : Nat} {s s' : Bytes} {as : List α}
    (h : times n r s = .ok (as, s')) : as.length = n := by
  induction n generalizing s as with
  | zero =>
      cases h
      rfl
  | succ n ih =>
      obtain ⟨a, t, _, h⟩ := run_bind_ok.mp h
      obtain ⟨bs, u, hbs, h⟩ := run_bind_ok.mp h
      cases h
      rw [List.length_cons, ih hbs]

theorem throwIf_run_ok {bad : Prop} [Decidable bad] {e : ε} {u : Unit} {s s' : Bytes} :
    (throwIf bad e : Reader ε Unit) s = .ok (u, s') ↔ ¬ bad ∧ s' = s := by
  unfold throwIf
  split
  · rename_i h
    exact iff_of_false (fun hc => nomatch hc) (fun hn => hn.1 h)
  · rename_i h
    constructor
    · intro hc
      cases hc
      exact ⟨h, rfl⟩
    · rintro ⟨_, rfl⟩
      rfl

theorem fromExcept_run_ok {x : Except ε α} {a : α} {s s' : Bytes} :
    fromExcept x s = .ok (a, s') ↔ x = .ok a ∧ s' = s := by
  cases x with
  | error e => exact iff_of_false (fun h => nomatch h) (fun h => nomatch h.1)
  | ok b =>
      constructor
      · intro h
        cases h
        exact ⟨rfl, rfl⟩
      · rintro ⟨h, rfl⟩
        cases h
        rfl

/-- The reader takes exactly `bs` off any input that starts with it. -/
def Reads (r : Reader ε α) (bs : Bytes) (a : α) : Prop := ∀ rest, r (bs ++ rest) = .ok (a, rest)

theorem Reads.pure (a : α) : Reads (Pure.pure a : Reader ε α) [] a := fun _ => rfl

theorem Reads.bind {r : Reader ε α} {f : α → Reader ε β} {bs cs : Bytes} {a : α} {b : β}
    (hr : Reads r bs a) (hf : Reads (f a) cs b) : Reads (r >>= f) (bs ++ cs) b := by
  intro rest
  rw [List.append_assoc]
  exact run_bind_ok.mpr ⟨a, cs ++ rest, hr _, hf rest⟩

theorem Reads.finish {r : Reader ε α} {f : α → Reader ε β} {bs : Bytes} {a : α} {b : β} (hr : Reads r bs a)
    (hf : Reads (f a) [] b) : Reads (r >>= f) bs b := by
  have h := hr.bind hf
  rwa [List.append_nil] at h

theorem Reads.map {r : Reader ε α} {bs : Bytes} {a : α} (f : α → β) (hr : Reads r bs a) :
    Reads (r >>= fun a => Pure.pure (f a)) bs (f a) := hr.finish (Reads.pure (f a))

theorem Reads.throwIf {bad : Prop} [Decidable bad] {e : ε} (h : ¬ bad) :
    Reads (throwIf bad e : Reader ε Unit) [] () := fun _ => throwIf_run_ok.mpr ⟨h, rfl⟩

theorem Reads.unless {bad : Prop} [Decidable bad] {e : ε} {f : Unit → Reader ε α} {bs : Bytes} {a : α}
    (h : ¬ bad) (hf : Reads (f ()) bs a) : Reads (ByteReader.throwIf bad e >>= f) bs a :=
  (Reads.throwIf h).bind hf

theorem Reads.fromExcept {x : Except ε α} {a : α} (h : x = .ok a) : Reads (ByteReader.fromExcept x) [] a :=
  fun _ => fromExcept_run_ok.mpr ⟨h, rfl⟩

theorem Reads.raw (short : ε) (bs : Bytes) : Reads (raw short bs.length) bs bs := by
  intro rest
  simp only [ByteReader.raw, List.length_append, Nat.le_add_right, if_pos, List.take_left', List.drop_left']

theorem Reads.byte (short : ε) (b : Byte) : Reads (byte short) [b] b := fun _ => rfl

theorem Reads.le (short : ε) (bs : Bytes) : Reads (le short bs.length) bs (leNat bs) := by
  induction bs with
  | nil => exact fun _ => rfl
  | cons b bs ih =>
      exact (Reads.byte short b).bind (ih.map (fun n => b.toNat + 256 * n))

theorem Reads.leBytes (short : ε) {k n : Nat} (h : n < 256 ^ k) :
    Reads (ByteReader.le short k) (leBytes k n) n := by
  have hr := Reads.le short (ByteReader.leBytes k n)
  rwa [length_leBytes, leNat_leBytes, Nat.mod_eq_of_lt h] at hr

theorem Reads.times {r : Reader ε α} {enc : β → Bytes} {g : β → α} {xs : List β}
    (h : ∀ x ∈ xs, Reads r (enc x) (g x)) :
    Reads (times xs.length r) (xs.flatMap enc) (xs.map g) := by
  induction xs with
  | nil => exact Reads.pure []
  | cons x xs ih =>
      have ht := ih (fun y hy => h y (List.mem_cons_of_mem x hy))
      exact Reads.bind (h x List.mem_cons_self) (ht.map (fun as => g x :: as))

theorem Reads.unique {r : Reader ε α} {bs cs : Bytes} {a b : α} {s t : Bytes} (h : Reads r bs a)
    (h' : Reads r cs b) (he : bs ++ s = cs ++ t) : a = b ∧ s = t := by
  have ha := h s
  rw [he, h' t] at ha
  cases ha
  exact ⟨rfl, rfl⟩

/-- The bytes taken by the reader are the spelling of its result. -/
def Spells (r : Reader ε α) (w : α → Bytes) : Prop := ∀ {s t a}, r s = .ok (a, t) → s = w a ++ t

theorem Spells.raw (short : ε) (n : Nat) {s t a : Bytes} (h : raw short n s = .ok (a, t)) :
    s = a ++ t ∧ a.length = n := by
  unfold ByteReader.raw at h
  split at h
  · next hn =>
      cases h
      exact ⟨(List.take_append_drop n s).symm, List.length_take_of_le hn⟩
  · cases h

theorem Spells.byte (short : ε) : Spells (byte short) fun b => [b] := by
  intro s t a h
  cases s with
  | nil => cases h
  | cons b s =>
      cases h
      rfl

theorem Spells.le (short : ε) (k : Nat) : Spells (le short k) (leBytes k) := by
  induction k with
  | zero =>
      intro s t a h
      cases h
      rfl
  | succ k ih =>
      intro s t a h
      obtain ⟨b, u, hb, h⟩ := run_bind_ok.mp h
      obtain ⟨n, v, hn, h⟩ := run_bind_ok.mp h
      cases h
      have hlt : b.toNat < 256 := b.isLt
      have hdiv : (b.toNat + 256 * n) / 256 = n := by omega
      have hhead : BitVec.ofNat 8 (b.toNat + 256 * n) = b := by
        apply BitVec.eq_of_toNat_eq
        rw [BitVec.toNat_ofNat]
        omega
      rw [Spells.byte short hb, ih hn, ByteReader.leBytes, hdiv, hhead]
      rfl

theorem le_lt {short : ε} {k n : Nat} {s t : Bytes} (h : le short k s = .ok (n, t)) : n < 256 ^ k := by
  induction k generalizing n s with
  | zero =>
      cases h
      exact Nat.one_pos
  | succ k ih =>
      obtain ⟨b, u, _, h⟩ := run_bind_ok.mp h
      obtain ⟨m, v, hm, h⟩ := run_bind_ok.mp h
      cases h
      have hlt : b.toNat < 256 := b.isLt
      have hm := ih hm
      rw [pow_succ]
      omega

theorem Spells.times {r : Reader ε α} {w : α → Bytes} (hr : Spells r w) (n : Nat) :
    Spells (times n r) fun as => as.flatMap w := by
  induction n with
  | zero =>
      intro s t as h
      cases h
      rfl
  | succ n ih =>
      intro s t as h
      obtain ⟨a, u, ha, h⟩ := run_bind_ok.mp h
      obtain ⟨bs, v, hbs, h⟩ := run_bind_ok.mp h
      cases h
      rw [hr ha, ih hbs]
      dsimp only
      rw [List.flatMap_cons, List.append_assoc]

/-- The reader takes `n` bytes, or fails with `short` where there are fewer. -/
def Takes (short : ε) (r : Reader ε α) (n : Nat) : Prop :=
  ∀ s, (n ≤ s.length → ∃ a, r s = .ok (a, s.drop n)) ∧ (s.length < n → r s = .error short)

theorem Takes.pure (short : ε) (a : α) : Takes short (Pure.pure a : Reader ε α) 0 :=
  fun _ => ⟨fun _ => ⟨a, rfl⟩, fun h => absurd h (Nat.not_lt_zero _)⟩

theorem Takes.bind {short : ε} {r : Reader ε α} {f : α → Reader ε β} {n m : Nat} (hr : Takes short r n)
    (hf : ∀ a, Takes short (f a) m) : Takes short (r >>= f) (n + m) := by
  intro s
  by_cases hn : n ≤ s.length
  · obtain ⟨a, ha⟩ := (hr s).1 hn
    have hlen : (s.drop n).length = s.length - n := List.length_drop
    have hrun : (r >>= f) s = f a (s.drop n) := by
      show (r s >>= fun p => f p.1 p.2) = _
      rw [ha]
      rfl
    rw [hrun]
    refine ⟨fun hle => ?_, fun hlt => (hf a _).2 (by omega)⟩
    obtain ⟨b, hb⟩ := (hf a _).1 (show m ≤ (s.drop n).length by omega)
    exact ⟨b, by rw [hb, List.drop_drop]⟩
  · refine ⟨fun hle => absurd hle (by omega), fun _ => ?_⟩
    show (r s >>= fun p => f p.1 p.2) = _
    rw [(hr s).2 (by omega)]
    rfl

theorem Takes.map {short : ε} {r : Reader ε α} {n : Nat} (hr : Takes short r n) (f : α → β) :
    Takes short (r >>= fun a => Pure.pure (f a)) n := hr.bind fun a => Takes.pure short (f a)

theorem Takes.byte (short : ε) : Takes short (byte short) 1 := by
  intro s
  cases s with
  | nil => exact ⟨fun h => absurd h (by decide), fun _ => rfl⟩
  | cons b s => exact ⟨fun _ => ⟨b, rfl⟩, fun h => absurd h (by rw [List.length_cons]; omega)⟩

theorem Takes.le (short : ε) (k : Nat) : Takes short (le short k) k := by
  induction k with
  | zero => exact Takes.pure short 0
  | succ k ih =>
      have h := (Takes.byte short).bind fun b => ih.map fun n => b.toNat + 256 * n
      rwa [Nat.add_comm 1 k] at h

theorem Takes.times {short : ε} {r : Reader ε α} {n : Nat} (hr : Takes short r n) (k : Nat) :
    Takes short (times k r) (n * k) := by
  induction k with
  | zero => exact Takes.pure short []
  | succ k ih =>
      have h := hr.bind fun a => ih.map fun as => a :: as
      rwa [Nat.add_comm, ← Nat.mul_succ] at h

/-- What the reader accepts it also accepts with more bytes behind. -/
def Extends (r : Reader ε α) : Prop :=
  ∀ s rest a t, r s = .ok (a, rest) → r (s ++ t) = .ok (a, rest ++ t)

theorem Extends.pure (a : α) : Extends (Pure.pure a : Reader ε α) := by
  intro s rest b t h
  cases h
  rfl

theorem Extends.bind {r : Reader ε α} {f : α → Reader ε β} (hr : Extends r) (hf : ∀ a, Extends (f a)) :
    Extends (r >>= f) := by
  intro s rest b t h
  obtain ⟨a, u, hu, hb⟩ := run_bind_ok.mp h
  exact run_bind_ok.mpr ⟨a, u ++ t, hr s u a t hu, hf a u rest b t hb⟩

theorem Extends.fromExcept (x : Except ε α) : Extends (fromExcept x) := by
  intro s rest a t h
  obtain ⟨hx, rfl⟩ := fromExcept_run_ok.mp h
  exact fromExcept_run_ok.mpr ⟨hx, rfl⟩

theorem Extends.raw (short : ε) (n : Nat) : Extends (raw short n) := by
  intro s rest a t h
  unfold ByteReader.raw at h ⊢
  split at h
  · rename_i hn
    cases h
    rw [if_pos (by rw [List.length_append]; omega), List.take_append_of_le_length hn,
      List.drop_append_of_le_length hn]
  · cases h

theorem Extends.byte (short : ε) : Extends (byte short) := by
  intro s rest a t h
  cases s with
  | nil => cases h
  | cons b s => cases h; rfl

theorem Extends.le (short : ε) (k : Nat) : Extends (le short k) := by
  induction k with
  | zero => exact Extends.pure 0
  | succ k ih => exact (Extends.byte short).bind (fun b => ih.bind (fun n => Extends.pure _))

theorem Extends.times {r : Reader ε α} (hr : Extends r) (n : Nat) : Extends (times n r) := by
  induction n with
  | zero => exact Extends.pure []
  | succ n ih => exact hr.bind (fun a => ih.bind (fun as => Extends.pure _))

theorem Reads.fails_on_part {r : Reader ε α} {bs p : Bytes} {a : α} (hr : Reads r bs a) (he : Extends r)
    (hp : p <+: bs) (hne : p ≠ bs) (x : α × Bytes) : r p ≠ .ok x := by
  obtain ⟨t, rfl⟩ := hp
  intro h
  have hall := hr []
  rw [List.append_nil, he p x.2 x.1 t h] at hall
  obtain ⟨_, ht⟩ := Prod.mk.inj (Except.ok.inj hall)
  rw [(List.append_eq_nil_iff.mp ht).2, List.append_nil] at hne
  exact hne rfl

end DBPlayground.ByteReader
