import DBPlayground.Table.RowCodec
import Mathlib.Data.List.DropRight

namespace DBPlayground.Wire

open ByteReader Table

abbrev U64 := BitVec 64

def uint32Max : Nat := 4294967295

/-- The cast to `uint32_t` keeps the low four bytes. -/
def u32 (n : Nat) : Bytes := leBytes 4 n

def u64 (n : U64) : Bytes := leBytes 8 n.toNat

def putString (s : Bytes) : Except Exn Bytes := do
  throwIf (s.length > uint32Max) (.invalidArgument "sequential: string too large" : Exn)
  pure (u32 s.length ++ s)

def putAll {α : Type} (put : α → Except Exn Bytes) : List α → Except Exn Bytes
  | [] => pure []
  | x :: xs => do
    let b ← put x
    let bs ← putAll put xs
    pure (b ++ bs)

def putStrings (xs : List Bytes) : Except Exn Bytes := do
  throwIf (xs.length > uint32Max) (.invalidArgument "sequential: list too large" : Exn)
  let bs ← putAll putString xs
  pure (u32 xs.length ++ bs)

def putHeader (magic : String) : Bytes := ascii magic ++ u32 2

def short : Exn := .invalidArgument "sequential: truncated object"

def getRaw (n : Nat) : Reader Exn Bytes := raw short n

def getU8 : Reader Exn Byte := byte short

def getU32 : Reader Exn Nat := le short 4

def getU64 : Reader Exn U64 := do
  let n ← le short 8
  pure (BitVec.ofNat 64 n)

def getMagic (magic : String) : Reader Exn Unit := do
  let b ← getRaw 4
  throwIf (b ≠ ascii magic) (.invalidArgument "sequential: bad magic" : Exn)

def getString : Reader Exn Bytes := do
  let n ← getU32
  getRaw n

def getBounded {α : Type} (count size : Nat) (e : Exn) (r : Reader Exn α) : Reader Exn α := do
  let left ← remaining
  throwIf (count > left / size) e
  r

def getStrings : Reader Exn (List Bytes) := do
  let count ← getU32
  getBounded count 4 (.invalidArgument "sequential: bad list count") (times count getString)

def getEnd : Reader Exn Unit := do
  let left ← remaining
  throwIf (left ≠ 0) (.invalidArgument "sequential: trailing bytes" : Exn)

def parse {α : Type} (r : Reader Exn α) (bytes : Bytes) : Except Exn α := do
  let p ← (do let a ← r; getEnd; pure a : Reader Exn α) bytes
  pure p.1

def getHeader (magic : String) : Reader Exn Unit := do
  getMagic magic
  let version ← getU32
  throwIf (version ≠ 2) (.invalidArgument "sequential: bad version" : Exn)

variable {α β : Type} {s : Bytes} {b : Bytes}

theorem putString_ok : putString s = .ok b ↔ s.length < 2 ^ 32 ∧ b = u32 s.length ++ s := by
  rw [putString, Except.bind_ok]
  simp only [throwIf_ok, uint32Max, gt_iff_lt, not_lt]
  constructor
  · rintro ⟨_, hs, hb⟩
    cases hb
    exact ⟨by omega, rfl⟩
  · rintro ⟨hs, rfl⟩
    exact ⟨(), by omega, rfl⟩

theorem putAll_ok {put : α → Except Exn Bytes} {xs : List α} :
    putAll put xs = .ok b ↔ ∃ bs : List Bytes, List.Forall₂ (fun x c => put x = .ok c) xs bs ∧
      b = bs.flatten := by
  induction xs generalizing b with
  | nil =>
      constructor
      · intro h
        cases h
        exact ⟨[], .nil, rfl⟩
      · rintro ⟨bs, hf, rfl⟩
        cases hf
        rfl
  | cons x xs ih =>
      rw [putAll, Except.bind_ok]
      simp only [Except.bind_ok]
      constructor
      · rintro ⟨c, hc, cs, hcs, h⟩
        cases h
        obtain ⟨bs, hf, rfl⟩ := ih.mp hcs
        exact ⟨c :: bs, .cons hc hf, rfl⟩
      · rintro ⟨bs, hf, rfl⟩
        cases hf with
        | cons hc hf => exact ⟨_, hc, _, ih.mpr ⟨_, hf, rfl⟩, rfl⟩

theorem putAll_append {put : α → Except Exn Bytes} {xs ys : List α} (h : putAll put (xs ++ ys) = .ok b) :
    ∃ c d, putAll put xs = .ok c ∧ putAll put ys = .ok d ∧ b = c ++ d := by
  induction xs generalizing b with
  | nil => exact ⟨[], b, rfl, h, rfl⟩
  | cons x xs ih =>
      obtain ⟨e, he, h⟩ := Except.bind_ok.mp h
      obtain ⟨es, hes, h⟩ := Except.bind_ok.mp h
      cases h
      obtain ⟨c, d, hc, hd, rfl⟩ := ih hes
      exact ⟨e ++ c, d, Except.bind_ok.mpr ⟨e, he, Except.bind_ok.mpr ⟨c, hc, rfl⟩⟩, hd,
        (List.append_assoc _ _ _).symm⟩

theorem putAll_congr {put put' : α → Except Exn Bytes} {xs : List α} (h : ∀ x ∈ xs, put x = put' x) :
    putAll put xs = putAll put' xs := by
  induction xs with
  | nil => rfl
  | cons x xs ih =>
      rw [putAll, putAll, h x List.mem_cons_self, ih (fun y hy => h y (List.mem_cons_of_mem x hy))]

theorem reads_u32 {n : Nat} (h : n < 2 ^ 32) : Reads getU32 (u32 n) n :=
  Reads.leBytes short (by omega)

theorem reads_u64 (n : U64) : Reads getU64 (u64 n) n := by
  have hn : n.toNat < 256 ^ 8 := n.isLt
  have h := (Reads.leBytes short hn).map (BitVec.ofNat 64)
  rwa [BitVec.ofNat_toNat, BitVec.setWidth_eq] at h

theorem reads_raw {n : Nat} (h : s.length = n) : Reads (getRaw n) s s := by
  subst h
  exact Reads.raw short s

theorem reads_string (h : s.length < 2 ^ 32) : Reads getString (u32 s.length ++ s) s :=
  (reads_u32 h).bind (reads_raw rfl)

theorem reads_putString (h : putString s = .ok b) : Reads getString b s := by
  obtain ⟨hs, rfl⟩ := putString_ok.mp h
  exact reads_string hs

theorem reads_putAll {put : α → Except Exn Bytes} {r : Reader Exn β} {g : α → β} {xs : List α}
    (hr : ∀ x ∈ xs, ∀ c, put x = .ok c → Reads r c (g x)) (h : putAll put xs = .ok b) :
    Reads (times xs.length r) b (xs.map g) := by
  induction xs generalizing b with
  | nil =>
      cases h
      exact Reads.pure []
  | cons x xs ih =>
      obtain ⟨c, hc, h⟩ := Except.bind_ok.mp h
      obtain ⟨cs, hcs, h⟩ := Except.bind_ok.mp h
      cases h
      have ht := ih (fun y hy => hr y (List.mem_cons_of_mem x hy)) hcs
      exact (hr x List.mem_cons_self c hc).bind (ht.map (fun as => g x :: as))

theorem reads_bounded {count size : Nat} {e : Exn} {r : Reader Exn α} {a : α} (hr : Reads r b a)
    (hsize : 0 < size) (h : count * size ≤ b.length) : Reads (getBounded count size e r) b a := by
  intro rest
  refine run_bind_ok.mpr ⟨(b ++ rest).length, b ++ rest, rfl, ?_⟩
  refine run_bind_ok.mpr ⟨(), b ++ rest, throwIf_run_ok.mpr ⟨?_, rfl⟩, hr rest⟩
  have hle : count ≤ (b ++ rest).length / size := by
    rw [Nat.le_div_iff_mul_le hsize, List.length_append]
    omega
  omega

theorem length_putAll {put : α → Except Exn Bytes} {size : Nat} {xs : List α}
    (hp : ∀ x ∈ xs, ∀ c, put x = .ok c → size ≤ c.length) (h : putAll put xs = .ok b) :
    xs.length * size ≤ b.length := by
  induction xs generalizing b with
  | nil => simp
  | cons x xs ih =>
      obtain ⟨c, hc, h⟩ := Except.bind_ok.mp h
      obtain ⟨cs, hcs, h⟩ := Except.bind_ok.mp h
      cases h
      have h₁ := hp x List.mem_cons_self c hc
      have h₂ := ih (fun y hy => hp y (List.mem_cons_of_mem x hy)) hcs
      rw [List.length_cons, List.length_append, Nat.succ_mul]
      omega

theorem putStrings_ok {xs : List Bytes} : putStrings xs = .ok b ↔
    xs.length < 2 ^ 32 ∧ ∃ c, putAll putString xs = .ok c ∧ b = u32 xs.length ++ c := by
  rw [putStrings, Except.bind_ok]
  simp only [throwIf_ok, Except.bind_ok, uint32Max, gt_iff_lt, not_lt]
  constructor
  · rintro ⟨_, hx, c, hc, h⟩
    cases h
    exact ⟨by omega, c, hc, rfl⟩
  · rintro ⟨hx, c, hc, rfl⟩
    exact ⟨(), by omega, c, hc, rfl⟩

theorem reads_putStrings {xs : List Bytes} (h : putStrings xs = .ok b) : Reads getStrings b xs := by
  obtain ⟨hx, c, hc, rfl⟩ := putStrings_ok.mp h
  refine (reads_u32 hx).bind (reads_bounded ?_ (by decide) ?_)
  · simpa using reads_putAll (g := id) (fun x _ d hd => reads_putString hd) hc
  · refine length_putAll ?_ hc
    intro x _ d hd
    obtain ⟨_, rfl⟩ := putString_ok.mp hd
    simp [u32]

theorem reads_magic {magic : String} (h : (ascii magic).length = 4) :
    Reads (getMagic magic) (ascii magic) () :=
  (reads_raw h).finish (Reads.throwIf (fun hne => hne rfl))

theorem reads_header {magic : String} (h : (ascii magic).length = 4) :
    Reads (getHeader magic) (putHeader magic) () :=
  (reads_magic h).bind ((reads_u32 (by decide)).finish (Reads.throwIf (fun hne => hne rfl)))

theorem parse_ok {a : α} {r : Reader Exn α} : parse r b = .ok a ↔ r b = .ok (a, []) := by
  rw [parse, Except.bind_ok]
  constructor
  · rintro ⟨⟨c, t⟩, hp, h⟩
    cases h
    obtain ⟨a, u, ha, hend⟩ := run_bind_ok.mp hp
    obtain ⟨_, v, hleft, hret⟩ := run_bind_ok.mp hend
    obtain ⟨n, w, hn, hzero⟩ := run_bind_ok.mp hleft
    cases hn
    cases hret
    rwa [List.length_eq_zero_iff.mp (not_not.mp (throwIf_run_ok.mp hzero).1)] at ha
  · exact fun h => ⟨(a, []), run_bind_ok.mpr ⟨a, [], h, rfl⟩, rfl⟩

theorem parse_of_reads {a : α} {r : Reader Exn α} (h : Reads r b a) : parse r b = .ok a := by
  have hb := h []
  rw [List.append_nil] at hb
  exact parse_ok.mpr hb

end DBPlayground.Wire
