import DBPlayground.Cloud.Records

namespace DBPlayground.Keys

open ByteReader Table Wire Records

def slash : Byte := 47

def trimSlashes (s : Bytes) : Bytes := s.rdropWhile (· == slash)

/-- `%020llu`: `k` decimal digits, the most significant first. -/
def decimal : Nat → Nat → Bytes
  | 0, _ => []
  | k + 1, n => decimal k (n / 10) ++ [BitVec.ofNat 8 (48 + n % 10)]

def walName (seq : U64) : Bytes := ascii "/wal/" ++ (decimal 20 seq.toNat ++ ascii ".wal")

def walPath (t : TableDescriptor) (seq : U64) : Bytes := trimSlashes t.filePrefix ++ walName seq

def sequentialWalKey (t : TableDescriptor) (seq : U64) : Except Exn Bytes := do
  throwIf (seq = 0) (.invalidArgument "sequential: WAL seq is zero" : Exn)
  throwIf (trimSlashes t.filePrefix = []) (.invalidArgument "sequential: empty file prefix" : Exn)
  pure (walPath t seq)

def metaKey (t : TableDescriptor) (key : Bytes) : Bytes :=
  trimSlashes t.metadataPrefix ++ (slash :: key)

def currentKey (t : TableDescriptor) : Bytes := metaKey t (ascii "CURRENT")

def dataPath (t : TableDescriptor) (key : Bytes) : Bytes := t.filePrefix ++ (slash :: key)

variable {t : TableDescriptor}

@[simp] theorem length_decimal (k n : Nat) : (decimal k n).length = k := by
  induction k generalizing n with
  | zero => rfl
  | succ k ih => rw [decimal, List.length_append, ih, List.length_singleton]

theorem decimal_injective {k n m : Nat} (hn : n < 10 ^ k) (hm : m < 10 ^ k)
    (h : decimal k n = decimal k m) : n = m := by
  induction k generalizing n m with
  | zero => omega
  | succ k ih =>
      obtain ⟨hhigh, hlow⟩ := List.append_inj h (by rw [length_decimal, length_decimal])
      rw [pow_succ] at hn hm
      have hdiv := ih (by omega) (by omega) hhigh
      have hdigit := congrArg BitVec.toNat (List.cons.inj hlow).1
      rw [BitVec.toNat_ofNat, BitVec.toNat_ofNat] at hdigit
      omega

theorem walPath_injective {a b : U64} (h : walPath t a = walPath t b) : a = b := by
  have hname := List.append_cancel_left (List.append_cancel_left h)
  have hdigits := List.append_cancel_right hname
  have hlt : ∀ x : U64, x.toNat < 10 ^ 20 := fun x => by
    have := x.isLt
    omega
  exact BitVec.eq_of_toNat_eq (decimal_injective (hlt a) (hlt b) hdigits)

theorem walPath_inj {a b : U64} : walPath t a = walPath t b ↔ a = b :=
  ⟨walPath_injective, fun h => by rw [h]⟩

theorem sequentialWalKey_ok {seq : U64} {p : Bytes} (h : sequentialWalKey t seq = .ok p) :
    seq ≠ 0 ∧ p = walPath t seq := by
  obtain ⟨_, h₁, h⟩ := Except.bind_ok.mp h
  obtain ⟨_, _, h⟩ := Except.bind_ok.mp h
  cases h
  exact ⟨throwIf_ok.mp h₁, rfl⟩

theorem sequentialWalKey_error {seq : U64} {x : Exn} (h : sequentialWalKey t seq = .error x) :
    seq = 0 ∨ trimSlashes t.filePrefix = [] := by
  by_contra hne
  obtain ⟨hz, hp⟩ := not_or.mp hne
  rw [sequentialWalKey, throwIf, if_neg hz, throwIf, if_neg hp] at h
  cases h

theorem metaKey_inj {a b : Bytes} : metaKey t a = metaKey t b ↔ a = b := by
  constructor
  · intro h
    exact (List.cons.inj (List.append_cancel_left h)).2
  · intro h
    rw [h]

theorem metaKey_ne_current {key : Bytes} (h : key ≠ ascii "CURRENT") : metaKey t key ≠ currentKey t :=
  fun he => h (metaKey_inj.mp he)

theorem ne_current_of_take {key : Bytes} {n : Nat} {s : Bytes} (h : key.take n = s)
    (hs : s ≠ (ascii "CURRENT").take n) : key ≠ ascii "CURRENT" := by
  intro hk
  rw [hk] at h
  exact hs h.symm

theorem dataPath_inj {a b : Bytes} : dataPath t a = dataPath t b ↔ a = b := by
  constructor
  · intro h
    exact (List.cons.inj (List.append_cancel_left h)).2
  · intro h
    rw [h]

/-- Data files never take the place of a WAL: behind the trimmed prefix a WAL
goes on with `/wal/`, a data file with further slashes or with `/data/`. -/
theorem dataPath_ne_walPath {key : Bytes} {seq : U64} (h : key.take 5 = ascii "data/") :
    dataPath t key ≠ walPath t seq := by
  intro he
  obtain ⟨tail, htail⟩ : ∃ s, t.filePrefix = trimSlashes t.filePrefix ++ s ∧ ∀ b ∈ s, b = slash := by
    refine ⟨t.filePrefix.rtakeWhile (· == slash), List.rdropWhile_append_rtakeWhile.symm, ?_⟩
    intro b hb
    simpa using List.mem_rtakeWhile_imp hb
  obtain ⟨d, hd⟩ : ∃ d, key = ascii "data/" ++ d := ⟨key.drop 5, by rw [← h, List.take_append_drop]⟩
  have hpath : trimSlashes t.filePrefix ++ (tail ++ (slash :: key)) =
      trimSlashes t.filePrefix ++ walName seq := by
    rwa [← List.append_assoc, ← htail.1]
  have hrest := List.append_cancel_left hpath
  cases tail with
  | nil =>
      rw [hd] at hrest
      have := congrArg (fun l => l[1]?) hrest
      simp [walName, ascii] at this
  | cons b tail =>
      have hb := htail.2 b List.mem_cons_self
      have h1 := congrArg (fun l => l[1]?) hrest
      cases tail with
      | nil => simp [walName, ascii, slash] at h1
      | cons c tail =>
          have hc := htail.2 c (by simp)
          simp [walName, ascii, hc, slash] at h1

end DBPlayground.Keys
