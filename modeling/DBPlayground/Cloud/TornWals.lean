import DBPlayground.Cloud.WalLimits

namespace DBPlayground.WalCodec

open ByteReader Table Wire Records WalRoundTrip

variable {H : Hashes} {schema : Schema}

theorem extends_throwIf (bad : Prop) [Decidable bad] (e : Exn) : Extends (throwIf bad e : Reader Exn Unit) := by
  intro s rest u t h
  obtain ⟨hbad, rfl⟩ := throwIf_run_ok.mp h
  exact throwIf_run_ok.mpr ⟨hbad, rfl⟩

theorem extends_u32 : Extends getU32 := Extends.le short 4

theorem extends_u64 : Extends getU64 := (Extends.le short 8).bind fun n => Extends.pure (BitVec.ofNat 64 n)

theorem extends_raw (n : Nat) : Extends (getRaw n) := Extends.raw short n

theorem extends_string : Extends getString := extends_u32.bind extends_raw

theorem extends_bounded {α : Type} {count size : Nat} {e : Exn} {r : Reader Exn α} (hr : Extends r) :
    Extends (getBounded count size e r) := by
  intro s rest a t h
  obtain ⟨left, _, hleft, h₁⟩ := run_bind_ok.mp h
  cases hleft
  obtain ⟨_, s₂, hcheck, h₂⟩ := run_bind_ok.mp h₁
  obtain ⟨hcount, hs₂⟩ := throwIf_run_ok.mp hcheck
  rw [hs₂] at h₂
  have hmono : s.length / size ≤ (s ++ t).length / size := by
    rw [List.length_append]
    exact Nat.div_le_div_right (Nat.le_add_right _ _)
  refine run_bind_ok.mpr ⟨_, _, rfl, run_bind_ok.mpr ⟨(), _, throwIf_run_ok.mpr ⟨by omega, rfl⟩, ?_⟩⟩
  exact hr s rest a t h₂

theorem extends_strings : Extends getStrings :=
  extends_u32.bind fun count => extends_bounded (extends_string.times count)

theorem extends_header (magic : String) : Extends (getHeader magic) := by
  have hmagic : Extends (getMagic magic) := (extends_raw 4).bind fun b => extends_throwIf _ _
  exact hmagic.bind fun _ => extends_u32.bind fun version => extends_throwIf _ _

theorem extends_kind : Extends getKind := by
  refine (Extends.byte short).bind ?_
  intro code s rest a t h
  split at h
  · next hcode =>
      cases h
      rw [if_pos hcode]
      rfl
  · next hcode =>
      split at h
      · next hfence =>
          cases h
          rw [if_neg hcode, if_pos hfence]
          rfl
      · cases h

theorem extends_walHeader : Extends getWalHeader := by
  refine (extends_header "DBW2").bind fun _ => extends_kind.bind fun kind => ?_
  refine extends_string.bind fun tableId => extends_u64.bind fun seq => extends_u64.bind fun epoch => ?_
  refine extends_u64.bind fun version => extends_string.bind fun operation => ?_
  exact extends_strings.bind fun ids => Extends.pure _

theorem extends_chunk : Extends (getChunk H schema) := by
  refine extends_u32.bind fun rows => (extends_throwIf _ _).bind fun _ => extends_u32.bind fun size => ?_
  refine (extends_raw size).bind fun payload => extends_u32.bind fun checksum => ?_
  refine (extends_throwIf _ _).bind fun _ => (Extends.fromExcept _).bind fun cols => Extends.pure _

theorem extends_contents : Extends (getWalContents H schema) := by
  refine extends_walHeader.bind fun wal => extends_u32.bind fun count => (extends_throwIf _ _).bind fun _ => ?_
  refine (Extends.fromExcept _).bind fun ids => (extends_chunk.times count).bind fun parts => ?_
  refine extends_u64.bind fun total => (extends_throwIf _ _).bind fun _ => ?_
  exact (extends_raw 32).bind fun digest => (extends_throwIf _ _).bind fun _ => Extends.pure _

theorem contents_of_decode {b : Bytes} {w : SequentialWal} (h : decodeSequentialWal H schema b = .ok w) :
    ∃ rest, getWalContents H schema b = .ok (w, rest) ∧ rest.length = 8 ∧
      rest = u32 (crc H (b.take (b.length - 8))) ++ ascii "DBW2" := by
  obtain ⟨_, _, h⟩ := Except.bind_ok.mp h
  obtain ⟨w', hparse, h⟩ := Except.bind_ok.mp h
  obtain ⟨_, _, h⟩ := Except.bind_ok.mp h
  cases h
  obtain ⟨w₁, rest, hcontents, hbehind⟩ := run_bind_ok.mp (parse_ok.mp hparse)
  obtain ⟨_, _, hfooter, hw⟩ := run_bind_ok.mp hbehind
  cases hw
  obtain ⟨_, _, hleft, h₁⟩ := run_bind_ok.mp hfooter
  cases hleft
  obtain ⟨_, t₁, hcheck, h₂⟩ := run_bind_ok.mp h₁
  obtain ⟨height, ht₁⟩ := throwIf_run_ok.mp hcheck
  rw [ht₁] at h₂
  obtain ⟨checksum, t₂, hread, h₃⟩ := run_bind_ok.mp h₂
  obtain ⟨_, t₃, hsum, h₄⟩ := run_bind_ok.mp h₃
  obtain ⟨hcrc, ht₃⟩ := throwIf_run_ok.mp hsum
  rw [ht₃] at h₄
  obtain ⟨magic, t₄, hmagic, h₅⟩ := run_bind_ok.mp h₄
  obtain ⟨hne, ht₄⟩ := throwIf_run_ok.mp h₅
  rw [← ht₄] at hmagic
  refine ⟨rest, hcontents, not_not.mp height, ?_⟩
  rw [Spells.le short 4 hread, (Spells.raw short 4 hmagic).1, List.append_nil, not_not.mp hne, not_not.mp hcrc]
  rfl

/-- A WAL that lost bytes at its end, or carries more behind it, is refused
whatever the checksums are. -/
theorem torn_wal_refused {wal : SequentialWal} {b torn : Bytes} (h : encodeSequentialWal H schema wal = .ok b)
    (hcount : wal.chunks.length ≤ 1000000)
    (hpayload : ∀ c ∈ wal.chunks, ∀ p, payload schema c = .ok p → p.length < 2 ^ 32)
    (htorn : torn <+: b ∨ b <+: torn) (hne : torn ≠ b) : ∃ e, decodeSequentialWal H schema torn = .error e := by
  obtain ⟨_, header, ids, entries, hh, hi, he, rfl⟩ := encode_ok.mp h
  have hread := reads_contents (H := H) hh hi he ⟨hcount, hpayload⟩
  set body := walBody H header ids wal entries with hbody
  have hfooter : (u32 (crc H body) ++ ascii "DBW2").length = 8 := by
    rw [List.length_append, u32, length_leBytes]
    rfl
  cases hd : decodeSequentialWal H schema torn with
  | error e => exact ⟨e, rfl⟩
  | ok w =>
      obtain ⟨rest, hrest, height, _⟩ := contents_of_decode hd
      -- what lies behind the contents is eight bytes long in both objects
      rcases htorn with ⟨t, ht⟩ | ⟨t, ht⟩
      · have hall := extends_contents _ _ _ t hrest
        rw [ht, hread] at hall
        have hlen := congrArg List.length (Prod.mk.inj (Except.ok.inj hall)).2
        rw [hfooter, List.length_append, height] at hlen
        rw [List.length_eq_zero_iff.mp (show t.length = 0 by omega), List.append_nil] at ht
        exact absurd ht hne
      · rw [← ht, List.append_assoc, hread] at hrest
        have hlen := congrArg List.length (Prod.mk.inj (Except.ok.inj hrest)).2
        rw [List.length_append, height, hfooter] at hlen
        rw [List.length_eq_zero_iff.mp (show t.length = 0 by omega), List.append_nil] at ht
        exact absurd ht.symm hne

/-- One row, cut short and with a byte behind. -/
theorem torn_number_refused :
    ∃ b, encodeSequentialWal constantHashes [⟨ascii "n", .int32⟩] numberWal = .ok b ∧
      (∃ e, decodeSequentialWal constantHashes [⟨ascii "n", .int32⟩] (b.take 30) = .error e) ∧
      ∃ e, decodeSequentialWal constantHashes [⟨ascii "n", .int32⟩] (b ++ [0]) = .error e := by
  have hpayload : ∀ c ∈ numberWal.chunks, ∀ p, payload [⟨ascii "n", .int32⟩] c = .ok p → p.length < 2 ^ 32 := by
    intro c hc p hp
    obtain rfl := List.mem_singleton.mp hc
    cases hp
    decide
  have henc : encodeSequentialWal constantHashes [⟨ascii "n", .int32⟩] numberWal = .ok _ := rfl
  refine ⟨_, henc, ?_, ?_⟩
  · exact torn_wal_refused henc (by decide) hpayload (.inl (List.take_prefix _ _)) (by decide)
  · exact torn_wal_refused henc (by decide) hpayload (.inr (List.prefix_append _ _)) (by simp)

end DBPlayground.WalCodec
