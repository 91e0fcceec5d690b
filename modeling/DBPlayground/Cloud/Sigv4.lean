import DBPlayground.Cloud.SortEntries
import DBPlayground.Lib.Framing
import Mathlib.Data.List.Perm.Basic
import Mathlib.Data.Set.List

namespace DBPlayground.Sigv4

open ByteReader Framing WalIndexer SortEntries

/-- The hash functions, which come from OpenSSL. -/
structure Crypto where
  sha256 : Bytes → Bytes
  hmacSha256 : Bytes → Bytes → Bytes

def isUnreserved (c : Byte) : Bool :=
  (0x41 ≤ c.toNat && c.toNat ≤ 0x5a) || (0x61 ≤ c.toNat && c.toNat ≤ 0x7a) || (0x30 ≤ c.toNat && c.toNat ≤ 0x39) ||
    c == 0x2d || c == 0x5f || c == 0x2e || c == 0x7e

def kHex : Bytes := ascii "0123456789abcdef"

def kHexUpper : Bytes := ascii "0123456789ABCDEF"

def digits (table : Bytes) (c : Byte) : Bytes := [table.getD (c >>> 4).toNat 0, table.getD (c &&& 0x0f).toNat 0]

def hexEncode (bytes : Bytes) : Bytes := bytes.flatMap (digits kHex)

def sha256Hex (crypto : Crypto) (data : Bytes) : Bytes := hexEncode (crypto.sha256 data)

def uriByte (encodeSlash : Bool) (c : Byte) : Bytes :=
  if isUnreserved c || (c == 0x2f && !encodeSlash) then [c] else 0x25 :: digits kHexUpper c

def uriEncode (value : Bytes) (encodeSlash : Bool) : Bytes := value.flatMap (uriByte encodeSlash)

structure SigningInput where
  method : Bytes
  canonicalUri : Bytes
  query : List (Bytes × Bytes)
  host : Bytes
  amzDate : Bytes
  payloadSha256Hex : Bytes
  region : Bytes
  service : Bytes
  accessKey : Bytes
  secretKey : Bytes

/-- `operator<` of a pair of strings. -/
def pairLess (a b : Bytes × Bytes) : Bool := !bytesLe b.1 a.1 || (bytesLe a.1 b.1 && !bytesLe b.2 a.2)

def pairText (kv : Bytes × Bytes) : Bytes := kv.1 ++ 0x3d :: kv.2

def joinPairs (pairs : List (Bytes × Bytes)) : Bytes := List.intercalate [0x26] (pairs.map pairText)

def encodePair (kv : Bytes × Bytes) : Bytes × Bytes := (uriEncode kv.1 true, uriEncode kv.2 true)

def canonicalQuery (query : List (Bytes × Bytes)) : Bytes :=
  joinPairs ((query.map encodePair).mergeSort fun a b => !pairLess b a)

def newline : Bytes := [0x0a]

def signedHeaders : Bytes := ascii "host;x-amz-content-sha256;x-amz-date"

def canonicalHeaders (input : SigningInput) : Bytes :=
  ascii "host:" ++ input.host ++ newline ++
  ascii "x-amz-content-sha256:" ++ input.payloadSha256Hex ++ newline ++
  ascii "x-amz-date:" ++ input.amzDate ++ newline

def canonicalRequest (input : SigningInput) : Bytes :=
  input.method ++ newline ++
  uriEncode input.canonicalUri false ++ newline ++
  canonicalQuery input.query ++ newline ++
  canonicalHeaders input ++ newline ++
  signedHeaders ++ newline ++
  input.payloadSha256Hex

def buildAuthorization (crypto : Crypto) (input : SigningInput) : Bytes :=
  let scopeDate := input.amzDate.take 8
  let scope := scopeDate ++ ascii "/" ++ input.region ++ ascii "/" ++ input.service ++ ascii "/aws4_request"
  let stringToSign := ascii "AWS4-HMAC-SHA256" ++ newline ++ input.amzDate ++ newline ++ scope ++ newline ++
    sha256Hex crypto (canonicalRequest input)
  let kDate := crypto.hmacSha256 (ascii "AWS4" ++ input.secretKey) scopeDate
  let kRegion := crypto.hmacSha256 kDate input.region
  let kService := crypto.hmacSha256 kRegion input.service
  let kSigning := crypto.hmacSha256 kService (ascii "aws4_request")
  let signature := hexEncode (crypto.hmacSha256 kSigning stringToSign)
  ascii "AWS4-HMAC-SHA256 Credential=" ++ input.accessKey ++ ascii "/" ++ scope ++ ascii ", SignedHeaders=" ++
    signedHeaders ++ ascii ", Signature=" ++ signature

section encoding

theorem kHexUpper_injective : ∀ i j : Fin 16, kHexUpper.getD i 0 = kHexUpper.getD j 0 → i = j := by decide

theorem digits_injective : Function.Injective (digits kHexUpper) := by
  intro a b h
  have ha := a.isLt
  have hb := b.isLt
  have hhigh : ∀ c : Byte, (c >>> 4).toNat = c.toNat / 16 := fun c => by
    rw [BitVec.toNat_ushiftRight, Nat.shiftRight_eq_div_pow]
  have hlow : ∀ c : Byte, (c &&& 0x0f).toNat = c.toNat % 16 := fun c => by
    rw [BitVec.toNat_and]
    exact Nat.and_two_pow_sub_one_eq_mod c.toNat 4
  simp only [digits, hhigh, hlow, List.cons.injEq, and_true] at h
  have hdiv := kHexUpper_injective ⟨a.toNat / 16, by omega⟩ ⟨b.toNat / 16, by omega⟩ h.1
  have hmod := kHexUpper_injective ⟨a.toNat % 16, by omega⟩ ⟨b.toNat % 16, by omega⟩ h.2
  simp only [Fin.mk.injEq] at hdiv hmod
  apply BitVec.eq_of_toNat_eq
  omega

theorem uriByte_splitsOff (encodeSlash : Bool) : SplitsOff (uriByte encodeSlash) := by
  have hpercent : (isUnreserved 0x25 || ((0x25 : Byte) == 0x2f && !encodeSlash)) = false := by
    cases encodeSlash <;> decide
  intro a b x y h
  unfold uriByte at h
  split at h
  · next ha =>
      split at h
      · next hb => simpa using h
      · next hb =>
          simp only [List.cons_append, List.nil_append, List.cons.injEq] at h
          rw [h.1, hpercent] at ha
          cases ha
  · next ha =>
      split at h
      · next hb =>
          simp only [List.cons_append, List.nil_append, List.cons.injEq] at h
          rw [← h.1, hpercent] at hb
          cases hb
      · next hb =>
          rw [List.cons_append, List.cons_append, List.cons.injEq] at h
          obtain ⟨hdigits, hrest⟩ := List.append_inj h.2 rfl
          exact ⟨digits_injective hdigits, hrest⟩

theorem uriEncode_injective (encodeSlash : Bool) : Function.Injective (uriEncode · encodeSlash) := by
  apply (uriByte_splitsOff encodeSlash).flatMap_injective
  intro a
  unfold uriByte
  split <;> simp

example : uriEncode (ascii "a/b c") true = ascii "a%2Fb%20c" := by decide

theorem separators_not_mem (value : Bytes) : 0x26 ∉ uriEncode value true ∧ 0x3d ∉ uriEncode value true := by
  have hbyte : ∀ c : Byte, 0x26 ∉ uriByte true c ∧ 0x3d ∉ uriByte true c := by decide +kernel
  simp only [uriEncode, List.mem_flatMap, not_exists, not_and]
  exact ⟨fun c _ => (hbyte c).1, fun c _ => (hbyte c).2⟩

theorem encodePair_injective : Function.Injective encodePair := by
  intro a b h
  rw [encodePair, encodePair, Prod.mk.injEq] at h
  exact Prod.ext (uriEncode_injective true h.1) (uriEncode_injective true h.2)

end encoding

section order

variable {a b c : Bytes × Bytes}

theorem not_pairLess : (!pairLess b a) = true ↔
    bytesLe a.1 b.1 = true ∧ (bytesLe b.1 a.1 = true → bytesLe a.2 b.2 = true) := by
  simp only [pairLess, Bool.not_eq_true', Bool.or_eq_false_iff, Bool.and_eq_false_iff, Bool.not_eq_false']
  constructor
  · rintro ⟨h, hrest⟩
    exact ⟨h, fun hb => hrest.resolve_left (by simp [hb])⟩
  · rintro ⟨h, hrest⟩
    refine ⟨h, ?_⟩
    cases hb : bytesLe b.1 a.1 with
    | false => exact .inl rfl
    | true => exact .inr (hrest hb)

theorem pairLe_total (a b : Bytes × Bytes) : (!pairLess b a || !pairLess a b) = true := by
  rw [Bool.or_eq_true, not_pairLess, not_pairLess]
  have h₁ := bytesLe_total a.1 b.1
  have h₂ := bytesLe_total a.2 b.2
  rw [Bool.or_eq_true] at h₁ h₂
  by_cases hab : bytesLe a.1 b.1 = true
  · by_cases hba : bytesLe b.1 a.1 = true
    · rcases h₂ with h | h
      · exact .inl ⟨hab, fun _ => h⟩
      · exact .inr ⟨hba, fun _ => h⟩
    · exact .inl ⟨hab, fun h => absurd h hba⟩
  · exact .inr ⟨h₁.resolve_left hab, fun h => absurd h hab⟩

theorem pairLe_trans (hab : (!pairLess b a) = true) (hbc : (!pairLess c b) = true) : (!pairLess c a) = true := by
  rw [not_pairLess] at hab hbc ⊢
  refine ⟨bytesLe_trans hab.1 hbc.1, fun hca => ?_⟩
  exact bytesLe_trans (hab.2 (bytesLe_trans hbc.1 hca)) (hbc.2 (bytesLe_trans hca hab.1))

theorem pairLe_antisymm (hab : (!pairLess b a) = true) (hba : (!pairLess a b) = true) : a = b := by
  rw [not_pairLess] at hab hba
  exact Prod.ext (bytesLe_antisymm hab.1 hba.1) (bytesLe_antisymm (hab.2 hba.1) (hba.2 hab.1))

theorem sort_eq_iff {xs ys : List (Bytes × Bytes)} :
    (xs.mergeSort fun a b => !pairLess b a) = (ys.mergeSort fun a b => !pairLess b a) ↔ xs.Perm ys := by
  have hsorted : ∀ zs : List (Bytes × Bytes), (zs.mergeSort fun a b => !pairLess b a).Pairwise
      fun a b => (!pairLess b a) = true :=
    List.pairwise_mergeSort (fun a b c => pairLe_trans) pairLe_total
  constructor
  · intro h
    exact (List.mergeSort_perm xs _).symm.trans (h ▸ List.mergeSort_perm ys _)
  · intro h
    apply List.Perm.eq_of_pairwise (fun a b _ _ => pairLe_antisymm) (hsorted xs) (hsorted ys)
    exact (List.mergeSort_perm xs _).trans (h.trans (List.mergeSort_perm ys _).symm)

end order

theorem pairText_encodePair_injective : Function.Injective (pairText ∘ encodePair) := by
  intro a b h
  have hname := (separators_not_mem a.1).2
  have hvalue := (separators_not_mem a.2).2
  obtain ⟨h₁, _, h₂⟩ := (List.append_cons_inj_of_notMem hname hvalue).mp h
  exact encodePair_injective (Prod.ext h₁ h₂)

theorem pairText_encodePair (kv : Bytes × Bytes) : 0x26 ∉ pairText (encodePair kv) ∧ pairText (encodePair kv) ≠ [] := by
  have hname := (separators_not_mem kv.1).1
  have hvalue := (separators_not_mem kv.2).1
  have heq : (0x26 : Byte) ≠ 0x3d := by decide
  rw [pairText, encodePair, List.mem_append, List.mem_cons]
  exact ⟨fun h => h.elim hname fun h => h.elim heq hvalue, List.append_ne_nil_of_right_ne_nil _ (List.cons_ne_nil _ _)⟩

theorem joinPairs_injective {xs ys : List (Bytes × Bytes)} (hx : ∀ kv ∈ xs, kv ∈ Set.range encodePair)
    (hy : ∀ kv ∈ ys, kv ∈ Set.range encodePair) (h : joinPairs xs = joinPairs ys) : xs = ys := by
  have hraw : ∀ zs : List (Bytes × Bytes), (∀ kv ∈ zs, kv ∈ Set.range encodePair) → ∃ raw, List.map encodePair raw = zs := by
    intro zs hz
    have hmem : zs ∈ Set.range (List.map encodePair) := (Set.range_list_map encodePair).symm ▸ hz
    exact hmem
  obtain ⟨as, rfl⟩ := hraw xs hx
  obtain ⟨bs, rfl⟩ := hraw ys hy
  have htexts : ∀ raw : List (Bytes × Bytes), ∀ l ∈ (raw.map encodePair).map pairText, 0x26 ∉ l ∧ l ≠ [] := by
    intro raw l hl
    rw [List.map_map] at hl
    obtain ⟨kv, _, rfl⟩ := List.mem_map.mp hl
    exact pairText_encodePair kv
  have hmap := intercalate_injective (htexts as) (htexts bs) h
  rw [List.map_map, List.map_map] at hmap
  rw [List.map_injective_iff.mpr pairText_encodePair_injective hmap]

/-- Two queries have one canonical string exactly if they have the same pairs, each as
often; the order of the pairs has no influence on the signature. -/
theorem canonicalQuery_faithful (q q' : List (Bytes × Bytes)) :
    (canonicalQuery q = canonicalQuery q' ↔ q.Perm q') ∧
    (q.Perm q' → ∀ (crypto : Crypto) (input : SigningInput),
      buildAuthorization crypto { input with query := q } = buildAuthorization crypto { input with query := q' }) := by
  have hencoded : ∀ q : List (Bytes × Bytes), ∀ kv ∈ (q.map encodePair).mergeSort fun a b => !pairLess b a,
      kv ∈ Set.range encodePair := by
    intro q kv hkv
    obtain ⟨raw, _, rfl⟩ := List.mem_map.mp (List.mem_mergeSort.mp hkv)
    exact Set.mem_range_self raw
  have hiff : canonicalQuery q = canonicalQuery q' ↔ q.Perm q' := by
    rw [← List.map_perm_map_iff encodePair_injective, ← sort_eq_iff]
    constructor
    · intro h
      exact joinPairs_injective (hencoded q) (hencoded q') h
    · intro h
      rw [canonicalQuery, canonicalQuery, h]
  refine ⟨hiff, fun hperm crypto input => ?_⟩
  simp only [buildAuthorization, canonicalRequest, canonicalHeaders, hiff.mpr hperm]

end DBPlayground.Sigv4
