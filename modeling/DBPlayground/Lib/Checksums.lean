import DBPlayground.Lib.ByteReader

namespace DBPlayground.Checksums

open ByteReader

abbrev Word := BitVec 32

def crcPolynomial : Word := 0xEDB88320

def crcBit (c : Word) : Word := if c.getLsbD 0 then (c >>> 1) ^^^ crcPolynomial else c >>> 1

def crcByte (c : Word) (b : Byte) : Word := Nat.repeat crcBit 8 (c ^^^ b.setWidth 32)

def crc32 (bytes : Bytes) : Word := bytes.foldl crcByte 0xFFFFFFFF ^^^ 0xFFFFFFFF

/-- The round constants of SHA-256 (FIPS 180-4, 4.2.2). -/
def roundConstants : List Word := [
  0x428a2f98, 0x71374491, 0xb5c0fbcf, 0xe9b5dba5, 0x3956c25b, 0x59f111f1, 0x923f82a4, 0xab1c5ed5,
  0xd807aa98, 0x12835b01, 0x243185be, 0x550c7dc3, 0x72be5d74, 0x80deb1fe, 0x9bdc06a7, 0xc19bf174,
  0xe49b69c1, 0xefbe4786, 0x0fc19dc6, 0x240ca1cc, 0x2de92c6f, 0x4a7484aa, 0x5cb0a9dc, 0x76f988da,
  0x983e5152, 0xa831c66d, 0xb00327c8, 0xbf597fc7, 0xc6e00bf3, 0xd5a79147, 0x06ca6351, 0x14292967,
  0x27b70a85, 0x2e1b2138, 0x4d2c6dfc, 0x53380d13, 0x650a7354, 0x766a0abb, 0x81c2c92e, 0x92722c85,
  0xa2bfe8a1, 0xa81a664b, 0xc24b8b70, 0xc76c51a3, 0xd192e819, 0xd6990624, 0xf40e3585, 0x106aa070,
  0x19a4c116, 0x1e376c08, 0x2748774c, 0x34b0bcb5, 0x391c0cb3, 0x4ed8aa4a, 0x5b9cca4f, 0x682e6ff3,
  0x748f82ee, 0x78a5636f, 0x84c87814, 0x8cc70208, 0x90befffa, 0xa4506ceb, 0xbef9a3f7, 0xc67178f2]

structure HashState where
  a : Word
  b : Word
  c : Word
  d : Word
  e : Word
  f : Word
  g : Word
  h : Word
  deriving DecidableEq, Repr

def initialHash : HashState :=
  ⟨0x6a09e667, 0xbb67ae85, 0x3c6ef372, 0xa54ff53a, 0x510e527f, 0x9b05688c, 0x1f83d9ab, 0x5be0cd19⟩

def sigma (r s t : Nat) (x : Word) : Word := x.rotateRight r ^^^ x.rotateRight s ^^^ x >>> t

def bigSigma (r s t : Nat) (x : Word) : Word := x.rotateRight r ^^^ x.rotateRight s ^^^ x.rotateRight t

/-- The message schedule; `window` holds the last sixteen words, oldest first. -/
def schedule : Nat → List Word → List Word
  | 0, _ => []
  | n + 1, window =>
    let next := sigma 17 19 10 (window.getD 14 0) + window.getD 9 0 + sigma 7 18 3 (window.getD 1 0) +
      window.getD 0 0
    window.headD 0 :: schedule n (window.tail ++ [next])

def round (s : HashState) (kw : Word × Word) : HashState :=
  let t₁ := s.h + bigSigma 6 11 25 s.e + ((s.e &&& s.f) ^^^ (~~~ s.e &&& s.g)) + kw.1 + kw.2
  let t₂ := bigSigma 2 13 22 s.a + ((s.a &&& s.b) ^^^ (s.a &&& s.c) ^^^ (s.b &&& s.c))
  ⟨t₁ + t₂, s.a, s.b, s.c, s.d + t₁, s.e, s.f, s.g⟩

def compress (s : HashState) (block : List Word) : HashState :=
  let r := (roundConstants.zip (schedule 64 block)).foldl round s
  ⟨s.a + r.a, s.b + r.b, s.c + r.c, s.d + r.d, s.e + r.e, s.f + r.f, s.g + r.g, s.h + r.h⟩

def beBytes (k n : Nat) : Bytes := (leBytes k n).reverse

def beWord (bs : Bytes) : Word := BitVec.ofNat 32 (leNat bs.reverse)

def pad (bytes : Bytes) : Bytes :=
  bytes ++ 0x80 :: List.replicate ((119 - bytes.length % 64) % 64) 0 ++ beBytes 8 (8 * bytes.length)

def groups {α : Type} (k : Nat) : Nat → List α → List (List α)
  | 0, _ => []
  | n + 1, xs => xs.take k :: groups k n (xs.drop k)

def sha256 (bytes : Bytes) : Bytes :=
  let padded := pad bytes
  let words := (groups 4 (padded.length / 4) padded).map beWord
  let s := (groups 16 (padded.length / 64) words).foldl compress initialHash
  [s.a, s.b, s.c, s.d, s.e, s.f, s.g, s.h].flatMap fun x => beBytes 4 x.toNat

theorem sha256_length (bytes : Bytes) : (sha256 bytes).length = 32 := by
  simp [sha256, beBytes]

example : crc32 (ascii "123456789") = 0xCBF43926 := by decide +kernel

example : sha256 (ascii "abc") = beBytes 32 0xba7816bf8f01cfea414140de5dae2223b00361a396177a9cb410ff61f20015ad := by
  decide +kernel

end DBPlayground.Checksums
