import DBPlayground.Lib.ByteReader
import DBPlayground.Storage.Config

namespace DBPlayground.Storage

open ByteReader

structure RID where
  pageId : PageId
  slotNum : BitVec 32
  deriving DecidableEq

def overwrite (bytes : Bytes) (off : Nat) (data : Bytes) : Bytes :=
  bytes.take off ++ data ++ bytes.drop (off + data.length)

def slice (bytes : Bytes) (off len : Nat) : Bytes := (bytes.drop off).take len

def read32 (bytes : Bytes) (off : Nat) : BitVec 32 := BitVec.ofNat 32 (leNat (slice bytes off 4))

def write32 (bytes : Bytes) (off : Nat) (v : BitVec 32) : Bytes := overwrite bytes off (leBytes 4 v.toNat)

/-- A slotted value page. The header is kept in fields of its own; the slot
directory and the values share the page's bytes. -/
structure ValuePage where
  nextPageId : PageId
  numSlots : BitVec 32
  freePtr : BitVec 32
  bytes : Bytes

namespace ValuePage

def kTombstone : BitVec 32 := 0xFFFFFFFF

def zero : ValuePage := ⟨0, 0, 0, List.replicate pageSize 0⟩

def freeSpace (v : ValuePage) : BitVec 64 :=
  v.freePtr.setWidth 64 - (BitVec.ofNat 64 valuePageHeaderSize + v.numSlots.setWidth 64 * BitVec.ofNat 64 valueSlotSize)

def init (v : ValuePage) (next : PageId) : ValuePage :=
  { v with nextPageId := next, numSlots := 0, freePtr := BitVec.ofNat 32 pageSize }

def InPage (off len : Nat) : Prop := valuePageHeaderSize ≤ off ∧ off + len ≤ pageSize

instance (off len : Nat) : Decidable (InPage off len) := inferInstanceAs (Decidable (_ ∧ _))

def slotOffset (idx : Nat) : Nat := valuePageHeaderSize + valueSlotSize * idx

/-- The part of `Put` that works on the page it found; `none` stands for an
access outside the page. -/
def put (v : ValuePage) (value : Bytes) : Option (BitVec 32 × ValuePage) :=
  let dataOff := v.freePtr - BitVec.ofNat 32 value.length
  let idx := v.numSlots
  let slot := slotOffset idx.toNat
  if InPage dataOff.toNat value.length ∧ InPage slot valueSlotSize then
    let bytes := overwrite v.bytes dataOff.toNat value
    let bytes := write32 bytes slot dataOff
    let bytes := write32 bytes (slot + 4) (BitVec.ofNat 32 value.length)
    some (idx, { v with freePtr := dataOff, numSlots := idx + 1, bytes := bytes })
  else none

def slotLength (v : ValuePage) (idx : Nat) : BitVec 32 := read32 v.bytes (slotOffset idx + 4)

/-- The part of `Get` that works on the page; the outer `none` stands for an
access outside the page. -/
def get (v : ValuePage) (idx : BitVec 32) : Option (Option Bytes) :=
  if idx.toNat < v.numSlots.toNat then
    if InPage (slotOffset idx.toNat) valueSlotSize then
      let offset := (read32 v.bytes (slotOffset idx.toNat)).toNat
      let length := v.slotLength idx.toNat
      if length = kTombstone then some none
      else if InPage offset length.toNat then some (some (slice v.bytes offset length.toNat))
      else none
    else none
  else some none

def delete (v : ValuePage) (idx : BitVec 32) : Option (Bool × ValuePage) :=
  if idx.toNat < v.numSlots.toNat then
    if InPage (slotOffset idx.toNat) valueSlotSize then
      if v.slotLength idx.toNat = kTombstone then some (false, v)
      else some (true, { v with bytes := write32 v.bytes (slotOffset idx.toNat + 4) kTombstone })
    else none
  else some (false, v)

/-- The part of `Update` that overwrites a value in place, if it is live and the
new bytes fit its length. -/
def update (v : ValuePage) (idx : BitVec 32) (value : Bytes) : Option (Option ValuePage) :=
  if idx.toNat < v.numSlots.toNat then
    if InPage (slotOffset idx.toNat) valueSlotSize then
      let length := v.slotLength idx.toNat
      if length ≠ kTombstone ∧ value.length ≤ length.toNat then
        let offset := (read32 v.bytes (slotOffset idx.toNat)).toNat
        if InPage offset value.length then
          let bytes := overwrite v.bytes offset value
          let bytes := write32 bytes (slotOffset idx.toNat + 4) (BitVec.ofNat 32 value.length)
          some (some { v with bytes := bytes })
        else none
      else some none
    else none
  else some none

end ValuePage

end DBPlayground.Storage
