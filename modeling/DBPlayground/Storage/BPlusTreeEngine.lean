import DBPlayground.Storage.KvCursor

namespace DBPlayground.Storage.BPlusTreeEngine

open ByteReader

structure Parts (m : Type → Type) where
  getValue : EncodedKey → m (Option RID)
  insert : EncodedKey → RID → m Bool
  remove : EncodedKey → m Unit
  put : Bytes → m RID
  get : RID → m (Option Bytes)
  delete : RID → m Bool

variable {m : Type → Type} [Monad m] [MonadExceptOf Abort m]

def badKey : Abort := .threw (.invalidArgument "BPlusTreeEngine: key must be a kKeyLen-byte encoded key")

/-- `ToKey`, with its exception. -/
def encode (key : Bytes) : m EncodedKey :=
  match toKey key with
  | some k => pure k
  | none => throw badKey

variable (E : Parts m)

def insert (key value : Bytes) : m Bool := do
  let ek ← encode key
  match ← E.getValue ek with
  | some _ => pure false
  | none =>
    let rid ← E.put value
    if ← E.insert ek rid then pure true
    else do
      let _ ← E.delete rid
      pure false

def get (key : Bytes) : m (Option Bytes) := do
  let ek ← encode key
  match ← E.getValue ek with
  | none => pure none
  | some rid => E.get rid

def remove (key : Bytes) : m Bool := do
  let ek ← encode key
  match ← E.getValue ek with
  | none => pure false
  | some rid =>
    E.remove ek
    let _ ← E.delete rid
    pure true

/-- The parts of the source: a tree and a tuple store over one pool. -/
def pooled (f : Fanout) (fuel : Nat) : Parts (PageM KvCursor.EnginePage) where
  getValue := BPlusTree.getValue f fuel
  insert := BPlusTree.insert f fuel
  remove := BPlusTree.remove f fuel
  put := TupleStore.put fuel
  get := TupleStore.get
  delete := TupleStore.delete

end DBPlayground.Storage.BPlusTreeEngine
