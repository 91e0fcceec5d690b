import DBPlayground.Cloud.SnapshotLoader

namespace DBPlayground.CloudSystem

open ByteReader Table Wire Records Keys WalCodec Program Session Store StateStore TableWriter WalIndexer
  SnapshotLoader

/-- One table and the objects that work on it. Every object can be used as a
writer, as an indexer and as a snapshot loader, so any number of each is
covered. `accepts` says which calls clients make, and `allow` which answers of
the stores are considered. -/
structure Params (ι : Type) where
  table : TableDescriptor
  hashes : Hashes
  format : DataFormat
  attempts : ι → Nat
  accepts : ι → Call → Bool
  allow : ι → Call → (o : Op) → World ι → Ans o → Bool

variable {ι : Type} [DecidableEq ι]

def clientCall : Call → Bool
  | .fence _ _ | .publish _ _ _ => false
  | _ => true

def method (P : Params ι) (i : ι) : Call → Step
  | .start => start P.table (P.attempts i)
  | .fence seq epoch => fence P.table P.hashes seq epoch
  | .importBatch batch => importBatch P.table P.hashes batch
  | .publish _ seq epoch => publish P.table (P.attempts i) seq epoch
  | .index => index P.table P.hashes P.format (P.attempts i)
  | .load probeLimit => loadSnapshot P.table P.hashes probeLimit

def service (P : Params ι) : Service ι Op Ans (World ι) Env Call Reply where
  code i c := Prog.bind (method P i c) fun
    | .ok o => .ret o
    | .error e => .ret (.done (.threw e))
  entry i c := clientCall c && P.accepts i c
  enter i c w := w.enter i c
  perform := perform
  allow := P.allow

def initial : Config ι Op Ans (World ι) Call Reply := ⟨World.empty, fun _ => .idle⟩

def Reachable (P : Params ι) (x : Config ι Op Ans (World ι) Call Reply) : Prop :=
  Steps (service P) initial x

end DBPlayground.CloudSystem
