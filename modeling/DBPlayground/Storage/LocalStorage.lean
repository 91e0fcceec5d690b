import DBPlayground.Cloud.Store
import DBPlayground.Lib.Machine

namespace DBPlayground.Storage

open ByteReader Table Program Store DBPlayground.Session

inductive LinkAnswer
  | linked
  | eexist
  | failed
  deriving DecidableEq

/-- The system calls that `LocalStorage` makes. A file descriptor is named by the number of
the file it was opened on. -/
inductive Syscall
  | createDirectories (full : String)
  | mkstemp (full : String)
  | write (fd : Nat) (data : Bytes)
  | fsync (fd : Nat)
  | link (name full : String)
  | close (fd : Nat)
  | unlink (name : String)

namespace Syscall

abbrev Ans : Syscall → Type
  | .createDirectories _ => Except Exn Unit
  | .mkstemp _ => Option (String × Nat)
  | .write _ _ => Int
  | .link _ _ => LinkAnswer
  | .fsync _ | .close _ | .unlink _ => Bool

end Syscall

namespace LocalStorage

abbrev SysM := Method Syscall Syscall.Ans Exn

def sys (o : Syscall) : SysM o.Ans := Machine.perform o

/-- `fs::create_directories` of the directory of `full`, which throws. -/
def createDirectories (full : String) : SysM Unit := do
  match ← sys (.createDirectories full) with
  | .ok _ => pure ()
  | .error e => throw e

def mkstemp (full : String) : SysM (Option (String × Nat)) := sys (.mkstemp full)

def write (fd : Nat) (data : Bytes) : SysM Int := sys (.write fd data)

def fsync (fd : Nat) : SysM Bool := sys (.fsync fd)

def link (name full : String) : SysM LinkAnswer := sys (.link name full)

def close (fd : Nat) : SysM Bool := sys (.close fd)

def unlink (name : String) : SysM Bool := sys (.unlink name)

/-- The loop that writes what is left. A round that goes on writes a byte at least. -/
def writeAll (fd : Nat) (full : String) : (rounds : Nat) → Bytes → SysM Unit
  | 0, _ => pure ()
  | rounds + 1, rest =>
    if rest = [] then pure ()
    else do
      let n ← write fd rest
      if n ≤ 0 then throw (.runtimeError ("LocalStorage: write failed for " ++ full))
      writeAll fd full rounds (rest.drop n.toNat)

def publish (fd : Nat) (name full : String) (bytes : Bytes) : SysM CreateFileResult := do
  writeAll fd full bytes.length bytes
  if !(← fsync fd) then throw (.runtimeError ("LocalStorage: fsync failed for " ++ full))
  match ← link name full with
  | .linked =>
    let _ ← close fd
    let _ ← unlink name
    pure .created
  | .eexist =>
    let _ ← close fd
    let _ ← unlink name
    pure .alreadyExists
  | .failed => throw (.runtimeError ("LocalStorage: link failed for " ++ full))

def createIfAbsent (full : String) (bytes : Bytes) : SysM CreateFileResult := do
  createDirectories full
  match ← mkstemp full with
  | none => throw (.runtimeError ("LocalStorage: mkstemp failed for " ++ full))
  | some (name, fd) =>
    tryCatch (publish fd name full bytes) fun e => do
      let _ ← close fd
      let _ ← unlink name
      throw e

structure Call where
  full : String
  bytes : Bytes

abbrev Reply := Except Exn CreateFileResult

def code (c : Call) : Prog Syscall Syscall.Ans (Outcome Call Reply) :=
  (createIfAbsent c.full c.bytes).run.bind fun r => .ret (.done r)

def tempName (full suffix : String) : String := full ++ ".tmp." ++ suffix

def isTemp (name : String) : Bool :=
  6 ≤ name.toList.length ∧ ".tmp.".toList.isSuffixOf (name.toList.take (name.toList.length - 6))

structure Event (ι : Type) where
  client : ι
  path : String
  bytes : Bytes
  result : CreateFileResult
  deriving DecidableEq

/-- A directory: what the names refer to, and the bytes of the files. The other fields are
of the proof only: who may still write to a file, who made a temporary name, when the calls
took effect, and how many had when the call of a client began. -/
structure Directory (ι : Type) where
  names : String → Option Nat
  content : Nat → Bytes
  next : Nat
  owner : Nat → Option ι
  holder : String → Option ι
  log : List (Event ι)
  mark : ι → Nat

/-- What the system chooses: whether a call succeeds, the letters of a temporary name, how
many bytes are written, and the text of a `filesystem_error`. -/
structure Choice where
  ok : Bool
  suffix : String := ""
  count : Nat := 0
  what : String := ""

variable {ι : Type}

namespace Directory

def empty : Directory ι := ⟨fun _ => none, fun _ => [], 0, fun _ => none, fun _ => none, [], fun _ => 0⟩

def record (s : Directory ι) (i : ι) (c : Call) (r : CreateFileResult) : Directory ι :=
  { s with log := s.log ++ [⟨i, c.full, c.bytes, r⟩] }

def create (s : Directory ι) (i : ι) (name : String) : Directory ι :=
  { s with
    names := Function.update s.names name (some s.next)
    content := Function.update s.content s.next []
    next := s.next + 1
    owner := Function.update s.owner s.next (some i)
    holder := Function.update s.holder name (some i) }

def append (s : Directory ι) (fd : Nat) (data : Bytes) : Directory ι :=
  { s with content := Function.update s.content fd (s.content fd ++ data) }

/-- Another name for a file. Nobody writes to it from now on. -/
def addName (s : Directory ι) (full : String) (fd : Nat) : Directory ι :=
  { s with names := Function.update s.names full (some fd), owner := Function.update s.owner fd none }

def removeName (s : Directory ι) (name : String) : Directory ι :=
  { s with names := Function.update s.names name none, holder := Function.update s.holder name none }

def perform (i : ι) (c : Call) (e : Choice) : (o : Syscall) → Directory ι → Option (o.Ans × Directory ι)
  | .createDirectories _, s => some (if e.ok then .ok () else .error (.runtimeError e.what), s)
  | .mkstemp full, s =>
    let name := tempName full e.suffix
    if e.ok then
      if e.suffix.length = 6 ∧ s.names name = none then
        some (some (name, s.next), s.create i name)
      else none
    else some (none, s)
  | .write fd data, s =>
    if e.ok then
      if e.count ≤ data.length then
        some (e.count, s.append fd (data.take e.count))
      else none
    else some (-1, s)
  | .fsync _, s | .close _, s => some (e.ok, s)
  | .link name full, s =>
    if e.ok then
      match s.names full with
      | some _ => some (.eexist, s.record i c .alreadyExists)
      | none =>
        match s.names name with
        | some fd => some (.linked, (s.addName full fd).record i c .created)
        | none => some (.failed, s)
    else some (.failed, s)
  | .unlink name, s => some (e.ok, if e.ok then s.removeName name else s)

end Directory

/-- Clients of one directory, whose paths are no names of temporary files. -/
def service [DecidableEq ι] : Service ι Syscall Syscall.Ans (Directory ι) Choice Call Reply where
  code _ := code
  entry _ c := !isTemp c.full
  enter i _ s := { s with mark := Function.update s.mark i s.log.length }
  perform := Directory.perform
  allow _ _ _ _ _ := true

def start : Config ι Syscall Syscall.Ans (Directory ι) Call Reply := ⟨.empty, fun _ => .idle⟩

/-- The files of a store that creates them in one step. -/
def Event.apply (e : Event ι) (files : String → Option Bytes) : Option (String → Option Bytes) :=
  match e.result, files e.path with
  | .created, none => some (Function.update files e.path (some e.bytes))
  | .alreadyExists, some _ => some files
  | _, _ => none

def replay (log : List (Event ι)) : Option (String → Option Bytes) :=
  log.foldlM (fun files e => e.apply files) fun _ => none

def Directory.moments [DecidableEq ι] (s : Directory ι) (i : ι) : List (Event ι) :=
  (s.log.drop (s.mark i)).filter (·.client = i)

end LocalStorage

end DBPlayground.Storage
