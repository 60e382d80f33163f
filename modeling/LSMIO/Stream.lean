import LSMIO.Library.Runs
import LSMIO.Store

namespace LSMIO

inductive OpenFlag
  | app
  | ate
  | binary
  | input
  | output
  | trunc
  deriving DecidableEq

/-- `std::ios::openmode`. -/
abbrev OpenMode := Finset OpenFlag

/-- `std::ios::seekdir`. -/
inductive SeekDir
  | beg
  | cur
  | ending
  deriving DecidableEq

/-- The statics of `LSMIOStream`, with the manager as a map, and the path of each stream. -/
structure LSMIOStream (Id : Type*) where
  initialized : Bool
  lm : LSMIOStore.StoreMap
  fileMap : Std.ExtTreeMap Bytes Int
  filePath : Id → Bytes

/-- A call on a stream with what it returns: `ok` is false, and a read returns nothing, where it throws. -/
inductive StreamEvent (Id : Type*)
  | open (id : Id) (filename : Bytes) (mode : OpenMode)
  | read (id : Id) (n : Int) (ret : Option Bytes)
  | write (id : Id) (s : Bytes) (ok : Bool)
  | seekp (id : Id) (off : Int) (way : SeekDir) (ok : Bool)
  | close (id : Id)

namespace LSMIOStream

variable {Id : Type*}

def start (initialized : Bool) : LSMIOStream Id := ⟨initialized, ∅, ∅, fun _ => []⟩

/-- `std::to_string` of an offset. -/
def toString : Int → Bytes
  | .ofNat n => Decimal.digits n
  | .negSucc n => ascii "-" ++ Decimal.digits (n + 1)

/-- The value of `_fileMap[path]`, which is 0 for a new entry. -/
def offset (s : LSMIOStream Id) (path : Bytes) : Int := s.fileMap[path]?.getD 0

def genKey (path : Bytes) (off : Int) : Key := path ++ ascii "::" ++ toString off

/-- An offset moved on, as a 64-bit signed number. -/
def advance (off : Int) (n : Nat) : Int := (off + n).bmod (2 ^ 64)

/-- What a stream on a path reads at an offset: the value stored under the key of
the offset, which is empty if there is none, when it has the length asked for. -/
def readAt (s : LSMIOStream Id) (path : Bytes) (off n : Int) : Option Bytes :=
  if s.initialized then
    let value := (LSMIOStore.ofMap.get s.lm (genKey path off)).getD []
    if value.length ≠ n then none else some value
  else none

def read (s : LSMIOStream Id) (id : Id) (n : Int) : Option Bytes × LSMIOStream Id :=
  let path := s.filePath id
  match s.readAt path (s.offset path) n with
  | some value => (some value, { s with fileMap := s.fileMap.insert path (advance (s.offset path) value.length) })
  | none => (none, if s.initialized then { s with fileMap := s.fileMap.insert path (s.offset path) } else s)

def write (s : LSMIOStream Id) (id : Id) (value : Bytes) : Bool × LSMIOStream Id :=
  let path := s.filePath id
  if s.initialized then
    (true, { s with lm := (LSMIOStore.ofMap.put s.lm (genKey path (s.offset path)) value false).2
                    fileMap := s.fileMap.insert path (advance (s.offset path) value.length) })
  else (false, s)

def seekp (s : LSMIOStream Id) (id : Id) (off : Int) (way : SeekDir) : Bool × LSMIOStream Id :=
  if way = .beg then (true, { s with fileMap := s.fileMap.insert (s.filePath id) off }) else (false, s)

def tellp (s : LSMIOStream Id) (id : Id) : Int := s.offset (s.filePath id)

def close (s : LSMIOStream Id) (id : Id) : LSMIOStream Id := { s with fileMap := s.fileMap.insert (s.filePath id) 0 }

variable [DecidableEq Id]

/-- The mode is compared as a whole with `std::ios::trunc`. -/
def openFile (s : LSMIOStream Id) (id : Id) (filename : Bytes) (mode : OpenMode) : LSMIOStream Id :=
  { s with fileMap := if filename ∉ s.fileMap ∨ mode = {.trunc} then s.fileMap.insert filename 0 else s.fileMap
           filePath := Function.update s.filePath id filename }

/-- A call goes through when it returns what the event says. -/
def step (s : LSMIOStream Id) : StreamEvent Id → Option (LSMIOStream Id)
  | .open id filename mode => some (s.openFile id filename mode)
  | .read id n ret =>
    let (r, s') := s.read id n
    if r = ret then some s' else none
  | .write id value ok =>
    let (r, s') := s.write id value
    if r = ok then some s' else none
  | .seekp id off way ok =>
    let (r, s') := s.seekp id off way
    if r = ok then some s' else none
  | .close id => some (s.close id)

end LSMIOStream

end LSMIO
