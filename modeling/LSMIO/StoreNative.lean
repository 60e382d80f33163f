import LSMIO.Library.Runs
import LSMIO.Recovery

namespace LSMIO

/-- The fields of `gConfigLSMIO` the native store reads. -/
structure LSMIOConfig where
  writeBufferSize : Int
  writeBufferNumber : Int
  filePoolSize : Int
  preAllocate : Bool

structure Config where
  memtableMaxSizeBytes : Nat
  maxImmutableMemtables : Nat
  filePoolSize : Nat
  preAllocBytes : Nat

/-- The limits the constructor sets; the pool size is converted to `size_t` unchecked. -/
def Config.ofGlobal (g : LSMIOConfig) : Config :=
  let maxSize := if 0 < g.writeBufferSize then g.writeBufferSize.toNat else 32 * 1024 * 1024
  { memtableMaxSizeBytes := maxSize
    maxImmutableMemtables := if 0 < g.writeBufferNumber then g.writeBufferNumber.toNat else 4
    filePoolSize := (g.filePoolSize % 2 ^ 64).toNat
    preAllocBytes := if g.preAllocate then maxSize else 0 }

/-- Client threads. -/
abbrev Tid := Nat

inductive Call
  | put (key : Key) (value : Value) (flush : Bool)
  | del (key : Key) (flush : Bool)
  | get (key : Key)
  | writeBarrier
  deriving DecidableEq

/-- The entry `_batchMutation` adds: a deletion stores the tombstone. -/
def Call.mutation : Call → Option (Key × Value)
  | .put key value _ => some (key, value)
  | .del key _ => some (key, MEMTABLE_TOMBSTONE)
  | _ => none

inductive Result
  | bool (b : Bool)
  | value (v : Option Value)
  deriving DecidableEq

/-- Where a client thread stands. -/
inductive Pc
  | idle
  | entered (c : Call)
  | backpressure (c : Call)
  | missed (key : Key)
  | waiting
  deriving DecidableEq

/-- The progress of `FlushMemtableToL0` on the memtable taken from the queue. -/
inductive Hand
  | idle
  | taken (m : Memtable)
  | acquired (m : Memtable) (id : Nat)
  | written (m : Memtable) (id : Nat) (index : L0Index)
  | finished

/-- The progress of `close`. -/
inductive ClosePc
  | running
  | joining (t : Tid)
  | draining (t : Tid)
  | closed
  deriving DecidableEq

structure State where
  dir : Directory
  pool : FilePool
  head : List L0Index
  active : Memtable
  immutables : List Memtable
  hand : Hand
  flushInProgress : Bool
  flusherExited : Bool
  closer : ClosePc
  pcs : Tid → Pc

/-- The steps of a flush, with the outcomes of its I/O. -/
inductive FlushEvent
  | pop
  | skip
  | acquire (good : Bool)
  | write (fault : Option (Nat × Nat))
  | publish
  | threw
  | finish
  | exit
  deriving DecidableEq

inductive Event
  | call (t : Tid) (c : Call)
  | backpressure (t : Tid)
  | searched (t : Tid)
  | pushed (t : Tid)
  | ret (t : Tid) (c : Call) (r : Result)
  | flush (e : FlushEvent)
  | pool (e : PoolEvent)
  | close (t : Tid)
  | joined
  | drain
  | closed
  deriving DecidableEq

namespace State

/-- The constructor: recovery of the directory, and no thread inside a call. -/
def openStore (cfg : Config) (dir : Directory) (entries : List (FileName × Bytes)) : State :=
  let (head, startId) := recoverState entries
  { dir := dir
    pool := FilePool.new cfg.filePoolSize startId cfg.preAllocBytes
    head := head
    active := Memtable.new
    immutables := []
    hand := .idle
    flushInProgress := false
    flusherExited := false
    closer := .running
    pcs := fun _ => .idle }

def setPc (s : State) (t : Tid) (pc : Pc) : State := { s with pcs := Function.update s.pcs t pc }

/-- `close` has not yet taken the active memtable away. -/
def live (s : State) : Bool := match s.closer with
  | .running | .joining _ => true
  | .draining _ | .closed => false

def needsRotation (cfg : Config) (s : State) (key : Key) (value : Value) : Bool :=
  s.active.sizeBytes + (key.length + value.length) > cfg.memtableMaxSizeBytes && s.active.sizeBytes > 0

/-- The active memtable goes to the back of the queue. -/
def rotate (s : State) : State := { s with immutables := s.immutables ++ [s.active], active := Memtable.new }

def addActive (s : State) (key : Key) (value : Value) : State := { s with active := s.active.add key value }

/-- The critical section of `_batchMutation` up to its return, when the thread does not have to wait. -/
def batchMutation (cfg : Config) (s : State) (key : Key) (value : Value) : Option State :=
  if s.needsRotation cfg key value then
    if cfg.maxImmutableMemtables ≤ s.immutables.length then none else some (s.rotate.addActive key value)
  else some (s.addActive key value)

/-- The rest of `_batchMutation` after the wait for backpressure: the active
memtable of that moment is rotated, whatever it holds. -/
def batchMutationWoken (cfg : Config) (s : State) (key : Key) (value : Value) : Option State :=
  if s.immutables.length < cfg.maxImmutableMemtables then some (s.rotate.addActive key value) else none

/-- The memtable part of `get`: the active one, then the queue from its back. -/
def memtableGet (s : State) (key : Key) : Option Value :=
  (s.active :: s.immutables.reverse).findSome? fun m => m.get key

def sstableGet (s : State) (key : Key) : Option Value := SSTableManager.get (readValueAt s.dir) s.head key

/-- `get` with no step of another thread between its two parts. -/
def get (s : State) (key : Key) : Option Value := visible ((s.memtableGet key).or (s.sstableGet key))

/-- `getPrefix`: the pairs appended, in key order, and the returned flag. -/
def getPrefix (s : State) (prefixKey : Key) : List (Key × Value) × Bool :=
  let acc := s.active.scan prefixKey (∅, ∅)
  let acc := s.immutables.reverse.foldl (fun acc m => m.scan prefixKey acc) acc
  let acc := (SSTableManager.scan (readValueAt s.dir) s.head prefixKey acc).1
  (acc.1.toList.filter fun entry => entry.1 ∉ acc.2, !acc.1.toList.isEmpty)

/-- One step of a flush, by the flush thread or, while `close` drains the queue, by the closing thread. -/
def stepFlush (s : State) : FlushEvent → Option State
  | .pop => match s.hand, s.immutables with
    | .idle, m :: rest =>
      if s.live && !s.flusherExited then
        some { s with hand := .taken m, immutables := rest, flushInProgress := true }
      else none
    | _, _ => none
  | .skip => match s.hand with
    | .taken m => if m.empty then some { s with hand := .finished } else none
    | _ => none
  | .acquire good => match s.hand, s.pool.acquire with
    | .taken m, some (id, pool) =>
      if m.empty then none
      else some { s with pool := pool, hand := if good then .acquired m id else .finished }
    | _, _ => none
  | .write fault => match s.hand with
    | .acquired m id =>
      let name := fileName id
      let (stream, offsets) := writeRecords fault (OStream.opened (s.dir[name]?.getD [])) m.data
      some { s with dir := s.dir.insert name stream.content, hand := .written m id (L0Index.build name offsets) }
    | _ => none
  | .publish => match s.hand with
    | .written _ _ index => some { s with head := index :: s.head, hand := .finished }
    | _ => none
  | .threw => match s.hand with
    | .taken _ | .acquired _ _ | .written _ _ _ => if s.live then some { s with hand := .finished } else none
    | _ => none
  | .finish => match s.hand with
    | .finished => some { s with hand := .idle, flushInProgress := false }
    | _ => none
  | .exit => match s.hand, s.immutables, s.closer with
    | .idle, [], .joining _ => some { s with flusherExited := true }
    | _, _, _ => none

/-- The return of a call with its result. -/
def stepRet (cfg : Config) (s : State) (t : Tid) (c : Call) (r : Result) : Option State :=
  match c.mutation with
  | some (key, value) =>
    if r = .bool true then
      if s.pcs t = .entered c then (s.batchMutation cfg key value).map (·.setPc t .idle)
      else if s.pcs t = .backpressure c then (s.batchMutationWoken cfg key value).map (·.setPc t .idle)
      else none
    else none
  | none => match c with
    | .get key =>
      if s.pcs t = .entered c then
        match s.memtableGet key with
        | some stored => if r = .value (visible (some stored)) then some (s.setPc t .idle) else none
        | none => none
      else if s.pcs t = .missed key ∧ r = .value (visible (s.sstableGet key)) then some (s.setPc t .idle)
      else none
    | _ =>
      if s.pcs t = .waiting ∧ c = .writeBarrier ∧ r = .bool true ∧ s.immutables.isEmpty ∧ !s.flushInProgress then
        some (s.setPc t .idle)
      else none

/-- One step of the store. Critical sections of clients need the store not to be past the join of `close`. -/
def step (cfg : Config) (s : State) : Event → Option State
  | .call t c => if s.pcs t = .idle ∧ s.closer = .running then some (s.setPc t (.entered c)) else none
  | .backpressure t => match s.pcs t with
    | .entered c => match c.mutation with
      | some (key, value) =>
        if s.live ∧ s.needsRotation cfg key value ∧ cfg.maxImmutableMemtables ≤ s.immutables.length then
          some (s.setPc t (.backpressure c))
        else none
      | none => none
    | _ => none
  | .searched t => match s.pcs t with
    | .entered (.get key) => if s.live ∧ s.memtableGet key = none then some (s.setPc t (.missed key)) else none
    | _ => none
  | .pushed t =>
    if s.live ∧ s.pcs t = .entered .writeBarrier then
      some ((if s.active.empty then s else s.rotate).setPc t .waiting)
    else none
  | .ret t c r => if s.live then s.stepRet cfg t c r else none
  | .flush e => s.stepFlush e
  | .pool e =>
    if s.closer = .closed then none else (s.pool.replenish s.dir e).map fun r => { s with pool := r.1, dir := r.2 }
  | .close t => if s.closer = .running ∧ s.pcs t = .idle then some { s with closer := .joining t } else none
  | .joined => match s.closer with
    | .joining t =>
      if s.flusherExited then
        some { (if s.active.empty then s else s.rotate) with closer := .draining t }
      else none
    | _ => none
  | .drain => match s.closer, s.hand, s.immutables with
    | .draining _, .idle, m :: rest => some { s with hand := .taken m, immutables := rest }
    | _, _, _ => none
  | .closed => match s.closer, s.hand, s.immutables with
    | .draining _, .idle, [] => some { s with closer := .closed }
    | _, _, _ => none

end State

end LSMIO
