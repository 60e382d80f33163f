import LSMIO.StoreLDB

namespace LSMIO

/-- What `new` returns. -/
abbrev Address := Nat

inductive LDBCall
  | mutation (m : Mutation) (flush : Bool)
  | readBarrier
  | writeBarrier
  deriving DecidableEq

/-- What a call goes on with after its `stopBatch`. -/
inductive AfterStop
  | ret
  | direct (m : Mutation)
  | append (m : Mutation)
  deriving DecidableEq

/-- What a thread is about to do. -/
inductive LDBPc
  | idle
  | readSize (m : Mutation) (flush : Bool)
  | readBytes (m : Mutation) (flush : Bool) (futureSize : Nat)
  | test (after : AfterStop) (full : Bool)
  | capture (after : AfterStop)
  | lock (after : AfterStop) (oldBatch : Option Address)
  | write (after : AfterStop) (oldBatch : Option Address)
  | delete (after : AfterStop) (oldBatch : Option Address)
  | direct (m : Mutation)
  | append (m : Mutation)
  | countSize (m : Mutation)
  | countBytes (m : Mutation)
  deriving DecidableEq

def AfterStop.pc : AfterStop → LDBPc
  | .ret => .idle
  | .direct m => .direct m
  | .append m => .append m

def LDBCall.pc : LDBCall → LDBPc
  | .mutation m flush => .readSize m flush
  | .readBarrier | .writeBarrier => .capture .ret

/-- What LevelDB is given: the contents of the `n`-th batch made, or a mutation on its own. -/
inductive DbWrite
  | batch (n : Nat) (mutations : List Mutation)
  | direct (m : Mutation)
  deriving DecidableEq

def DbWrite.mutations : DbWrite → List Mutation
  | .batch _ ms => ms
  | .direct m => [m]

/-- The LevelDB store under threads. The batches are numbered in the order in which they
are made; `heap` has the number of the batch last made at an address, also after its deletion. -/
structure SharedLDB (Thread : Type*) where
  maxBatchSize : Int
  maxBatchBytes : Int
  batch : Option Address
  batchSize : Nat
  batchBytes : Nat
  heap : Address → Option Nat
  batches : List (List Mutation)
  freed : List Nat
  db : List DbWrite
  pcs : Thread → LDBPc

/-- A call begins, a thread takes its next step, or its next step is the locked append.
The address is that of a new batch, if there is one. -/
inductive LDBStep (Thread : Type*)
  | call (t : Thread) (c : LDBCall)
  | run (t : Thread)
  | append (t : Thread) (m : Mutation) (address : Address)
  deriving DecidableEq

namespace SharedLDB

variable {Thread : Type*}

def openStore (maxBatchSize maxBatchBytes : Int) : SharedLDB Thread :=
  { maxBatchSize := maxBatchSize
    maxBatchBytes := maxBatchBytes
    batch := none
    batchSize := 0
    batchBytes := 0
    heap := fun _ => none
    batches := []
    freed := []
    db := []
    pcs := fun _ => .idle }

/-- The number of the batch that a pointer leads to. -/
def batchAt (s : SharedLDB Thread) (pointer : Option Address) : Option Nat := pointer.bind s.heap

/-- LevelDB takes a null pointer and writes nothing. -/
def writeBatch (s : SharedLDB Thread) (oldBatch : Option Address) : SharedLDB Thread := match s.batchAt oldBatch with
  | some n => { s with db := s.db ++ [DbWrite.batch n (s.batches[n]?.getD [])] }
  | none => s

def deleteBatch (s : SharedLDB Thread) (oldBatch : Option Address) : SharedLDB Thread := match s.batchAt oldBatch with
  | some n => { s with freed := s.freed ++ [n] }
  | none => s

/-- The locked append. An address is handed out again only after what stood there is deleted. -/
def appendBatch (s : SharedLDB Thread) (m : Mutation) (address : Address) : Option (SharedLDB Thread) :=
  match s.batch with
  | none =>
    if s.heap address = none ∨ ∃ n ∈ s.freed, s.heap address = some n then
      some { s with batch := some address
                    heap := Function.update s.heap address (some s.batches.length)
                    batches := s.batches ++ [[m]] }
    else none
  | some current => (s.heap current).map fun n => { s with batches := s.batches.modify n (· ++ [m]) }

variable [DecidableEq Thread]

def setPc (s : SharedLDB Thread) (t : Thread) (pc : LDBPc) : SharedLDB Thread :=
  { s with pcs := Function.update s.pcs t pc }

/-- The next step of a thread, but for the locked append. -/
def stepRun (s : SharedLDB Thread) (t : Thread) : Option (SharedLDB Thread) := match s.pcs t with
  | .readSize m flush => some (s.setPc t (.readBytes m flush ((s.batchSize + 1) % 2 ^ 32)))
  | .readBytes m flush futureSize =>
    let futureBytes := (s.batchBytes + m.value.length) % 2 ^ 32
    if flush ∨ StoreLDB.converted 64 s.maxBatchSize ≤ m.value.length then some (s.setPc t (.test (.direct m) true))
    else some (s.setPc t (.test (.append m) (StoreLDB.converted 32 s.maxBatchSize ≤ futureSize ||
      StoreLDB.converted 32 s.maxBatchBytes ≤ futureBytes)))
  | .test after full => some (s.setPc t (if s.batch.isSome ∧ full then .capture after else after.pc))
  | .capture after => some (s.setPc t (.lock after s.batch))
  | .lock after oldBatch =>
    if s.batch.isNone then some (s.setPc t after.pc)
    else some ({ s with batch := none, batchSize := 0, batchBytes := 0 }.setPc t (.write after oldBatch))
  | .write after oldBatch => some ((s.writeBatch oldBatch).setPc t (.delete after oldBatch))
  | .delete after oldBatch => some ((s.deleteBatch oldBatch).setPc t after.pc)
  | .direct m => some ({ s with db := s.db ++ [DbWrite.direct m] }.setPc t .idle)
  | .countSize m => some ({ s with batchSize := (s.batchSize + 1) % 2 ^ 32 }.setPc t (.countBytes m))
  | .countBytes m => some ({ s with batchBytes := (s.batchBytes + m.value.length) % 2 ^ 32 }.setPc t .idle)
  | .idle | .append _ => none

def step (s : SharedLDB Thread) : LDBStep Thread → Option (SharedLDB Thread)
  | .call t c => if s.pcs t = .idle then some (s.setPc t c.pc) else none
  | .run t => s.stepRun t
  | .append t m address =>
    if s.pcs t = .append m then (s.appendBatch m address).map (·.setPc t (.countSize m)) else none

end SharedLDB

end LSMIO
