import LSMIO.StoreNative

namespace LSMIO

/-- What the flush thread is about to do in `FlushWorkLoop`. It holds `_state_mutex` when it is
to test the predicate of its wait, when it is to fall asleep and when the wait is over. -/
inductive FlusherPc
  | lock
  | test
  | sleep
  | asleep
  | relock
  | proceed
  | flush
  | exited
  deriving DecidableEq

def FlusherPc.holdsMutex : FlusherPc → Bool
  | .test | .sleep | .proceed => true
  | .lock | .asleep | .relock | .flush | .exited => false

/-- The native store with the mutex and the wait of its flush thread: the client that holds the
mutex, whether it has rotated and is still to notify, and whether `close` has notified. -/
structure Monitor where
  store : State
  flusher : FlusherPc
  holder : Option Tid
  owes : Bool
  closeNotified : Bool

inductive MonitorEvent
  | call (t : Tid) (c : Call)
  | enter (t : Tid)
  | critical (e : Event)
  | notify (t : Tid)
  | leave (t : Tid)
  | lock
  | test
  | sleep
  | spurious
  | relock
  | proceed
  | finish
  | close (t : Tid)
  | closeNotify
  | store (e : Event)
  deriving DecidableEq

/-- The client whose critical section, or a part of it, the event is. -/
def Event.locker : Event → Option Tid
  | .backpressure t | .searched t | .pushed t | .ret t _ _ => some t
  | _ => none

namespace Monitor

/-- The constructor, with the flush thread started. -/
def openStore (cfg : Config) (dir : Directory) (entries : List (FileName × Bytes)) : Monitor :=
  { store := State.openStore cfg dir entries
    flusher := .lock
    holder := none
    owes := false
    closeNotified := false }

def mutexFree (s : Monitor) : Bool := s.holder.isNone && !s.flusher.holdsMutex

def shuttingDown (s : Monitor) : Bool := decide (s.store.closer ≠ .running)

/-- A thread outside of every call may begin one, also while `close` waits for the flush thread. -/
def mayCall (s : Monitor) (t : Tid) : Bool := match s.store.closer with
  | .running => true
  | .joining closing => decide (closing ≠ t)
  | .draining _ | .closed => false

/-- `_flush_cv.notify_one`: it wakes the flush thread if that is asleep already. -/
def notifyOne (s : Monitor) : Monitor :=
  { s with flusher := if s.flusher = .asleep then .relock else s.flusher }

/-- The steps of the store that do not wait for the monitor: those of the file pool, the
reading of tables, the work of a flush, and of `close` what follows its join. -/
def unguarded (s : Monitor) : Event → Bool
  | .pool _ | .drain | .closed => true
  | .joined => s.closeNotified && s.mutexFree
  | .flush .pop | .flush .exit => false
  | .flush .finish => decide (s.flusher = .exited)
  | .flush _ => true
  | .ret t (.get key) _ => decide (s.store.pcs t = .missed key)
  | _ => false

def step (cfg : Config) (s : Monitor) : MonitorEvent → Option Monitor
  | .call t c =>
    if s.store.pcs t = .idle ∧ s.holder ≠ some t ∧ s.mayCall t then
      some { s with store := s.store.setPc t (.entered c) }
    else none
  | .enter t => if s.mutexFree ∧ s.store.pcs t ≠ .idle then some { s with holder := some t } else none
  | .critical e =>
    if e.locker ≠ none ∧ e.locker = s.holder then
      (s.store.step cfg e).map fun store =>
        { s with store := store, owes := s.owes || decide (s.store.immutables.length < store.immutables.length) }
    else none
  | .notify t => if s.holder = some t ∧ s.owes then some { s.notifyOne with owes := false } else none
  | .leave t => if s.holder = some t ∧ !s.owes then some { s with holder := none } else none
  | .lock => if s.flusher = .lock ∧ s.mutexFree then some { s with flusher := .test } else none
  | .test =>
    if s.flusher = .test then
      some { s with flusher := if s.shuttingDown || !s.store.immutables.isEmpty then .proceed else .sleep }
    else none
  | .sleep => if s.flusher = .sleep then some { s with flusher := .asleep } else none
  | .spurious => if s.flusher = .asleep then some { s with flusher := .relock } else none
  | .relock => if s.flusher = .relock ∧ s.mutexFree then some { s with flusher := .test } else none
  | .proceed =>
    if s.flusher = .proceed then
      if s.shuttingDown && s.store.immutables.isEmpty then
        (s.store.step cfg (.flush .exit)).map fun store => { s with store := store, flusher := .exited }
      else (s.store.step cfg (.flush .pop)).map fun store => { s with store := store, flusher := .flush }
    else none
  | .finish =>
    if s.flusher = .flush ∧ s.mutexFree then
      (s.store.step cfg (.flush .finish)).map fun store => { s with store := store, flusher := .lock }
    else none
  | .close t =>
    if s.holder ≠ some t then (s.store.step cfg (.close t)).map fun store => { s with store := store } else none
  | .closeNotify =>
    if s.shuttingDown ∧ !s.closeNotified then some { s.notifyOne with closeNotified := true } else none
  | .store e => if s.unguarded e then (s.store.step cfg e).map fun store => { s with store := store } else none

end Monitor

end LSMIO
