import LSMIO.Library.Progress
import LSMIO.PoolThreads

namespace LSMIO

/-- Where the worker stands in `workerLoop`: before the lock and the test of its wait, asleep on
`_cv`, past the swap with these files of `to_close` still ahead, or returned. -/
inductive CloserPhase
  | testing
  | asleep
  | closing (toClose : List (Option PoolFile))
  | returned
  deriving DecidableEq

/-- Where the destructor stands: not called, past the locked section that sets the flag, past the
notification, past the join, or done. -/
inductive CloserExit
  | running
  | flagged
  | joining
  | remaining
  | destroyed
  deriving DecidableEq

/-- The closer with its threads. A file is `none` where the pointer handed over was null. `closed`
are the files whose stream has been closed, oldest first. -/
structure FileCloser where
  batchSize : Nat
  pending : List (Option PoolFile)
  worker : CloserPhase
  shutdown : Bool
  exit : CloserExit
  closed : List PoolFile

/-- The steps of the threads. `scheduleClose` may come from any thread until the join is over. -/
inductive CloserEvent
  | scheduleClose (file : Option PoolFile)
  | test
  | close
  | loop
  | spurious
  | destroy
  | notify
  | join
  | closeRemaining
  | destroyed
  deriving DecidableEq

/-- The call of `close` that a file gets: none for a null pointer or a stream that is not open. -/
def closable (file : Option PoolFile) : Option PoolFile := file.filter (·.isOpen)

namespace FileCloser

/-- The constructor. -/
def start (batchSize : Nat) : FileCloser :=
  { batchSize := batchSize
    pending := []
    worker := .testing
    shutdown := false
    exit := .running
    closed := [] }

/-- The predicate of the wait. -/
def due (s : FileCloser) : Bool := decide (s.batchSize ≤ s.pending.length) || s.shutdown

/-- `_cv.notify_one`: a worker that sleeps is about to test again. -/
def notifyWorker (s : FileCloser) : FileCloser := if s.worker = .asleep then { s with worker := .testing } else s

def step (s : FileCloser) : CloserEvent → Option FileCloser
  | .scheduleClose file =>
    if s.exit = .running ∨ s.exit = .flagged ∨ s.exit = .joining then
      let s := { s with pending := s.pending ++ [file] }
      some (if s.due then s.notifyWorker else s)
    else none
  | .test =>
    if s.worker = .testing then
      if s.due then
        if s.shutdown && s.pending.isEmpty then some { s with worker := .returned }
        else some { s with worker := .closing s.pending, pending := [] }
      else some { s with worker := .asleep }
    else none
  | .close => match s.worker with
    | .closing (file :: rest) => some { s with worker := .closing rest, closed := s.closed ++ (closable file).toList }
    | _ => none
  | .loop => if s.worker = .closing [] then some { s with worker := .testing } else none
  | .spurious => if s.worker = .asleep then some { s with worker := .testing } else none
  | .destroy => if s.exit = .running then some { s with shutdown := true, exit := .flagged } else none
  | .notify => if s.exit = .flagged then some { s.notifyWorker with exit := .joining } else none
  | .join => if s.exit = .joining ∧ s.worker = .returned then some { s with exit := .remaining } else none
  | .closeRemaining => match s.pending with
    | file :: rest =>
      if s.exit = .remaining then some
        { s with pending := rest, closed := s.closed ++ (closable file).toList } else none
    | [] => none
  | .destroyed => if s.exit = .remaining ∧ s.pending = [] then some { s with exit := .destroyed } else none

/-- What each step finds and what it leaves. -/
inductive Step (s : FileCloser) : CloserEvent → FileCloser → Prop
  | queued {file : Option PoolFile} (before : s.exit = .running ∨ s.exit = .flagged ∨ s.exit = .joining)
      (few : s.pending.length + 1 < s.batchSize) (up : s.shutdown = false) :
      Step s (.scheduleClose file) { s with pending := s.pending ++ [file] }
  | notified {file : Option PoolFile} (before : s.exit = .running ∨ s.exit = .flagged ∨ s.exit = .joining)
      (due : s.batchSize ≤ s.pending.length + 1 ∨ s.shutdown = true) :
      Step s (.scheduleClose file) (notifyWorker { s with pending := s.pending ++ [file] })
  | returned (testing : s.worker = .testing) (down : s.shutdown = true) (nothing : s.pending = []) :
      Step s .test { s with worker := .returned }
  | swapped (testing : s.worker = .testing) (due : s.batchSize ≤ s.pending.length ∨ s.shutdown = true)
      (more : s.shutdown = true → s.pending ≠ []) :
      Step s .test { s with worker := .closing s.pending, pending := [] }
  | slept (testing : s.worker = .testing) (few : s.pending.length < s.batchSize) (up : s.shutdown = false) :
      Step s .test { s with worker := .asleep }
  | closed {file : Option PoolFile} {rest : List (Option PoolFile)} (closing : s.worker = .closing (file :: rest)) :
      Step s .close { s with worker := .closing rest, closed := s.closed ++ (closable file).toList }
  | looped (closing : s.worker = .closing []) : Step s .loop { s with worker := .testing }
  | woken (asleep : s.worker = .asleep) : Step s .spurious { s with worker := .testing }
  | flagged (before : s.exit = .running) : Step s .destroy { s with shutdown := true, exit := .flagged }
  | joining (before : s.exit = .flagged) : Step s .notify { s.notifyWorker with exit := .joining }
  | joined (before : s.exit = .joining) (returned : s.worker = .returned) : Step s .join { s with exit := .remaining }
  | remaining {file : Option PoolFile} {rest : List (Option PoolFile)} (before : s.exit = .remaining)
      (front : s.pending = file :: rest) :
      Step s .closeRemaining { s with pending := rest, closed := s.closed ++ (closable file).toList }
  | destroyed (before : s.exit = .remaining) (nothing : s.pending = []) :
    Step s .destroyed { s with exit := .destroyed }

theorem due_iff (s : FileCloser) : s.due = true ↔ s.batchSize ≤ s.pending.length ∨ s.shutdown = true := by
  simp [due]

theorem due_eq_false_iff (s : FileCloser) : s.due = false ↔ s.pending.length < s.batchSize ∧ s.shutdown = false := by
  simp [due]

theorem step_cases {s s' : FileCloser} {e : CloserEvent} (taken : s.step e = some s') : Step s e s' := by
  cases e with
  | scheduleClose file =>
    simp only [step] at taken
    split at taken
    next before =>
      cases taken
      split
      next due => exact .notified before (by simpa [due_iff] using due)
      next notDue =>
        have few := (due_eq_false_iff _).mp (Bool.not_eq_true _ ▸ notDue)
        exact .queued before (by simpa using few.1) few.2
    next => cases taken
  | test =>
    simp only [step] at taken
    split at taken
    next testing =>
      split at taken
      next due =>
        split at taken
        next last =>
          cases taken
          simp only [Bool.and_eq_true, List.isEmpty_iff] at last
          exact .returned testing last.1 last.2
        next more =>
          cases taken
          simp only [Bool.and_eq_true, List.isEmpty_iff, not_and] at more
          exact .swapped testing ((due_iff s).mp due) more
      next notDue =>
        cases taken
        have few := (due_eq_false_iff s).mp (Bool.not_eq_true _ ▸ notDue)
        exact .slept testing few.1 few.2
    next => cases taken
  | close =>
    simp only [step] at taken
    split at taken
    next file rest closing =>
      cases taken
      exact .closed closing
    next => cases taken
  | loop =>
    simp only [step] at taken
    split at taken
    next closing =>
      cases taken
      exact .looped closing
    next => cases taken
  | spurious =>
    simp only [step] at taken
    split at taken
    next asleep =>
      cases taken
      exact .woken asleep
    next => cases taken
  | destroy =>
    simp only [step] at taken
    split at taken
    next before =>
      cases taken
      exact .flagged before
    next => cases taken
  | notify =>
    simp only [step] at taken
    split at taken
    next before =>
      cases taken
      exact .joining before
    next => cases taken
  | join =>
    simp only [step] at taken
    split at taken
    next ready =>
      cases taken
      exact .joined ready.1 ready.2
    next => cases taken
  | closeRemaining =>
    simp only [step] at taken
    split at taken
    next file rest front =>
      split at taken
      next before =>
        cases taken
        exact .remaining before front
      next => cases taken
    next => cases taken
  | destroyed =>
    simp only [step] at taken
    split at taken
    next ready =>
      cases taken
      exact .destroyed ready.1 ready.2
    next => cases taken

@[simp] theorem notifyWorker_pending (s : FileCloser) : s.notifyWorker.pending = s.pending := by
  unfold notifyWorker
  split <;> rfl

@[simp] theorem notifyWorker_batchSize (s : FileCloser) : s.notifyWorker.batchSize = s.batchSize := by
  unfold notifyWorker
  split <;> rfl

@[simp] theorem notifyWorker_shutdown (s : FileCloser) : s.notifyWorker.shutdown = s.shutdown := by
  unfold notifyWorker
  split <;> rfl

@[simp] theorem notifyWorker_exit (s : FileCloser) : s.notifyWorker.exit = s.exit := by
  unfold notifyWorker
  split <;> rfl

@[simp] theorem notifyWorker_closed (s : FileCloser) : s.notifyWorker.closed = s.closed := by
  unfold notifyWorker
  split <;> rfl

theorem notifyWorker_worker (s : FileCloser) :
    s.notifyWorker.worker = s.worker ∧ s.worker ≠ .asleep ∨ s.notifyWorker.worker = .testing ∧ s.worker = .asleep := by
  unfold notifyWorker
  split
  next asleep => exact .inr ⟨rfl, asleep⟩
  next awake => exact .inl ⟨rfl, awake⟩

end FileCloser

end LSMIO
