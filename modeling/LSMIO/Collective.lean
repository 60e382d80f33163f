import LSMIO.Library.Runs
import LSMIO.Manager

namespace LSMIO

/-- The operations that end in a `recvCommand` on a client rank. -/
def Command.waits : Command → Bool
  | .get _ => true
  | .put _ _ => false
  | .del _ => false
  | .metaGet _ => true
  | .metaGetAll => true
  | .metaPut _ _ => false
  | .readBarrier => true
  | .writeBarrier => true

namespace Collective

/-- Where a client rank stands: before its next operation, in `recvCommand`,
in the barrier of `close` with the end of line sent, or past the barrier. -/
inductive ClientPc
  | running (todo : List Command)
  | waiting (c : Command) (todo : List Command)
  | closing
  | passed
  deriving DecidableEq

/-- A client rank with its channels and its entries of `recvBuf` and `eolRanks`. -/
structure Link where
  client : ClientPc
  toServer : List Bytes
  recvBuf : Option Bytes
  toClient : List Bytes
  eol : Bool
  deriving DecidableEq

/-- Where the server loop stands: at the test of `eolRanks`, or in one of the
two passes over the ranks that a round makes. -/
inductive ServerPc (n : Nat)
  | testing
  | receiving (recv_i : Fin n)
  | handling (recv_i : Fin n)
  | exited
  deriving DecidableEq

/-- The aggregator's own thread: its operations with their `flush`, the join
of the server thread when none is left, the barrier. -/
inductive MainPc
  | running (todo : List (Command × Bool))
  | closing
  | passed
  deriving DecidableEq

/-- The aggregator and `n` clients; client `i` has rank `i + 1`. -/
structure State (σ : Type*) (n : Nat) where
  links : Fin n → Link
  server : ServerPc n
  loopCounter : Nat
  main : MainPc
  store : σ

inductive Event (n : Nat)
  | send (i : Fin n) (c : Command)
  | eol (i : Fin n)
  | reply (i : Fin n) (msg : Message)
  | loop
  | recv (i : Fin n)
  | handle (i : Fin n) (msg : Message)
  | own (c : Command) (flush : Bool)
  | join
  | barrier
  deriving DecidableEq

def rank {n : Nat} (i : Fin n) : Nat := i.val + 1

/-- The manager of the aggregator of `n` clients. -/
def manager (n : Nat) : LSMIOManager := ⟨true, AGGREGATION_RANK, n + 1⟩

namespace ServerPc

variable {n : Nat}

def afterRecv [NeZero n] (i : Fin n) : ServerPc n :=
  if h : i.val + 1 < n then .receiving ⟨i.val + 1, h⟩ else .handling 0

def afterHandle (i : Fin n) : ServerPc n :=
  if h : i.val + 1 < n then .handling ⟨i.val + 1, h⟩ else .testing

end ServerPc

namespace Link

def send (l : Link) (c : Command) (todo : List Command) : Link :=
  { l with client := if c.waits then .waiting c todo else .running todo
           toServer := l.toServer ++ [c.message.serialize] }

def sendEol (l : Link) : Link := { l with client := .closing, toServer := l.toServer ++ [eolMessage.serialize] }

def takeReply (l : Link) (todo : List Command) (rest : List Bytes) : Link :=
  { l with client := .running todo, toClient := rest }

def fill (l : Link) (buf : Bytes) (rest : List Bytes) : Link := { l with toServer := rest, recvBuf := some buf }

def answer (l : Link) (back : Option Message) : Link :=
  { l with recvBuf := none, toClient := l.toClient ++ (back.map Message.serialize).toList }

def markEol (l : Link) : Link := { l with recvBuf := none, eol := true }

end Link

namespace State

variable {σ : Type*} {n : Nat}

def setLink (s : State σ n) (i : Fin n) (l : Link) : State σ n := { s with links := Function.update s.links i l }

/-- Before any operation, and past the barrier at startup. -/
def init (scripts : Fin n → List Command) (own : List (Command × Bool)) (store : σ) : State σ n where
  links i := ⟨.running (scripts i), [], none, [], false⟩
  server := .testing
  loopCounter := 0
  main := .running own
  store := store

section Step

variable (store : LSMIOStore σ) (alwaysFlush : Bool)

/-- An operation of the aggregator on its store, which only a write or a barrier changes. -/
def ownOperation (m : LSMIOManager) (s : σ) (flush : Bool) : Command → σ
  | .put key value => (store.put s (m.rankedKey m.aggRank key) value flush).2
  | .del key => (store.del s (m.rankedKey m.aggRank key) flush).2
  | .metaPut key value => (store.metaPut s (m.rankedKey m.aggRank key) value flush).2
  | .readBarrier => (store.readBarrier s).2
  | .writeBarrier => (store.writeBarrier s).2
  | .get _ => s
  | .metaGet _ => s
  | .metaGetAll => s

/-- The message of one rank in the second pass of a round. -/
def handleMessage (s : State σ n) (i : Fin n) (msg : Message) : State σ n :=
  let (store', link) := if msg.command = EOL_COMMAND then (s.store, (s.links i).markEol)
    else
      let (store', back) := (manager n).handleCommand store alwaysFlush s.store (rank i) msg
      (store', (s.links i).answer back)
  { s.setLink i link with
    server := .afterHandle i
    loopCounter := if i.val + 1 < n then s.loopCounter else s.loopCounter + 1
    store := store' }

/-- A message that cannot be read stops the server. Sends do not block. -/
def step [NeZero n] (s : State σ n) : Event n → Option (State σ n)
  | .send i c => match (s.links i).client with
    | .running (next :: todo) => if next = c then some (s.setLink i ((s.links i).send c todo)) else none
    | _ => none
  | .eol i => match (s.links i).client with
    | .running [] => some (s.setLink i (s.links i).sendEol)
    | _ => none
  | .reply i msg => match (s.links i).client, (s.links i).toClient with
    | .waiting _ todo, buf :: rest =>
      if received buf = some msg then some (s.setLink i ((s.links i).takeReply todo rest)) else none
    | _, _ => none
  | .loop =>
    if s.server = .testing then
      some { s with server := if ∀ i, (s.links i).eol = true then .exited else .receiving 0 }
    else none
  | .recv i => match (s.links i).toServer with
    | buf :: rest =>
      if s.server = .receiving i then
        some { s.setLink i ((s.links i).fill buf rest) with server := .afterRecv i }
      else none
    | [] => none
  | .handle i msg => match (s.links i).recvBuf with
    | some buf =>
      if s.server = .handling i ∧ received buf = some msg then some (s.handleMessage store alwaysFlush i msg) else none
    | none => none
  | .own c flush => match s.main with
    | .running (next :: todo) =>
      if next = (c, flush) then
        some { s with main := .running todo, store := ownOperation store (manager n) s.store flush c }
      else none
    | _ => none
  | .join => if s.main = .running [] ∧ s.server = .exited then some { s with main := .closing } else none
  | .barrier =>
    if s.main = .closing ∧ ∀ i, (s.links i).client = .closing then
      some { s with main := .passed, links := fun i => { s.links i with client := .passed } }
    else none

/-- One step of the aggregator or of a client. -/
def Next [NeZero n] (s : State σ n) (e : Event n) (s' : State σ n) : Prop := s.step store alwaysFlush e = some s'

/-- What each step finds and what it leaves. -/
inductive Effect [NeZero n] (s : State σ n) : Event n → State σ n → Prop
  | send {i : Fin n} {c : Command} {todo : List Command} (ready : (s.links i).client = .running (c :: todo)) :
      Effect s (.send i c) (s.setLink i ((s.links i).send c todo))
  | eol {i : Fin n} (ready : (s.links i).client = .running []) :
      Effect s (.eol i) (s.setLink i (s.links i).sendEol)
  | reply {i : Fin n} {c : Command} {todo : List Command} {buf : Bytes} {rest : List Bytes} {msg : Message}
      (blocked : (s.links i).client = .waiting c todo) (arrived : (s.links i).toClient = buf :: rest)
      (read : received buf = some msg) :
      Effect s (.reply i msg) (s.setLink i ((s.links i).takeReply todo rest))
  | loop (test : s.server = .testing) :
      Effect s .loop { s with server := if ∀ i, (s.links i).eol = true then .exited else .receiving 0 }
  | recv {i : Fin n} {buf : Bytes} {rest : List Bytes} (probing : s.server = .receiving i)
      (arrived : (s.links i).toServer = buf :: rest) :
      Effect s (.recv i) { s.setLink i ((s.links i).fill buf rest) with server := .afterRecv i }
  | handle {i : Fin n} {buf : Bytes} {msg : Message} (turn : s.server = .handling i)
      (held : (s.links i).recvBuf = some buf) (read : received buf = some msg) :
      Effect s (.handle i msg) (s.handleMessage store alwaysFlush i msg)
  | own {c : Command} {flush : Bool} {todo : List (Command × Bool)} (ready : s.main = .running ((c, flush) :: todo)) :
      Effect s (.own c flush)
        { s with main := .running todo, store := ownOperation store (manager n) s.store flush c }
  | join (finished : s.main = .running []) (exited : s.server = .exited) :
      Effect s .join { s with main := .closing }
  | barrier (entered : s.main = .closing) (clients : ∀ i, (s.links i).client = .closing) :
      Effect s .barrier { s with main := .passed, links := fun i => { s.links i with client := .passed } }

variable {store alwaysFlush}

theorem effect_of_next [NeZero n] {s s' : State σ n} {e : Event n} (taken : Next store alwaysFlush s e s') :
    Effect store alwaysFlush s e s' := by
  unfold Next step at taken
  cases e with
  | send i c =>
    simp only at taken
    split at taken
    next ready =>
      split at taken
      next same =>
        cases taken
        exact .send (same ▸ ready)
      next => cases taken
    next => cases taken
  | eol i =>
    simp only at taken
    split at taken
    next ready =>
      cases taken
      exact .eol ready
    next => cases taken
  | reply i msg =>
    simp only at taken
    split at taken
    next blocked arrived =>
      split at taken
      next read =>
        cases taken
        exact .reply blocked arrived read
      next => cases taken
    next => cases taken
  | loop =>
    simp only at taken
    split at taken
    next test =>
      cases taken
      exact .loop test
    next => cases taken
  | recv i =>
    simp only at taken
    split at taken
    next arrived =>
      split at taken
      next probing =>
        cases taken
        exact .recv probing arrived
      next => cases taken
    next => cases taken
  | handle i msg =>
    simp only at taken
    split at taken
    next held =>
      split at taken
      next ready =>
        cases taken
        exact .handle ready.1 held ready.2
      next => cases taken
    next => cases taken
  | own c flush =>
    simp only at taken
    split at taken
    next ready =>
      split at taken
      next same =>
        cases taken
        exact .own (same ▸ ready)
      next => cases taken
    next => cases taken
  | join =>
    simp only at taken
    split at taken
    next ready =>
      cases taken
      exact .join ready.1 ready.2
    next => cases taken
  | barrier =>
    simp only at taken
    split at taken
    next ready =>
      cases taken
      exact .barrier ready.1 ready.2
    next => cases taken

/-- Every effect is the one of a step that is enabled. -/
theorem Effect.next [NeZero n] {s s' : State σ n} {e : Event n} (effect : Effect store alwaysFlush s e s') :
    Next store alwaysFlush s e s' := by
  unfold Next
  cases effect with
  | send ready => simp [step, ready]
  | eol ready => simp [step, ready]
  | reply blocked arrived read => simp [step, blocked, arrived, read]
  | loop test => simp [step, test]
  | recv probing arrived => simp [step, probing, arrived]
  | handle turn held read => simp [step, turn, held, read]
  | own ready => simp [step, ready]
  | join finished exited => simp [step, finished, exited]
  | barrier entered clients => simp [step, entered, clients]

end Step

theorem links_setLink (s : State σ n) (i j : Fin n) (l : Link) :
    (s.setLink i l).links j = if j = i then l else s.links j :=
  Function.update_apply ..

@[simp] theorem links_setLink_self (s : State σ n) (i : Fin n) (l : Link) : (s.setLink i l).links i = l := by
  simp [setLink]

@[simp] theorem links_setLink_of_ne {i j : Fin n} (other : j ≠ i) (s : State σ n) (l : Link) :
    (s.setLink i l).links j = s.links j := by
  simp [setLink, other]

@[simp] theorem server_setLink (s : State σ n) (i : Fin n) (l : Link) : (s.setLink i l).server = s.server := rfl

@[simp] theorem main_setLink (s : State σ n) (i : Fin n) (l : Link) : (s.setLink i l).main = s.main := rfl

@[simp] theorem store_setLink (s : State σ n) (i : Fin n) (l : Link) : (s.setLink i l).store = s.store := rfl

@[simp] theorem loopCounter_setLink (s : State σ n) (i : Fin n) (l : Link) :
    (s.setLink i l).loopCounter = s.loopCounter := rfl

section HandleMessage

variable (store : LSMIOStore σ) (alwaysFlush : Bool) (s : State σ n) (i : Fin n) (msg : Message)

@[simp] theorem server_handleMessage : (s.handleMessage store alwaysFlush i msg).server = .afterHandle i := rfl

@[simp] theorem main_handleMessage : (s.handleMessage store alwaysFlush i msg).main = s.main := rfl

@[simp] theorem loopCounter_handleMessage : (s.handleMessage store alwaysFlush i msg).loopCounter =
    if i.val + 1 < n then s.loopCounter else s.loopCounter + 1 := rfl

theorem store_handleMessage : (s.handleMessage store alwaysFlush i msg).store =
    if msg.command = EOL_COMMAND then s.store
    else ((manager n).handleCommand store alwaysFlush s.store (rank i) msg).1 := by
  by_cases eol : msg.command = EOL_COMMAND
  · simp [handleMessage, eol]
  · simp [handleMessage, eol]

theorem links_handleMessage_self : (s.handleMessage store alwaysFlush i msg).links i =
    if msg.command = EOL_COMMAND then (s.links i).markEol
    else (s.links i).answer ((manager n).handleCommand store alwaysFlush s.store (rank i) msg).2 := by
  by_cases eol : msg.command = EOL_COMMAND
  · simp [handleMessage, eol, setLink]
  · simp [handleMessage, eol, setLink]

@[simp] theorem links_handleMessage_of_ne {j : Fin n} (other : j ≠ i) :
    (s.handleMessage store alwaysFlush i msg).links j = s.links j :=
  links_setLink_of_ne other _ _

end HandleMessage

end State

end Collective

end LSMIO
