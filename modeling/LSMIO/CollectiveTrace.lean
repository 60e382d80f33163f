import LSMIO.Collective
import LSMIO.Library.Isolation

namespace LSMIO

theorem Command.message_command_ne_eol (c : Command) : c.message.command ≠ EOL_COMMAND := by
  cases c <;> simp only [Command.message] <;> decide +kernel

theorem Command.eq_metaPut {c : Command} {key : Key} {value : Value} (is : c.message = ⟨KV_CMD.META_PUT, key, value⟩) :
    c = .metaPut key value := by
  have command := congrArg Message.command is
  cases c with
  | metaPut =>
    cases is
    rfl
  | _ =>
    simp only [Command.message] at command
    exact absurd command (by decide +kernel)

/-- A client waits exactly for the commands that the server answers. -/
theorem Command.waits_eq (c : Command) : c.waits = (replyCommand c.message.command).isSome := by
  cases c <;> simp only [Command.message, Command.waits] <;> decide +kernel

/-- A message as it was sent, and as the server reads it. -/
def Message.ReadAs (m msg : Message) : Prop := received m.serialize = some msg

/-- A message that the server answers. -/
def Message.answered (m : Message) : Bool := (replyCommand m.command).isSome

namespace Collective

variable {n : Nat}

namespace Event

/-- The operation that client `i` issues with an event. -/
def sent? (i : Fin n) : Event n → Option Command
  | .send j c => if j = i then some c else none
  | _ => none

/-- The message of client `i` that the server handles with an event. -/
def read? (i : Fin n) : Event n → Option Message
  | .handle j msg => if j = i then some msg else none
  | _ => none

/-- The reply that client `i` receives with an event. -/
def taken? (i : Fin n) : Event n → Option Message
  | .reply j msg => if j = i then some msg else none
  | _ => none

end Event

def sent (i : Fin n) (trace : List (Event n)) : List Command := trace.filterMap (Event.sent? i)

def read (i : Fin n) (trace : List (Event n)) : List Message := trace.filterMap (Event.read? i)

def taken (i : Fin n) (trace : List (Event n)) : List Message := trace.filterMap (Event.taken? i)

/-- An operation on the store of the aggregator: one for a client, or its own. -/
inductive Operation
  | served (rank : Nat) (msg : Message)
  | own (c : Command) (flush : Bool)

/-- The rank an operation is executed for. -/
def Operation.rank : Operation → Nat
  | .served rank _ => rank
  | .own _ _ => AGGREGATION_RANK

def Event.operation? : Event n → Option Operation
  | .handle i msg => if msg.command = EOL_COMMAND then none else some (.served (Collective.rank i) msg)
  | .own c flush => some (.own c flush)
  | _ => none

def operations (trace : List (Event n)) : List Operation := trace.filterMap Event.operation?

section Concat

variable (i : Fin n) (trace : List (Event n)) (e : Event n)

theorem sent_concat : sent i (trace ++ [e]) = sent i trace ++ (e.sent? i).toList := List.filterMap_snoc _ _ _

theorem read_concat : read i (trace ++ [e]) = read i trace ++ (e.read? i).toList := List.filterMap_snoc _ _ _

theorem taken_concat : taken i (trace ++ [e]) = taken i trace ++ (e.taken? i).toList := List.filterMap_snoc _ _ _

theorem operations_concat : operations (trace ++ [e]) = operations trace ++ e.operation?.toList :=
  List.filterMap_snoc _ _ _

end Concat

section Served

variable {σ : Type*} (store : LSMIOStore σ) (alwaysFlush : Bool) (n)

/-- One operation on the store, with the reply that it leads to. -/
def act : Operation → σ → σ × Option Message
  | .served rank msg, s => (manager n).handleCommand store alwaysFlush s rank msg
  | .own c flush, s => (State.ownOperation store (manager n) s flush c, none)

/-- The operations executed one by one: the store after them, and the replies with their ranks. -/
def served (initial : σ) (ops : List Operation) : σ × List (Nat × Message) :=
  serve Operation.rank (act n store alwaysFlush) initial ops

end Served

section Store

variable {σ : Type*} {store : LSMIOStore σ} {alwaysFlush : Bool} [NeZero n]
variable {scripts : Fin n → List Command} {own : List (Command × Bool)} {initial : σ}

/-- The store has served the operations of the run, one by one. -/
theorem store_eq_serve {trace : List (Event n)} {s : State σ n}
    (run : Run (State.Next store alwaysFlush) (State.init scripts own initial) trace s) :
    s.store = (served n store alwaysFlush initial (operations trace)).1 := by
  refine run.invariant (P := fun trace s => s.store = (served n store alwaysFlush initial (operations trace)).1) rfl ?_
  intro trace s e s' _ sofar taken
  rw [operations_concat]
  cases State.effect_of_next taken with
  | handle turn held read =>
    rename_i i buf msg
    rw [State.store_handleMessage, Event.operation?]
    split
    · simpa using sofar
    · rw [Option.toList_some, served, serve_concat, ← served, ← sofar]
      rfl
  | own ready =>
    rw [Event.operation?, Option.toList_some, served, serve_concat, ← served, ← sofar]
    rfl
  | _ => simpa [Event.operation?] using sofar

end Store

namespace ClientPc

/-- The operations that are not issued yet. -/
@[simp] def todo : ClientPc → List Command
  | running todo => todo
  | waiting _ todo => todo
  | closing => []
  | passed => []

/-- What the client has sent after its operations. -/
@[simp] def last : ClientPc → List Message
  | running _ => []
  | waiting _ _ => []
  | closing => [eolMessage]
  | passed => [eolMessage]

/-- The number of replies the client waits for. -/
@[simp] def awaited : ClientPc → Nat
  | running _ => 0
  | waiting _ _ => 1
  | closing => 0
  | passed => 0

end ClientPc

/-- The messages between a client and the server: `handled` and `flight` are
those the client sent, up to the last one the server read and from there on;
`due` are the replies to the former, those of `back` still on their way. -/
structure Link.Tracks (script sentNow : List Command) (handled flight readNow takenNow back due : List Message)
    (l : Link) : Prop where
  script : sentNow ++ l.client.todo = script
  outgoing : handled ++ flight = sentNow.map Command.message ++ l.client.last
  readAs : List.Forall₂ Message.ReadAs handled readNow
  inFlight : l.recvBuf.toList ++ l.toServer = flight.map Message.serialize
  eol_iff : l.eol = true ↔ l.client.last = [eolMessage] ∧ flight = []
  awaited : (sentNow.filter Command.waits).length = takenNow.length + l.client.awaited
  replies : takenNow ++ back = due
  answered : (handled.filter Message.answered).length = due.length
  toClient : l.toClient = back.map Message.serialize
  plain : ∀ m ∈ back, Plain m.command ∧ Plain m.key

/-- The end of line is what a client sends last, and nothing else. -/
theorem eol_iff_last {front rest : List Message} {m : Message} {sentNow : List Command} {pc : ClientPc}
    (outgoing : front ++ m :: rest = sentNow.map Command.message ++ pc.last) :
    m.command = EOL_COMMAND ↔ pc.last = [eolMessage] ∧ rest = [] := by
  have operation : ∀ m ∈ sentNow.map Command.message, m.command ≠ EOL_COMMAND := by
    intro m member
    obtain ⟨c, -, rfl⟩ := List.mem_map.mp member
    exact c.message_command_ne_eol
  have open_or_closed : pc.last = [] ∨ pc.last = [eolMessage] := by cases pc <;> simp
  rcases open_or_closed with still | closed
  · rw [still, List.append_nil] at outgoing
    have other := operation m (outgoing ▸ by simp)
    exact iff_of_false other fun closed => absurd (still ▸ closed.1) (List.cons_ne_nil _ _).symm
  · rw [closed] at outgoing ⊢
    rcases List.eq_nil_or_concat rest with rfl | ⟨before, z, rfl⟩
    · obtain ⟨-, same⟩ := List.append_inj' outgoing rfl
      cases same
      simp [eolMessage]
    · rw [List.concat_eq_append, ← List.cons_append, ← List.append_assoc] at outgoing
      obtain ⟨earlier, -⟩ := List.append_inj' outgoing rfl
      have other := operation m (earlier ▸ by simp)
      simp [other]

namespace Link.Tracks

variable {script sentNow : List Command} {handled flight readNow takenNow back due : List Message} {l : Link}

theorem start (script : List Command) :
    Tracks script [] [] [] [] [] [] [] ⟨.running script, [], none, [], false⟩ := by
  constructor <;> simp

theorem send (tracks : l.Tracks script sentNow handled flight readNow takenNow back due) {c : Command}
    {todo : List Command} (ready : l.client = .running (c :: todo)) :
    (l.send c todo).Tracks script (sentNow ++ [c]) handled (flight ++ [c.message]) readNow takenNow back due where
  script := by
    have whole := tracks.script
    rw [ready] at whole
    rw [← whole, List.append_assoc]
    cases waits : c.waits <;> simp [Link.send, waits]
  outgoing := by
    have whole := tracks.outgoing
    rw [ready, ClientPc.last, List.append_nil] at whole
    rw [← List.append_assoc, whole]
    cases waits : c.waits <;> simp [Link.send, waits]
  readAs := tracks.readAs
  inFlight := by
    rw [List.map_append, ← tracks.inFlight]
    simp [Link.send]
  eol_iff := by
    have before := tracks.eol_iff
    rw [ready] at before
    cases waits : c.waits <;> simpa [Link.send, waits] using before
  awaited := by
    have before := tracks.awaited
    rw [ready] at before
    cases waits : c.waits <;> simpa [Link.send, waits] using before
  replies := tracks.replies
  answered := tracks.answered
  toClient := tracks.toClient
  plain := tracks.plain

theorem sendEol (tracks : l.Tracks script sentNow handled flight readNow takenNow back due)
    (ready : l.client = .running []) :
    l.sendEol.Tracks script sentNow handled (flight ++ [eolMessage]) readNow takenNow back due where
  script := by
    have whole := tracks.script
    rw [ready] at whole
    exact whole
  outgoing := by
    have whole := tracks.outgoing
    rw [ready, ClientPc.last, List.append_nil] at whole
    rw [← List.append_assoc, whole]
    rfl
  readAs := tracks.readAs
  inFlight := by
    rw [List.map_append, ← tracks.inFlight]
    simp [Link.sendEol]
  eol_iff := by
    have before := tracks.eol_iff
    rw [ready] at before
    simpa [Link.sendEol] using before
  awaited := by
    have before := tracks.awaited
    rw [ready] at before
    exact before
  replies := tracks.replies
  answered := tracks.answered
  toClient := tracks.toClient
  plain := tracks.plain

/-- The reply that a client takes is the oldest one due. -/
theorem takeReply (tracks : l.Tracks script sentNow handled flight readNow takenNow back due) {c : Command}
    {todo : List Command} {buf : Bytes} {rest : List Bytes} {msg : Message} (blocked : l.client = .waiting c todo)
    (arrived : l.toClient = buf :: rest) (reads : received buf = some msg) :
    ∃ back', (l.takeReply todo rest).Tracks script sentNow handled flight readNow (takenNow ++ [msg]) back' due := by
  have channel := tracks.toClient
  rw [arrived] at channel
  cases back with
  | nil => cases channel
  | cons m back =>
    obtain ⟨rfl, rfl⟩ := List.cons.inj channel
    obtain ⟨command, key⟩ := tracks.plain m (List.mem_cons_self ..)
    have same : m = msg := Option.some.inj ((Message.received_serialize command key).symm.trans reads)
    subst same
    refine ⟨back, ?_⟩
    exact {
      script := by
        have whole := tracks.script
        rw [blocked] at whole
        exact whole
      outgoing := by
        have whole := tracks.outgoing
        rw [blocked] at whole
        exact whole
      readAs := tracks.readAs
      inFlight := tracks.inFlight
      eol_iff := by
        have before := tracks.eol_iff
        rw [blocked] at before
        exact before
      awaited := by
        have before := tracks.awaited
        rw [blocked] at before
        simpa [Link.takeReply] using before
      replies := by simpa using tracks.replies
      answered := tracks.answered
      toClient := rfl
      plain := fun m member => tracks.plain m (List.mem_cons_of_mem _ member) }

theorem fill (tracks : l.Tracks script sentNow handled flight readNow takenNow back due) {buf : Bytes}
    {rest : List Bytes} (empty : l.recvBuf = none) (arrived : l.toServer = buf :: rest) :
    (l.fill buf rest).Tracks script sentNow handled flight readNow takenNow back due where
  script := tracks.script
  outgoing := tracks.outgoing
  readAs := tracks.readAs
  inFlight := by
    have before := tracks.inFlight
    rw [empty, arrived] at before
    exact before
  eol_iff := tracks.eol_iff
  awaited := tracks.awaited
  replies := tracks.replies
  answered := tracks.answered
  toClient := tracks.toClient
  plain := tracks.plain

/-- The message in `recvBuf` is the oldest one in flight, and is read with its own command. -/
theorem oldest (tracks : l.Tracks script sentNow handled flight readNow takenNow back due) {buf : Bytes} {msg : Message}
    (held : l.recvBuf = some buf) (reads : received buf = some msg) :
    ∃ m rest, flight = m :: rest ∧ m.ReadAs msg ∧ m.command = msg.command ∧ Plain msg.key ∧
      l.toServer = rest.map Message.serialize := by
  have channel := tracks.inFlight
  rw [held] at channel
  cases flight with
  | nil => cases channel
  | cons m rest =>
    obtain ⟨rfl, behind⟩ := List.cons.inj channel
    have known : Plain m.command := by
      have member : m ∈ sentNow.map Command.message ++ l.client.last := tracks.outgoing ▸ by simp
      rcases List.mem_append.mp member with operation | last
      · obtain ⟨c, -, rfl⟩ := List.mem_map.mp operation
        exact c.plain_message_command
      · have eol : m = eolMessage := by
          cases pc : l.client <;> simp [pc] at last <;> exact last
        rw [eol]
        exact plain_of_mem_commands _ (by decide +kernel)
    obtain ⟨command, key⟩ := command_of_deSerializeCmd known reads
    exact ⟨m, rest, rfl, reads, command.symm, key, behind⟩

theorem answer (tracks : l.Tracks script sentNow handled flight readNow takenNow back due) {buf : Bytes} {msg : Message}
    (held : l.recvBuf = some buf) (reads : received buf = some msg) (operation : msg.command ≠ EOL_COMMAND)
    {reply : Option Message} (command : reply.map Message.command = replyCommand msg.command)
    (key : ∀ m ∈ reply, m.key = msg.key) :
    ∃ handled' flight' back', (l.answer reply).Tracks script sentNow handled' flight' (readNow ++ [msg]) takenNow back'
      (due ++ reply.toList) := by
  obtain ⟨m, rest, rfl, readAs, same, plainKey, behind⟩ := tracks.oldest held reads
  have whole := tracks.outgoing
  rw [← List.singleton_append, ← List.append_assoc] at whole
  refine ⟨handled ++ [m], rest, back ++ reply.toList, ?_⟩
  exact {
    script := tracks.script
    outgoing := whole
    readAs := List.rel_append tracks.readAs (.cons readAs .nil)
    inFlight := behind
    eol_iff := by
      have before := tracks.eol_iff
      have notLast := (eol_iff_last tracks.outgoing).not.mp (same ▸ operation)
      simp only [List.cons_ne_nil, and_false, iff_false] at before
      exact iff_of_false before notLast
    awaited := tracks.awaited
    replies := by rw [← List.append_assoc, tracks.replies]
    answered := by
      have one : ([m].filter Message.answered).length = reply.toList.length := by
        have answered : m.answered = reply.isSome := by
          rw [Message.answered, same, ← command, Option.isSome_map]
        cases reply with
        | none => simpa using answered
        | some r => simp [answered]
      rw [List.filter_append, List.length_append, tracks.answered, one, List.length_append]
    toClient := by
      simp only [Link.answer, tracks.toClient, List.map_append]
      cases reply <;> rfl
    plain := by
      intro r member
      rcases List.mem_append.mp member with old | new
      · exact tracks.plain r old
      · have is : reply = some r := by simpa using new
        subst is
        rw [key r rfl]
        exact ⟨plain_replyCommand command.symm, plainKey⟩ }

theorem markEol (tracks : l.Tracks script sentNow handled flight readNow takenNow back due) {buf : Bytes}
    {msg : Message} (held : l.recvBuf = some buf) (reads : received buf = some msg) (eol : msg.command = EOL_COMMAND) :
    ∃ handled' flight', l.markEol.Tracks script sentNow handled' flight' (readNow ++ [msg]) takenNow back due := by
  obtain ⟨m, rest, rfl, readAs, same, -, behind⟩ := tracks.oldest held reads
  have last := (eol_iff_last tracks.outgoing).mp (same.trans eol)
  refine ⟨handled ++ [m], rest, ?_⟩
  exact {
    script := tracks.script
    outgoing := by
      have whole := tracks.outgoing
      rw [← List.singleton_append, ← List.append_assoc] at whole
      exact whole
    readAs := List.rel_append tracks.readAs (.cons readAs .nil)
    inFlight := behind
    eol_iff := iff_of_true rfl last
    awaited := tracks.awaited
    replies := tracks.replies
    answered := by
      have silent : m.answered = false := by
        rw [Message.answered, same, eol]
        decide +kernel
      rw [List.filter_append, List.length_append, tracks.answered, List.filter_cons_of_neg (by simp [silent])]
      rfl
    toClient := tracks.toClient
    plain := tracks.plain }

theorem pass (tracks : l.Tracks script sentNow handled flight readNow takenNow back due)
    (entered : l.client = .closing) :
    Tracks script sentNow handled flight readNow takenNow back due { l with client := .passed } where
  script := by
    have whole := tracks.script
    rw [entered] at whole
    exact whole
  outgoing := by
    have whole := tracks.outgoing
    rw [entered] at whole
    exact whole
  readAs := tracks.readAs
  inFlight := tracks.inFlight
  eol_iff := by
    have before := tracks.eol_iff
    rw [entered] at before
    exact before
  awaited := by
    have before := tracks.awaited
    rw [entered] at before
    exact before
  replies := tracks.replies
  answered := tracks.answered
  toClient := tracks.toClient
  plain := tracks.plain

end Link.Tracks

end Collective

end LSMIO
