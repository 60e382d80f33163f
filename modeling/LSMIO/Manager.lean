import LSMIO.Store
import LSMIO.Wire

namespace LSMIO

def AGGREGATION_RANK : Nat := 0

/-- The place of a manager in its aggregation communicator. -/
structure LSMIOManager where
  isShared : Bool
  aggRank : Nat
  aggSize : Nat

/-- The operations of a manager. The writes flush as `alwaysFlush` says. -/
inductive Command
  | get (key : Key)
  | put (key : Key) (value : Value)
  | del (key : Key)
  | metaGet (key : Key)
  | metaGetAll
  | metaPut (key : Key) (value : Value)
  | readBarrier
  | writeBarrier
  deriving DecidableEq

/-- What a client rank sends to the aggregator for an operation. -/
def Command.message : Command → Message
  | .get key => ⟨KV_CMD.GET, key, KV_DUMMY⟩
  | .put key value => ⟨KV_CMD.PUT, key, value⟩
  | .del key => ⟨KV_CMD.DEL, key, KV_DUMMY⟩
  | .metaGet key => ⟨KV_CMD.META_GET, key, KV_DUMMY⟩
  | .metaGetAll => ⟨KV_CMD.META_GET_ALL, KV_DUMMY, KV_DUMMY⟩
  | .metaPut key value => ⟨KV_CMD.META_PUT, key, value⟩
  | .readBarrier => ⟨KV_CMD.READ_BARRIER, KV_DUMMY, KV_DUMMY⟩
  | .writeBarrier => ⟨KV_CMD.WRITE_BARRIER, KV_DUMMY, KV_DUMMY⟩

/-- What a client rank sends last. -/
def eolMessage : Message := ⟨EOL_COMMAND, KV_DUMMY, []⟩

/-- The command of the reply that the server loop sends, if it sends one. -/
def replyCommand (command : Bytes) : Option Bytes :=
  if command = KV_CMD.GET then some KV_CMD_RETURN.GET
  else if command = KV_CMD.META_GET then some KV_CMD_RETURN.META_GET
  else if command = KV_CMD.META_GET_ALL then some KV_CMD_RETURN.META_GET_ALL
  else if command = KV_CMD.READ_BARRIER then some KV_CMD_RETURN.READ_BARRIER
  else if command = KV_CMD.WRITE_BARRIER then some KV_CMD_RETURN.WRITE_BARRIER
  else none

def vectorTupleSerialize (values : List (Key × Value)) : Bytes :=
  values.flatMap fun tup => tup.1 ++ ascii "|" ++ tup.2 ++ ascii "\n"

/-- The bytes a message has on the wire. -/
def Message.serialize (m : Message) : Bytes := serializeCmd m.command m.key m.value

/-- A received buffer is read up to the length that the probe reported. -/
def received (buf : Bytes) : Option Message := deSerializeCmd buf buf.length

theorem Message.received_serialize {m : Message} (known : Plain m.command) (plain : Plain m.key) :
    received m.serialize = some m :=
  deSerializeCmd_plain known plain m.value

theorem plain_replyCommand {command back : Bytes} (answered : replyCommand command = some back) : Plain back := by
  have table : back ∈ commands := by
    unfold replyCommand at answered
    split_ifs at answered <;> cases answered <;> simp only [commands, List.mem_cons, true_or, or_true]
  exact plain_of_mem_commands back table

theorem Command.plain_message_command (c : Command) : Plain c.message.command := by
  refine plain_of_mem_commands _ ?_
  cases c <;> simp only [Command.message, commands, List.mem_cons, true_or, or_true]

namespace LSMIOManager

def isOpenLocal (m : LSMIOManager) : Bool := !m.isShared || m.aggRank == AGGREGATION_RANK

def isOpenRemote (m : LSMIOManager) : Bool := m.isShared && m.aggRank != AGGREGATION_RANK

def isServeLocal (m : LSMIOManager) : Bool := m.isShared && m.aggRank == AGGREGATION_RANK && decide (1 < m.aggSize)

def rankedKey (m : LSMIOManager) (rank : Nat) (key : Key) : Key :=
  if m.isServeLocal then Decimal.digits rank ++ ascii "::" ++ key else key

/-- The manager of the rank that serves the communicator. -/
def aggregator (m : LSMIOManager) : LSMIOManager := { m with aggRank := AGGREGATION_RANK }

section Server

variable {σ : Type*} (store : LSMIOStore σ) (alwaysFlush : Bool)

/-- The store after the command, and what is in `*gValue`. The status of the
operation stays in a local variable. -/
def callbackForCollectiveIO (m : LSMIOManager) (s : σ) (rank : Nat) (command : Bytes) (key : Key)
    (gValue pValue : Value) :
    σ × Value :=
  if command = KV_CMD.GET then (s, (store.get s (m.rankedKey rank key)).getD gValue)
  else if command = KV_CMD.PUT then ((store.put s (m.rankedKey rank key) pValue alwaysFlush).2, gValue)
  else if command = KV_CMD.DEL then ((store.del s (m.rankedKey rank key) alwaysFlush).2, gValue)
  else if command = KV_CMD.META_GET then (s, (store.metaGet s (m.rankedKey rank key)).getD gValue)
  else if command = KV_CMD.META_GET_ALL then
    (s, vectorTupleSerialize (store.metaGetAll s (Decimal.digits rank ++ ascii "::")).2)
  else if command = KV_CMD.META_PUT then ((store.metaPut s (m.rankedKey rank key) pValue alwaysFlush).2, gValue)
  else if command = KV_CMD.WRITE_BARRIER then ((store.writeBarrier s).2, gValue)
  else (s, gValue)

/-- The pass of `_waitForCommand` over a message other than the end of line:
the store after the callback and the reply, if there is one. -/
def handleCommand (m : LSMIOManager) (s : σ) (rank : Nat) (msg : Message) : σ × Option Message :=
  let (s', retValue) := m.callbackForCollectiveIO store alwaysFlush s rank msg.command msg.key [] msg.value
  (s', (replyCommand msg.command).map fun back => ⟨back, msg.key, retValue⟩)

end Server

end LSMIOManager

end LSMIO
