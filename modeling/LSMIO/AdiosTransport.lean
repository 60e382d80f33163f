import LSMIO.Wire

namespace LSMIO

/-- The messages on their way between two ranks, oldest first. -/
abbrev Channel := List Bytes

/-- What is in a piece of memory before it is written. -/
abbrev Memory := Nat → UInt8

namespace LSMIOClientAdios

def memory (m : Memory) (size : Nat) : Bytes := (List.range size).map m

@[simp] theorem length_memory (m : Memory) (size : Nat) : (memory m size).length = size := by
  simp [memory]

def send (ch : Channel) (msg : Bytes) : Channel := ch ++ [msg]

/-- A receive of at most `count` bytes into a buffer. There is no result where it
waits for a message, where the message is longer than `count`, and where it does not fit the buffer. -/
def recv (ch : Channel) (buffer : Bytes) (count : Nat) : Option (Bytes × Channel) :=
  match ch with
  | [] => none
  | msg :: rest =>
    if msg.length ≤ count ∧ msg.length ≤ buffer.length then some (msg ++ buffer.drop msg.length, rest) else none

def sendCommand (ch : Channel) (command : Bytes) (key : Key) (value : Value) : Channel :=
  send ch (serializeCmd command key value)

/-- An `int` of the receive buffer as a size. A negative size has no buffer. -/
def sizeAt (sizeReceived : Bytes) (i : Nat) : Option Nat :=
  let n := Bytes.toNat ((sizeReceived.drop (4 * i)).take 4)
  if n < 2 ^ 31 then some n else none

/-- `stack i` is what is in the `i`-th buffer before the call. All three fields
are received into the buffer of the command. -/
def recvCommand (stack : Nat → Memory) (ch : Channel) : Option (Message × Channel) := do
  let (sizeReceived, ch) ← recv ch (memory (stack 0) 12) 12
  let commandSize ← sizeAt sizeReceived 0
  let keySize ← sizeAt sizeReceived 1
  let valueSize ← sizeAt sizeReceived 2
  let cmdBuffer := memory (stack 1) commandSize
  let keyBuffer := memory (stack 2) keySize
  let valBuffer := memory (stack 3) valueSize
  let (cmdBuffer, ch) ← recv ch cmdBuffer commandSize
  let (cmdBuffer, ch) ← recv ch cmdBuffer keySize
  let (cmdBuffer, ch) ← recv ch cmdBuffer valueSize
  some (⟨cmdBuffer, keyBuffer, valBuffer⟩, ch)

/-- The pass of `_recvToBuffer` over one rank: the probed size, an `int`, is that of the buffer. -/
def recvFrom (heap : Nat → Memory) (rank : Nat) (acc : List (Nat × Bytes) × (Nat → Channel)) (recv_i : Nat) :
    Option (List (Nat × Bytes) × (Nat → Channel)) :=
  if recv_i = rank then some acc
  else match acc.2 recv_i with
    | [] => none
    | msg :: _ =>
      let bSize := msg.length
      if bSize < 2 ^ 31 then
        (recv (acc.2 recv_i) (memory (heap recv_i) bSize) bSize).map fun r =>
          (acc.1 ++ [(recv_i, r.1)], Function.update acc.2 recv_i r.2)
      else none

/-- The buffers received from all other ranks, each with its rank. -/
def recvToBuffer (heap : Nat → Memory) (size rank : Nat) (channels : Nat → Channel) :
    Option (List (Nat × Bytes) × (Nat → Channel)) :=
  (List.range size).foldlM (recvFrom heap rank) ([], channels)

/-- The channel after a sequence of `sendCommand`. -/
def sent (triples : List Message) : Channel :=
  triples.foldl (fun ch m => sendCommand ch m.command m.key m.value) []

/-- As many calls of `recvCommand` as asked for. -/
def recvCommands (stack : Nat → Memory) : Nat → Channel → Option (List Message × Channel)
  | 0, ch => some ([], ch)
  | n + 1, ch => do
    let (m, ch) ← recvCommand stack ch
    let (rest, ch) ← recvCommands stack n ch
    some (m :: rest, ch)

/-- As many calls of `_recvToBuffer` on a rank of two, each buffer given to `deSerializeCmd`. -/
def recvBuffers (heap : Nat → Memory) (rank : Nat) : Nat → (Nat → Channel) → Option (List Message × (Nat → Channel))
  | 0, channels => some ([], channels)
  | n + 1, channels => do
    let (buffers, channels) ← recvToBuffer heap 2 rank channels
    let messages ← buffers.mapM fun buffer => deSerializeCmd buffer.2 buffer.2.length
    let (rest, channels) ← recvBuffers heap rank n channels
    some (messages ++ rest, channels)

theorem sent_eq (triples : List Message) :
    sent triples = triples.map fun m => serializeCmd m.command m.key m.value := by
  induction triples using List.reverseRecOn with
  | nil => rfl
  | append_singleton triples m ih =>
    rw [sent, List.foldl_append, List.map_append, ← ih]
    rfl

theorem recv_cases {ch ch' : Channel} {buffer read : Bytes} {count : Nat}
    (done : recv ch buffer count = some (read, ch')) :
    ∃ msg, ch = msg :: ch' := by
  unfold recv at done
  split at done
  next => cases done
  next msg rest =>
    split at done
    next =>
      cases done
      exact ⟨msg, rfl⟩
    next => cases done

/-- A message of the size of the buffer is received as it was sent. -/
theorem recv_exact (msg : Bytes) (rest : Channel) (m : Memory) :
    recv (msg :: rest) (memory m msg.length) msg.length = some (msg, rest) := by
  simp [recv, List.drop_of_length_le]

/-- `recvCommand` takes four messages from the channel, where `sendCommand` puts one. -/
theorem length_recvCommand {stack : Nat → Memory} {ch ch' : Channel} {m : Message}
    (done : recvCommand stack ch = some (m, ch')) :
    ch.length = ch'.length + 4 := by
  simp only [recvCommand, Option.bind_eq_bind] at done
  obtain ⟨⟨sizes, ch₁⟩, first, done⟩ := Option.bind_eq_some_iff.mp done
  obtain ⟨commandSize, -, done⟩ := Option.bind_eq_some_iff.mp done
  obtain ⟨keySize, -, done⟩ := Option.bind_eq_some_iff.mp done
  obtain ⟨valueSize, -, done⟩ := Option.bind_eq_some_iff.mp done
  obtain ⟨⟨command, ch₂⟩, second, done⟩ := Option.bind_eq_some_iff.mp done
  obtain ⟨⟨key, ch₃⟩, third, done⟩ := Option.bind_eq_some_iff.mp done
  obtain ⟨⟨value, ch₄⟩, fourth, done⟩ := Option.bind_eq_some_iff.mp done
  cases done
  obtain ⟨_, rfl⟩ := recv_cases first
  obtain ⟨_, rfl⟩ := recv_cases second
  obtain ⟨_, rfl⟩ := recv_cases third
  obtain ⟨_, rfl⟩ := recv_cases fourth
  simp

theorem length_recvCommands {stack : Nat → Memory} {n : Nat} {ch ch' : Channel} {messages : List Message}
    (done : recvCommands stack n ch = some (messages, ch')) : ch.length = ch'.length + 4 * n := by
  induction n generalizing ch messages with
  | zero =>
    cases done
    rfl
  | succ n ih =>
    simp only [recvCommands, Option.bind_eq_bind] at done
    obtain ⟨⟨m, ch₁⟩, first, done⟩ := Option.bind_eq_some_iff.mp done
    obtain ⟨⟨rest, ch₂⟩, later, done⟩ := Option.bind_eq_some_iff.mp done
    cases done
    have here := length_recvCommand first
    have behind := ih later
    simp only at here behind ⊢
    omega

/-- The receiver gets the triples back from as many calls as there were sends, and no message is left:
by `recvCommand`, whatever is on its stack. -/
def CommandsBack (triples : List Message) : Prop :=
  ∀ stack, recvCommands stack triples.length (sent triples) = some (triples, [])

/-- The same by `_recvToBuffer` on either rank of two and `deSerializeCmd`, whatever is on its heap. -/
def BuffersBack (triples : List Message) : Prop :=
  ∀ heap, ∀ rank < 2, recvBuffers heap rank triples.length (Function.update (fun _ => []) (1 - rank) (sent triples)) =
    some (triples, fun _ => [])

theorem commandsBack_iff (triples : List Message) : CommandsBack triples ↔ triples = [] := by
  constructor
  · intro back
    have taken := length_recvCommands (back fun _ _ => 0)
    rw [sent_eq, List.length_map, List.length_nil] at taken
    exact List.length_eq_zero_iff.mp (by omega)
  · rintro rfl stack
    rfl

theorem recvFrom_peer {heap : Nat → Memory} {rank peer : Nat} (other : peer ≠ rank) {channels : Nat → Channel}
    {msg : Bytes} {rest : Channel} (front : channels peer = msg :: rest) (short : msg.length < 2 ^ 31)
    (buffers : List (Nat × Bytes)) :
    recvFrom heap rank (buffers, channels) peer = some
      (buffers ++ [(peer, msg)], Function.update channels peer rest) := by
  simp only [recvFrom, if_neg other, front, if_pos short, recv_exact, Option.map_some]

theorem recvToBuffer_two (heap : Nat → Memory) {rank : Nat} (two : rank < 2) {channels : Nat → Channel} {msg : Bytes}
    {rest : Channel} (front : channels (1 - rank) = msg :: rest) (short : msg.length < 2 ^ 31) :
    recvToBuffer heap 2 rank channels = some ([(1 - rank, msg)], Function.update channels (1 - rank) rest) := by
  have ranks : List.range 2 = [0, 1] := rfl
  have self : ∀ acc, recvFrom heap rank acc rank = some acc := fun acc => if_pos rfl
  simp only [recvToBuffer, ranks, List.foldlM_cons, List.foldlM_nil, Option.bind_eq_bind]
  rcases Nat.le_one_iff_eq_zero_or_eq_one.mp (Nat.le_of_lt_succ two) with rfl | rfl
  · rw [self, Option.bind_some, recvFrom_peer (by decide) front short]
    rfl
  · rw [recvFrom_peer (by decide) front short, Option.bind_some, self]
    rfl

theorem recvBuffers_sent (heap : Nat → Memory) {rank : Nat} (two : rank < 2) {channels : Nat → Channel}
    {triples : List Message} {rest : Channel}
    (front : channels (1 - rank) = (triples.map fun m => serializeCmd m.command m.key m.value) ++ rest)
    (plain : ∀ m ∈ triples, Plain m.command ∧ Plain m.key)
    (short : ∀ m ∈ triples, (serializeCmd m.command m.key m.value).length < 2 ^ 31) :
    recvBuffers heap rank triples.length channels = some (triples, Function.update channels (1 - rank) rest) := by
  induction triples generalizing channels with
  | nil =>
    have same : Function.update channels (1 - rank) rest = channels := by
      rw [← List.nil_append rest, ← List.map_nil, ← front]
      exact Function.update_eq_self _ _
    rw [same]
    rfl
  | cons m triples ih =>
    obtain ⟨plainCommand, plainKey⟩ := plain m (List.mem_cons_self ..)
    rw [List.map_cons, List.cons_append] at front
    have first := recvToBuffer_two heap two front (short m (List.mem_cons_self ..))
    have parsed := deSerializeCmd_plain plainCommand plainKey m.value
    have later := @ih (Function.update channels (1 - rank) _) (Function.update_self ..)
      (fun m member => plain m (List.mem_cons_of_mem _ member))
        (fun m member => short m (List.mem_cons_of_mem _ member))
    rw [Function.update_idem] at later
    simp only [List.length_cons, recvBuffers, Option.bind_eq_bind]
    rw [first, Option.bind_some]
    simp only [List.mapM_cons, List.mapM_nil, parsed, Option.bind_eq_bind, Option.bind_some, Option.pure_def]
    rw [later]
    rfl

/-- Messages whose length is an `int` come back through `_recvToBuffer`, when
commands and keys hold neither a separator nor a NUL. -/
theorem buffersBack {triples : List Message} (plain : ∀ m ∈ triples, Plain m.command ∧ Plain m.key)
    (short : ∀ m ∈ triples, (serializeCmd m.command m.key m.value).length < 2 ^ 31) : BuffersBack triples := by
  intro heap rank two
  have front : Function.update (fun _ => []) (1 - rank) (sent triples) (1 - rank) =
      (triples.map fun m => serializeCmd m.command m.key m.value) ++ [] := by
    rw [Function.update_self, sent_eq, List.append_nil]
  rw [recvBuffers_sent heap two front plain short, Function.update_idem]
  exact congrArg (fun channels => some (triples, channels)) (Function.update_eq_self _ _)

/-- Sender and receiver speak the same format only about nothing: a message is
received as a header and three bodies, but sent in one buffer. `_recvToBuffer` does fit the sender. -/
theorem sameFormat_iff (triples : List Message) :
    (CommandsBack triples ∧ BuffersBack triples ↔ triples = []) ∧
      ((∀ m ∈ triples, Plain m.command ∧ Plain m.key) →
        (∀ m ∈ triples, (serializeCmd m.command m.key m.value).length < 2 ^ 31) → BuffersBack triples) := by
  refine ⟨⟨fun back => (commandsBack_iff triples).mp back.1, ?_⟩, buffersBack⟩
  rintro rfl
  exact ⟨(commandsBack_iff []).mpr rfl, buffersBack (by simp) (by simp)⟩

theorem sameFormat_get : BuffersBack [⟨KV_CMD.GET, [107], KV_DUMMY⟩] :=
  (sameFormat_iff _).2 (by decide +kernel) (by decide +kernel)

/-- One `get` of a one-byte key: the message fits the header, and the receive of the command waits for good. -/
theorem not_sameFormat :
    (∀ stack, recvCommands stack 1 (sent [⟨KV_CMD.GET, [107], KV_DUMMY⟩]) = none) ∧
      ¬ ∀ triples : List Message, (∀ m ∈ triples, Plain m.key) → CommandsBack triples ∧ BuffersBack triples := by
  have waits : ∀ stack, recvCommands stack 1 (sent [⟨KV_CMD.GET, [107], KV_DUMMY⟩]) = none := by
    intro stack
    rw [Option.eq_none_iff_forall_ne_some]
    rintro ⟨messages, ch⟩ done
    have taken := length_recvCommands done
    rw [sent_eq, List.length_map, List.length_singleton] at taken
    omega
  refine ⟨waits, fun always => ?_⟩
  have back := (always [⟨KV_CMD.GET, [107], KV_DUMMY⟩] (by decide)).1 fun _ _ => 0
  rw [List.length_singleton, waits] at back
  cases back

end LSMIOClientAdios

end LSMIO
