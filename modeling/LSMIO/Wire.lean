import LSMIO.Library.CString
import LSMIO.Library.Decimal
import LSMIO.Memtable

namespace LSMIO

namespace KV_CMD

def GET : Bytes := ascii "get"
def PUT : Bytes := ascii "put"
def DEL : Bytes := ascii "del"
def META_GET : Bytes := ascii "metaGet"
def META_GET_ALL : Bytes := ascii "metaGetAll"
def META_PUT : Bytes := ascii "metaPut"
def READ_BARRIER : Bytes := ascii "rBarrier"
def WRITE_BARRIER : Bytes := ascii "wBarrier"

end KV_CMD

namespace KV_CMD_RETURN

def GET : Bytes := ascii "getBack"
def META_GET : Bytes := ascii "metaGetBack"
def META_GET_ALL : Bytes := ascii "metaGetAllBack"
def READ_BARRIER : Bytes := ascii "rBarrierBack"
def WRITE_BARRIER : Bytes := ascii "wBarrierBack"

end KV_CMD_RETURN

def KV_DUMMY : Bytes := ascii "DUMMY"

def EOL_COMMAND : Bytes := ascii "__EOL"

/-- `_COL_SEPARATOR_CHAR`, the semicolon. -/
def COL_SEPARATOR : UInt8 := 59

/-- Every command that is put on the wire. -/
def commands : List Bytes :=
  [KV_CMD.GET, KV_CMD.PUT, KV_CMD.DEL, KV_CMD.META_GET, KV_CMD.META_GET_ALL, KV_CMD.META_PUT, KV_CMD.READ_BARRIER,
    KV_CMD.WRITE_BARRIER, KV_CMD_RETURN.GET, KV_CMD_RETURN.META_GET, KV_CMD_RETURN.META_GET_ALL,
    KV_CMD_RETURN.READ_BARRIER, KV_CMD_RETURN.WRITE_BARRIER, EOL_COMMAND]

/-- The three fields of a message. -/
structure Message where
  command : Bytes
  key : Key
  value : Value
  deriving DecidableEq

def serializeCmd (command : Bytes) (key : Key) (value : Value) : Bytes :=
  command ++ [COL_SEPARATOR] ++ key ++ [COL_SEPARATOR] ++ value

/-- Sizes are natural numbers, as the `int`s of the source are below 2^31. There
is no result where `strchr` returns a null pointer, on which the source goes on computing. -/
def deSerializeCmd (buf : Bytes) (len : Nat) : Option Message := do
  let cmdSize ← Bytes.strchr COL_SEPARATOR buf
  let command := buf.take cmdSize
  let cmdSize := cmdSize + 1
  let keySize ← Bytes.strchr COL_SEPARATOR (buf.drop cmdSize)
  let key := (buf.drop cmdSize).take keySize
  let keySize := keySize + 1
  let valSize := len - (keySize + cmdSize)
  some ⟨command, key, (buf.drop (cmdSize + keySize)).take valSize⟩

/-- A text that `strchr` reads as a whole field. -/
def Plain (text : Bytes) : Prop := COL_SEPARATOR ∉ text ∧ 0 ∉ text

instance : DecidablePred Plain := fun _ => inferInstanceAs (Decidable (_ ∧ _))

/-- No NUL hides the first separator of the key, or the one that follows the key. -/
def Framed (key : Key) : Prop := 0 ∉ key.takeWhile (· ≠ COL_SEPARATOR)

instance : DecidablePred Framed := fun _ => inferInstanceAs (Decidable (¬ _))

theorem plain_of_mem_commands : ∀ command ∈ commands, Plain command := by decide +kernel

theorem plain_dummy : Plain KV_DUMMY := by decide

/-- What a serialized message is read as: the command as sent, the key up to
its first separator, and in the value all that follows. -/
theorem deSerializeCmd_serializeCmd {command : Bytes} (plain : Plain command) (key : Key) (value : Value) :
    deSerializeCmd (serializeCmd command key value) (serializeCmd command key value).length =
      (Bytes.strchr COL_SEPARATOR (key ++ COL_SEPARATOR :: value)).map fun n =>
        ⟨command, (key ++ COL_SEPARATOR :: value).take n, (key ++ COL_SEPARATOR :: value).drop (n + 1)⟩ := by
  have whole : serializeCmd command key value = command ++ COL_SEPARATOR :: (key ++ COL_SEPARATOR :: value) := by
    simp [serializeCmd]
  generalize key ++ COL_SEPARATOR :: value = body at whole ⊢
  have behind : (serializeCmd command key value).drop (command.length + 1) = body := by rw [whole]; simp
  have front : (serializeCmd command key value).take command.length = command := by rw [whole]; simp
  have first : Bytes.strchr COL_SEPARATOR (serializeCmd command key value) = some command.length := by
    rw [whole, Bytes.strchr_append plain.1 plain.2]
  simp only [deSerializeCmd, first, Option.bind_eq_bind, Option.bind_some, behind, front]
  cases second : Bytes.strchr COL_SEPARATOR body with
  | none => rfl
  | some n =>
    have last : (serializeCmd command key value).drop (command.length + 1 + (n + 1)) = body.drop (n + 1) := by
      rw [← List.drop_drop, behind]
    have size : (serializeCmd command key value).length = command.length + 1 + body.length := by
      rw [whole, List.length_append, List.length_cons]
      omega
    have fits : (body.drop (n + 1)).length ≤ command.length + 1 + body.length - (n + 1 + (command.length + 1)) := by
      rw [List.length_drop]
      omega
    rw [Option.bind_some, Option.map_some, last, size, List.take_of_length_le fits]

theorem isSome_deSerializeCmd {command : Bytes} (plain : Plain command) (key : Key) (value : Value) :
    (deSerializeCmd (serializeCmd command key value) (serializeCmd command key value).length).isSome ↔ Framed key := by
  rw [deSerializeCmd_serializeCmd plain, Option.isSome_map, Bytes.strchr_isSome_iff, Framed]

/-- The command is never garbled, whatever the key and the value are. -/
theorem command_of_deSerializeCmd {command : Bytes} (plain : Plain command) {key : Key} {value : Value} {m : Message}
    (parsed : deSerializeCmd (serializeCmd command key value) (serializeCmd command key value).length = some m) :
    m.command = command ∧ Plain m.key := by
  rw [deSerializeCmd_serializeCmd plain] at parsed
  obtain ⟨n, found, rfl⟩ := Option.map_eq_some_iff.mp parsed
  obtain ⟨front, rest, whole, rfl, fresh, clean⟩ := Bytes.strchr_eq_some_iff.mp found
  refine ⟨rfl, ?_⟩
  rw [whole, List.take_left]
  exact ⟨fresh, clean⟩

theorem deSerializeCmd_plain {command : Bytes} (plain : Plain command) {key : Key} (plainKey : Plain key)
    (value : Value) :
    deSerializeCmd (serializeCmd command key value)
      (serializeCmd command key value).length = some ⟨command, key, value⟩ := by
  rw [deSerializeCmd_serializeCmd plain, Bytes.strchr_append plainKey.1 plainKey.2]
  simp

/-- A message comes back as it was sent exactly when its key holds neither a separator nor a NUL. -/
theorem deSerializeCmd_eq_sent_iff {command : Bytes} (known : command ∈ commands) (key : Key) (value : Value) :
    deSerializeCmd (serializeCmd command key value)
      (serializeCmd command key value).length = some ⟨command, key, value⟩ ↔
      COL_SEPARATOR ∉ key ∧ 0 ∉ key := by
  have plain := plain_of_mem_commands command known
  constructor
  · intro same
    exact (command_of_deSerializeCmd plain same).2
  · intro plainKey
    exact deSerializeCmd_plain plain plainKey value

theorem deSerializeCmd_eq_sent_plain :
    deSerializeCmd (serializeCmd KV_CMD.PUT [107] [59, 0]) (serializeCmd KV_CMD.PUT [107] [59, 0]).length =
      some ⟨KV_CMD.PUT, [107], [59, 0]⟩ :=
  (deSerializeCmd_eq_sent_iff (by decide +kernel) [107] [59, 0]).mpr (by decide)

/-- A put under `a;b` is read as a put under `a`, of a value that starts with `b;`. -/
theorem not_deSerializeCmd_eq_sent : ¬ ∀ command ∈ commands, ∀ (key : Key) (value : Value),
    (serializeCmd command key value).length < 2 ^ 31 →
      deSerializeCmd (serializeCmd command key value)
        (serializeCmd command key value).length = some ⟨command, key, value⟩ := by
  intro lossless
  have same := lossless KV_CMD.PUT (by decide +kernel) (ascii "a;b") [118] (by decide)
  revert same
  decide +kernel

end LSMIO
