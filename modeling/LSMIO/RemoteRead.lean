import LSMIO.Manager

namespace LSMIO

namespace LSMIOManager

section Client

variable {σ : Type*} (store : LSMIOStore σ) (alwaysFlush : Bool)

/-- A request of a client rank, handled by the aggregator whose store is in
the given state, with the reply as `recvCommand` reads it. -/
def exchange (m : LSMIOManager) (s : σ) (c : Command) : Option Message := do
  let msg ← received c.message.serialize
  let back ← (m.aggregator.handleCommand store alwaysFlush s m.aggRank msg).2
  received back.serialize

/-- A read of one key: the returned `bool` and what `*value` holds after it,
from what the store finds locally or from the reply to the request. -/
def readKey (m : LSMIOManager) (s : σ) (found : Option Value) (request : Command) (back : Bytes) (value : Value) :
    Option (Bool × Value) :=
  if m.isOpenLocal then some (found.isSome, found.getD value)
  else (m.exchange store alwaysFlush s request).map fun reply => (reply.command == back, reply.value)

def get (m : LSMIOManager) (s : σ) (key : Key) (value : Value) : Option (Bool × Value) :=
  m.readKey store alwaysFlush s (store.get s (m.rankedKey m.aggRank key)) (.get key) KV_CMD_RETURN.GET value

def metaGet (m : LSMIOManager) (s : σ) (key : Key) (value : Value) : Option (Bool × Value) :=
  m.readKey store alwaysFlush s (store.metaGet s (m.rankedKey m.aggRank key))
    (.metaGet key) KV_CMD_RETURN.META_GET value

end Client

end LSMIOManager

/-- A read reports what the store has: `true` with exactly the stored value, `false` exactly for an absent key. -/
def Reports (result : Option (Bool × Value)) (found : Option Value) : Prop :=
  (∀ v, result = some (true, v) ↔ found = some v) ∧ (result.map Prod.fst = some false ↔ found = none)

namespace LSMIOManager

section Client

variable {σ : Type*} {store : LSMIOStore σ} {alwaysFlush : Bool} {m : LSMIOManager}

theorem isOpenLocal_of_remote (remote : m.isOpenRemote = true) : m.isOpenLocal = false := by
  simp only [isOpenRemote, Bool.and_eq_true, bne_iff_ne] at remote
  simp [isOpenLocal, remote.1, remote.2]

theorem isOpenRemote_of_not_local (remote : m.isOpenLocal = false) : m.isOpenRemote = true := by
  simp only [isOpenLocal, Bool.or_eq_false_iff, Bool.not_eq_false', beq_eq_false_iff_ne] at remote
  simp [isOpenRemote, remote.1, remote.2]

/-- Where the request is read back as it was sent, the client gets the reply that the aggregator made. -/
theorem exchange_eq {c : Command} (plain : Plain c.message.key) (s : σ) :
    m.exchange store alwaysFlush s c = (m.aggregator.handleCommand store alwaysFlush s m.aggRank c.message).2 := by
  rw [exchange, Message.received_serialize c.plain_message_command plain, Option.bind_eq_bind, Option.bind_some]
  cases answer : (m.aggregator.handleCommand store alwaysFlush s m.aggRank c.message).2 with
  | none => rfl
  | some reply =>
    obtain ⟨back, answered, rfl⟩ := Option.map_eq_some_iff.mp answer
    exact Message.received_serialize (plain_replyCommand answered) plain

/-- A remote read returns `true` in every case, and the empty value for an absent key. -/
theorem get_remote (remote : m.isOpenRemote = true) {key : Key} (plain : Plain key) (s : σ) (value : Value) :
    m.get store alwaysFlush s key value =
      some (true, (store.get s (m.aggregator.rankedKey m.aggRank key)).getD []) := by
  rw [get, readKey, isOpenLocal_of_remote remote, if_neg Bool.false_ne_true, exchange_eq (c := .get key) plain]
  rfl

theorem metaGet_remote (remote : m.isOpenRemote = true) {key : Key} (plain : Plain key) (s : σ) (value : Value) :
    m.metaGet store alwaysFlush s key value =
      some (true, (store.metaGet s (m.aggregator.rankedKey m.aggRank key)).getD []) := by
  rw [metaGet, readKey, isOpenLocal_of_remote remote, if_neg Bool.false_ne_true, exchange_eq (c := .metaGet key) plain]
  rfl

end Client

end LSMIOManager

/-- A read that cannot fail reports what the store has exactly when the store has something. -/
theorem reports_getD_iff (found : Option Value) : Reports (some (true, found.getD [])) found ↔ found.isSome := by
  cases found with
  | none => simp [Reports]
  | some v => simp [Reports]

namespace LSMIOManager

/-- A client's reads agree with the aggregator's own on a key exactly when the
store holds the key, as data for `get` and as metadata for `metaGet`. -/
theorem remoteRead_agrees_iff {σ : Type*} (store : LSMIOStore σ) (alwaysFlush : Bool) (m : LSMIOManager) (s : σ)
    {key : Key} (value : Value) (remote : m.isOpenRemote = true) (plain : Plain key) :
    (Reports (m.get store alwaysFlush s key value) (store.get s (m.aggregator.rankedKey m.aggRank key)) ↔
        (store.get s (m.aggregator.rankedKey m.aggRank key)).isSome) ∧
      (Reports (m.metaGet store alwaysFlush s key value) (store.metaGet s (m.aggregator.rankedKey m.aggRank key)) ↔
        (store.metaGet s (m.aggregator.rankedKey m.aggRank key)).isSome) := by
  rw [get_remote remote plain, metaGet_remote remote plain]
  exact ⟨reports_getD_iff _, reports_getD_iff _⟩

theorem remoteRead_agrees_stored :
    Reports (LSMIOManager.get .ofMap true ⟨true, 1, 2⟩ ((∅ : LSMIOStore.StoreMap).insert (ascii "1::k") [7]) [107] [9])
      (some [7]) :=
  (remoteRead_agrees_iff .ofMap true ⟨true, 1, 2⟩ ((∅ : LSMIOStore.StoreMap).insert (ascii "1::k") [7]) [9] rfl
    (by decide)).1.mpr (by decide +kernel)

/-- On an empty store the second rank reads a key it never put, and `get` returns `true`. -/
theorem not_remoteRead_agrees : ¬ ∀ (s : LSMIOStore.StoreMap) (m : LSMIOManager) (key : Key) (value : Value),
    m.isOpenRemote = true → Plain key →
      Reports (m.get .ofMap true s key value) (LSMIOStore.ofMap.get s (m.aggregator.rankedKey m.aggRank key)) ∧
        Reports (m.metaGet .ofMap true s key value)
          (LSMIOStore.ofMap.metaGet s (m.aggregator.rankedKey m.aggRank key)) := by
  intro always
  have absent : LSMIOStore.ofMap.get (∅ : LSMIOStore.StoreMap)
    ((LSMIOManager.mk true 1 2).aggregator.rankedKey 1 [107]) = none := by
    decide +kernel
  have succeeds : (LSMIOManager.mk true 1 2).get .ofMap true ∅ [107] [] = some (true, []) := by decide +kernel
  obtain ⟨⟨-, reported⟩, -⟩ := always ∅ ⟨true, 1, 2⟩ [107] [] rfl (by decide)
  have failed := reported.mpr absent
  rw [succeeds] at failed
  cases failed

end LSMIOManager

end LSMIO
