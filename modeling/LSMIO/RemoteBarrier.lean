import LSMIO.BatchPrefix
import LSMIO.RemoteRead

namespace LSMIO

/-- The LevelDB store, every write of the database going through. -/
def StoreLDB.store : LSMIOStore StoreLDB where
  get := StoreLDB.get
  getPrefix s key := (true, s.db.toList.filter fun entry => key <+: entry.1)
  batchMutation s mType key value flush := s.batchMutation ⟨mType, key, value⟩ flush true true
  readBarrier s := s.readBarrier true
  writeBarrier s := s.writeBarrier true

/-- A store that only keeps the mutations made in it, oldest first. -/
def LSMIOStore.recorder : LSMIOStore (List Mutation) where
  get _ _ := none
  getPrefix _ _ := (true, [])
  batchMutation made mType key value _ := (true, made ++ [⟨mType, key, value⟩])
  readBarrier made := (true, made)
  writeBarrier made := (true, made)

/-- What a put or a deletion leaves under its key. -/
def Command.outcome : Command → Option (Key × Option Value)
  | .put key value => some (key, some value)
  | .del key => some (key, none)
  | _ => none

namespace LSMIOManager

section Client

variable {σ : Type*} (store : LSMIOStore σ) (alwaysFlush : Bool)

/-- The aggregator's store once it has handled a message of a client rank. -/
def delivered (m : LSMIOManager) (s : σ) (c : Command) : σ :=
  match received c.message.serialize with
  | some msg => (m.aggregator.handleCommand store alwaysFlush s m.aggRank msg).1
  | none => s

/-- `readBarrier`: the returned `bool`, and the store after it. -/
def readBarrier (m : LSMIOManager) (s : σ) : Option (Bool × σ) :=
  if m.isOpenLocal then some (store.readBarrier s)
  else (m.exchange store alwaysFlush s .readBarrier).map fun reply =>
    (reply.command == KV_CMD_RETURN.READ_BARRIER, m.delivered store alwaysFlush s .readBarrier)

/-- The key under which the aggregator stores a key of the rank. -/
def storedKey (m : LSMIOManager) (key : Key) : Key := m.aggregator.rankedKey m.aggRank key

/-- A put or a deletion made on the store itself. -/
def madeLocally (m : LSMIOManager) (s : σ) : Command → σ
  | .put key value => (store.put s (m.storedKey key) value alwaysFlush).2
  | .del key => (store.del s (m.storedKey key) alwaysFlush).2
  | _ => s

variable {store} {alwaysFlush} {m : LSMIOManager}

theorem delivered_eq_madeLocally {c : Command} (mutates : c.outcome.isSome) (plain : Plain c.message.key) (s : σ) :
    m.delivered store alwaysFlush s c = m.madeLocally store alwaysFlush s c := by
  rw [delivered, Message.received_serialize c.plain_message_command plain]
  cases c with
  | put key value => rfl
  | del key => rfl
  | _ => cases mutates

/-- The remote barrier is answered, and the store stays as it was. -/
theorem readBarrier_remote (remote : m.isOpenRemote = true) (s : σ) :
    m.readBarrier store alwaysFlush s = some (true, s) := by
  rw [readBarrier, isOpenLocal_of_remote remote, if_neg Bool.false_ne_true, exchange_eq (c := .readBarrier) plain_dummy,
    delivered, Message.received_serialize Command.readBarrier.plain_message_command plain_dummy]
  rfl

theorem foldl_delivered {cs : List Command} (mutate : ∀ c ∈ cs, c.outcome.isSome ∧ Plain c.message.key) (s : σ) :
    cs.foldl (m.delivered store alwaysFlush) s = cs.foldl (m.madeLocally store alwaysFlush) s := by
  refine List.foldl_ext _ _ s fun s c member => ?_
  exact delivered_eq_madeLocally (mutate c member).1 (mutate c member).2 s

theorem storedKey_injective : Function.Injective m.storedKey := by
  intro key other same
  unfold storedKey rankedKey at same
  split at same
  · exact List.append_cancel_left same
  · exact same

end Client

/-- A rank's puts and deletions, then a read barrier that returns `true`, and
then a `get`: it reports `expected`. -/
def BarrierReads {σ : Type*} (store : LSMIOStore σ) (alwaysFlush : Bool) (m : LSMIOManager) (first : σ)
    (cs : List Command) (key : Key) (value : Value) (expected : Option Value) : Prop :=
  ∀ s, m.readBarrier store alwaysFlush (cs.foldl (m.delivered store alwaysFlush) first) = some (true, s) →
    Reports (m.get store alwaysFlush s key value) expected

/-- The mutations that the aggregator makes in its store as it handles the commands. -/
def issued (alwaysFlush : Bool) (m : LSMIOManager) (cs : List Command) : List Mutation :=
  cs.foldl (m.delivered .recorder alwaysFlush) []

/-- What the same calls and a local barrier leave for a local `get`. -/
def readLocally {σ : Type*} (store : LSMIOStore σ) (alwaysFlush : Bool) (m : LSMIOManager) (first : σ)
    (cs : List Command) (key : Key) : Option Value :=
  store.get (store.readBarrier (cs.foldl (m.madeLocally store alwaysFlush) first)).2 (m.storedKey key)

/-- The value of the last put to the key, nothing after a deletion, and before any of them what there was. -/
def lastPut (had : Option Value) (cs : List Command) (key : Key) : Option Value :=
  (lastValue (cs.filterMap Command.outcome) key).getD had

end LSMIOManager

theorem reports_remote_iff (found expected : Option Value) :
    Reports (some (true, found.getD [])) expected ↔ expected = some (found.getD []) := by
  cases expected with
  | none => simp [Reports]
  | some v =>
    simp only [Reports, Option.some.injEq, Prod.mk.injEq, true_and, Option.map_some]
    exact ⟨fun same => ((same.1 v).mpr rfl).symm, fun same => ⟨fun w => by rw [same], by simp⟩⟩

namespace LSMIOManager

variable {alwaysFlush : Bool} {m : LSMIOManager} {cs : List Command} {key : Key}

/-- A remote barrier reads `expected` exactly when the store shows it without a barrier. -/
theorem barrierReads_iff {σ : Type*} {store : LSMIOStore σ} (remote : m.isOpenRemote = true)
    (mutate : ∀ c ∈ cs, c.outcome.isSome ∧ Plain c.message.key) (plain : Plain key) (first : σ) (value : Value)
    (expected : Option Value) : BarrierReads store alwaysFlush m first cs key value expected ↔
      expected = some ((store.get (cs.foldl (m.madeLocally store alwaysFlush) first) (m.storedKey key)).getD []) := by
  rw [BarrierReads, foldl_delivered mutate, readBarrier_remote remote]
  simp only [Option.some.injEq, Prod.mk.injEq, true_and, forall_eq']
  rw [get_remote remote plain]
  exact reports_remote_iff _ _

/-- The mutation that a command makes in the aggregator's store. -/
def mutation (m : LSMIOManager) : Command → Option Mutation
  | .put key value => some (.put (m.storedKey key) value)
  | .del key => some (.del (m.storedKey key))
  | _ => none

theorem issued_eq (mutate : ∀ c ∈ cs, c.outcome.isSome ∧ Plain c.message.key) :
    m.issued alwaysFlush cs = cs.filterMap m.mutation := by
  rw [issued, foldl_delivered mutate]
  clear mutate
  induction cs using List.reverseRecOn with
  | nil => rfl
  | append_singleton cs c ih =>
    rw [List.foldl_append, List.foldl_cons, List.foldl_nil, List.filterMap_snoc, ih]
    cases c with
    | put other value => rfl
    | del other => rfl
    | _ => exact (List.append_nil _).symm

/-- The calls change a store by the mutations they make. -/
theorem foldl_madeLocally {σ : Type*} {store : LSMIOStore σ} (first : σ) :
    cs.foldl (m.madeLocally store alwaysFlush) first = (cs.filterMap m.mutation).foldl
      (fun s mutation => (store.batchMutation s mutation.mType mutation.key mutation.value alwaysFlush).2) first := by
  induction cs using List.reverseRecOn with
  | nil => rfl
  | append_singleton cs c ih =>
    rw [List.foldl_append, List.foldl_cons, List.foldl_nil, List.filterMap_snoc, ih, List.foldl_append]
    cases c with
    | put other value => rfl
    | del other => rfl
    | _ => rfl

theorem lastOutcome_mutation (key : Key) :
    lastOutcome (cs.filterMap m.mutation) (m.storedKey key) = lastValue (cs.filterMap Command.outcome) key := by
  unfold lastOutcome
  induction cs using List.reverseRecOn with
  | nil => rfl
  | append_singleton cs c ih =>
    rw [List.filterMap_snoc, List.filterMap_snoc, List.map_append, lastValue_append, ih, lastValue_append]
    congr 1
    have single : ∀ (other : Key) (outcome : Option Value), lastValue [(m.storedKey other, outcome)] (m.storedKey key) =
        lastValue [(other, outcome)] key := by
      intro other outcome
      have stored := lastValue_concat [] (m.storedKey other, outcome) (m.storedKey key)
      have own := lastValue_concat [] (other, outcome) key
      rw [List.nil_append] at stored own
      rw [stored, own]
      simp [storedKey_injective.eq_iff]
    cases c with
    | put other value => exact single other (some value)
    | del other => exact single other none
    | _ => rfl

/-- Where the writes settle as on a map, a local barrier makes the last put readable. -/
theorem getElem?_madeLocally_ofMap (first : LSMIOStore.StoreMap) :
    (cs.foldl (m.madeLocally .ofMap alwaysFlush) first)[m.storedKey key]? = lastPut first[m.storedKey key]? cs key := by
  have applied : cs.foldl (m.madeLocally .ofMap alwaysFlush) first = applyAll first (cs.filterMap m.mutation) := by
    rw [foldl_madeLocally, applyAll]
    refine List.foldl_ext _ _ first fun map mutation _ => ?_
    obtain ⟨mType, other, value⟩ := mutation
    cases mType <;> rfl
  rw [applied, getElem?_applyAll, lastOutcome_mutation]
  rfl

end LSMIOManager

end LSMIO
