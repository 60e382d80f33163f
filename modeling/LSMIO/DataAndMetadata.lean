import LSMIO.CollectiveIsolation
import LSMIO.Deferring

namespace LSMIO

open LSMIOStore (StoreMap metaPrefix)

/-- Two stores with the same metadata, of whatever rank. -/
def SameMetadata (s t : StoreMap) : Prop := ∀ key, metaPrefix <+: key → s[key]? = t[key]?

/-- Two stores with the same data, of whatever rank. -/
def SameData (s t : StoreMap) : Prop := ∀ key, ¬ metaPrefix <+: key → s[key]? = t[key]?

namespace LSMIOManager

/-- The stored name of a key is no name of metadata: a rank stands in front of it, or the key is none itself. -/
def NamesData (m : LSMIOManager) (key : Key) : Prop := m.aggregator.isServeLocal = true ∨ ¬ metaPrefix <+: key

instance (m : LSMIOManager) (key : Key) : Decidable (m.NamesData key) := inferInstanceAs (Decidable (_ ∨ _))

/-- The managers of the ranks of one communicator, served by one aggregator. -/
def Peer (m other : LSMIOManager) : Prop := other.aggregator = m.aggregator ∧ other.Joined

variable {m : LSMIOManager} {alwaysFlush : Bool} {s t : StoreMap}

theorem not_metaPrefix_rankedKey {key : Key} (named : m.NamesData key) (rank : Nat) :
    ¬ metaPrefix <+: m.aggregator.rankedKey rank key := by
  rw [rankedKey]
  split
  next =>
    rintro ⟨rest, same⟩
    rw [List.append_assoc] at same
    exact digits_append_ne_metaPrefix _ _ _ same.symm
  next silent => exact named.resolve_left silent

/-- The answer to a request depends on the store through the reply to the message that is read. -/
theorem exchange_congr {c : Command} (same : ∀ msg : Message, msg.command = c.message.command →
    (m.aggregator.handleCommand .ofMap alwaysFlush s m.aggRank msg).2 =
      (m.aggregator.handleCommand .ofMap alwaysFlush t m.aggRank msg).2) :
    m.exchange .ofMap alwaysFlush s c = m.exchange .ofMap alwaysFlush t c := by
  unfold exchange
  cases parsed : received c.message.serialize with
  | none => rfl
  | some msg =>
    have command := (command_of_deSerializeCmd c.plain_message_command parsed).1
    simp only [Option.bind_eq_bind, Option.bind_some, same msg command]

theorem metaGet_congr (same : SameMetadata s t) (key : Key) (value : Value) :
    m.metaGet .ofMap alwaysFlush s key value = m.metaGet .ofMap alwaysFlush t key value := by
  have stored : ∀ name, LSMIOStore.ofMap.metaGet s name = LSMIOStore.ofMap.metaGet t name := fun name =>
    same _ (List.prefix_append metaPrefix name)
  have other : KV_CMD.META_GET ∉ [KV_CMD.GET, KV_CMD.PUT, KV_CMD.DEL] := by decide +kernel
  simp only [List.mem_cons, List.not_mem_nil, or_false, not_or] at other
  rw [metaGet, metaGet, readKey, readKey, stored]
  split
  · rfl
  · refine congrArg _ (exchange_congr fun msg command => ?_)
    simp only [handleCommand, callbackForCollectiveIO, command, Command.message, other, if_false, if_true, stored]

theorem storeMetaGetAll_congr (same : SameMetadata s t) (inFix : Bytes) :
    LSMIOStore.ofMap.metaGetAll s inFix = LSMIOStore.ofMap.metaGetAll t inFix := by
  have agree : ∀ key, decide (metaPrefix ++ inFix <+: key) = true → s[key]? = t[key]? := fun key held =>
    same key ((List.prefix_append metaPrefix inFix).trans (of_decide_eq_true held))
  exact congrArg (Prod.mk true) (OrderedMap.filter_toList_congr agree)

theorem metaGetAll_congr (same : SameMetadata s t) (values : List (Key × Value)) (inFix : Bytes) :
    m.metaGetAll .ofMap alwaysFlush s values inFix = m.metaGetAll .ofMap alwaysFlush t values inFix := by
  have other : KV_CMD.META_GET_ALL ∉ [KV_CMD.GET, KV_CMD.PUT, KV_CMD.DEL, KV_CMD.META_GET] := by decide +kernel
  simp only [List.mem_cons, List.not_mem_nil, or_false, not_or] at other
  rw [metaGetAll, metaGetAll, storeMetaGetAll_congr same]
  split
  · rfl
  · refine congrArg _ (exchange_congr fun msg command => ?_)
    simp only [handleCommand, callbackForCollectiveIO, command, Command.message, other, if_false, if_true,
      storeMetaGetAll_congr same]

theorem get_congr (same : SameData s t) (joined : m.Joined) {key : Key} (named : m.NamesData key) (value : Value) :
    m.get .ofMap alwaysFlush s key value = m.get .ofMap alwaysFlush t key value := by
  have stored : ∀ (rank : Nat) (name : Key), m.NamesData name →
      LSMIOStore.ofMap.get s (m.aggregator.rankedKey rank name) =
        LSMIOStore.ofMap.get t (m.aggregator.rankedKey rank name) := fun rank name named =>
    same _ (not_metaPrefix_rankedKey named rank)
  rw [get, get, readKey, readKey]
  cases opened : m.isOpenLocal with
  | true => rw [if_pos rfl, if_pos rfl, rankedKey_of_local opened, stored _ _ named]
  | false =>
    rw [if_neg Bool.false_ne_true, if_neg Bool.false_ne_true]
    refine congrArg _ (exchange_congr fun msg command => ?_)
    have serves := serves_of_remote joined opened
    simp only [handleCommand, callbackForCollectiveIO, command, Command.message, if_true,
      stored _ msg.key (.inl serves)]

/-- A mutation of data leaves the metadata. -/
theorem sameMetadata_batchMutation {name : Key} (data : ¬ metaPrefix <+: name) (s : StoreMap) (mType : MutationType)
    (value : Value) (flush : Bool) : SameMetadata (LSMIOStore.ofMap.batchMutation s mType name value flush).2 s := by
  intro key metadata
  have elsewhere : name ≠ key := fun same => data (same ▸ metadata)
  rw [getElem?_batchMutation, if_neg elsewhere]

/-- A mutation of metadata leaves the data. -/
theorem sameData_metaPut (s : StoreMap) (name : Key) (value : Value) (flush : Bool) :
    SameData (LSMIOStore.ofMap.metaPut s name value flush).2 s := by
  intro key data
  have elsewhere : metaPrefix ++ name ≠ key := fun same => data (same ▸ List.prefix_append _ _)
  rw [LSMIOStore.metaPut, LSMIOStore.put, getElem?_batchMutation, if_neg elsewhere]

section Reads

variable {σ : Type*} (store : LSMIOStore σ) (alwaysFlush : Bool) (m : LSMIOManager)

/-- No rank reads other metadata in the one state of the store than in the other. -/
def SameMetadataReads (s t : σ) : Prop := ∀ other, m.Peer other →
  (∀ name old, other.metaGet store alwaysFlush t name old = other.metaGet store alwaysFlush s name old) ∧
    ∀ values inFix,
      other.metaGetAll store alwaysFlush t values inFix = other.metaGetAll store alwaysFlush s values inFix

/-- No rank reads other data under the key in the one state of the store than in the other. -/
def SameDataReads (key : Key) (s t : σ) : Prop := ∀ other, m.Peer other → ∀ old,
  other.get store alwaysFlush t key old = other.get store alwaysFlush s key old

/-- Writes of data under the key leave what any rank reads of the metadata, and
writes of metadata leave what any rank reads under the key. -/
structure Separated (key : Key) (s : σ) : Prop where
  put : ∀ value flush ok t, m.put store alwaysFlush s key value flush = some (ok, t) →
    m.SameMetadataReads store alwaysFlush s t
  del : ∀ flush ok t, m.del store alwaysFlush s key flush = some (ok, t) → m.SameMetadataReads store alwaysFlush s t
  metaPut : ∀ name value flush ok t, m.metaPut store alwaysFlush s name value flush = some (ok, t) →
    m.SameDataReads store alwaysFlush key s t

end Reads

/-- A write under the key gets to the store: it is made at the aggregator's rank, or its message can be read. -/
def Sends (m : LSMIOManager) (key : Key) : Prop := m.isOpenLocal = true ∨ Framed key

section Writes

variable {σ : Type*} {store : LSMIOStore σ} {s t : σ} {key : Key} {value : Value} {flush ok : Bool}

/-- A write is made at this rank, or by the aggregator for the message that was sent as it is read. -/
theorem write_cases {here : Bool × σ} {c : Command}
    (done : (if m.isOpenLocal then some here else m.sendWrite store alwaysFlush s c) = some (ok, t)) :
    m.isOpenLocal = true ∧ t = here.2 ∨
      m.isOpenLocal = false ∧ Framed c.message.key ∧ ∃ msg : Message, msg.command = c.message.command ∧
        t = (m.aggregator.handleCommand store alwaysFlush s m.aggRank msg).1 := by
  cases opened : m.isOpenLocal with
  | true =>
    rw [if_pos opened] at done
    cases done
    exact .inl ⟨rfl, rfl⟩
  | false =>
    rw [if_neg (by simp [opened])] at done
    obtain ⟨msg, parsed, result⟩ := Option.map_eq_some_iff.mp done
    cases result
    have framed := (isSome_deSerializeCmd c.plain_message_command c.message.key c.message.value).mp (by
      exact Option.isSome_iff_exists.mpr ⟨msg, parsed⟩)
    exact .inr ⟨rfl, framed, msg, (command_of_deSerializeCmd c.plain_message_command parsed).1, rfl⟩

/-- A put or a deletion that is made is a mutation under a name of data. -/
theorem write_mutates {mType : MutationType} {c : Command} (joined : m.Joined) (named : m.NamesData key)
    (sent : c.message.key = key) (handled : ∀ msg : Message, msg.command = c.message.command → ∃ value,
      (m.aggregator.handleCommand store alwaysFlush s m.aggRank msg).1 =
        (store.batchMutation s mType (m.aggregator.rankedKey m.aggRank msg.key) value alwaysFlush).2)
    (done : (if m.isOpenLocal then some (store.batchMutation s mType (m.rankedKey m.aggRank key) value flush)
      else m.sendWrite store alwaysFlush s c) = some (ok, t)) :
    m.Sends key ∧ ∃ name value flush, ¬ metaPrefix <+: name ∧ t = (store.batchMutation s mType name value flush).2 := by
  rcases write_cases done with ⟨opened, rfl⟩ | ⟨remote, framed, msg, command, rfl⟩
  · rw [rankedKey_of_local opened]
    exact ⟨.inl opened, _, value, flush, not_metaPrefix_rankedKey named m.aggRank, rfl⟩
  · obtain ⟨value, result⟩ := handled msg command
    refine ⟨.inr (sent ▸ framed), _, value, alwaysFlush, ?_, result⟩
    exact not_metaPrefix_rankedKey (.inl (serves_of_remote joined remote)) _

theorem put_mutates (joined : m.Joined) (named : m.NamesData key)
    (done : m.put store alwaysFlush s key value flush = some (ok, t)) :
    m.Sends key ∧ ∃ name value flush, ¬ metaPrefix <+: name ∧ t = (store.batchMutation s .put name value flush).2 := by
  have other : KV_CMD.PUT ≠ KV_CMD.GET := by decide +kernel
  refine write_mutates (c := .put key value) joined named rfl (fun msg command => ⟨msg.value, ?_⟩) done
  simp only [handleCommand, callbackForCollectiveIO, command, Command.message, other, if_false, if_true]
  rfl

theorem del_mutates (joined : m.Joined) (named : m.NamesData key)
    (done : m.del store alwaysFlush s key flush = some (ok, t)) :
    m.Sends key ∧ ∃ name value flush, ¬ metaPrefix <+: name ∧ t = (store.batchMutation s .del name value flush).2 := by
  have other : KV_CMD.DEL ∉ [KV_CMD.GET, KV_CMD.PUT] := by decide +kernel
  simp only [List.mem_cons, List.not_mem_nil, or_false, not_or] at other
  refine write_mutates (c := .del key) joined named rfl (fun msg command => ⟨[], ?_⟩) done
  simp only [handleCommand, callbackForCollectiveIO, command, Command.message, other, if_false, if_true]
  rfl

theorem metaPut_mutates {name : Key} (done : m.metaPut store alwaysFlush s name value flush = some (ok, t)) :
    ∃ name value flush, t = (store.metaPut s name value flush).2 := by
  have other : KV_CMD.META_PUT ∉ [KV_CMD.GET, KV_CMD.PUT, KV_CMD.DEL, KV_CMD.META_GET, KV_CMD.META_GET_ALL] := by
    decide +kernel
  simp only [List.mem_cons, List.not_mem_nil, or_false, not_or] at other
  rcases write_cases done with ⟨-, rfl⟩ | ⟨-, -, msg, command, rfl⟩
  · exact ⟨_, value, flush, rfl⟩
  · simp only [handleCommand, callbackForCollectiveIO, command, Command.message, other, if_false, if_true]
    exact ⟨_, msg.value, alwaysFlush, rfl⟩

/-- A client's put whose message can be read is one of the aggregator, of a value that is no shorter. -/
theorem put_of_framed (store : LSMIOStore σ) (alwaysFlush : Bool) (s : σ) (remote : m.isOpenLocal = false)
    (framed : Framed key) (value : Value) (flush : Bool) :
    ∃ name value', value.length ≤ value'.length ∧ m.put store alwaysFlush s key value flush =
      some (true, (store.put s (m.aggregator.rankedKey m.aggRank name) value' alwaysFlush).2) := by
  obtain ⟨n, found⟩ := Option.isSome_iff_exists.mp ((Bytes.strchr_isSome_iff key value).mpr framed)
  have read : received (Command.put key value).message.serialize = _ :=
    (deSerializeCmd_serializeCmd (Command.put key value).plain_message_command key value).trans
      (by rw [found, Option.map_some])
  obtain ⟨front, rest, whole, length, fresh, -⟩ := Bytes.strchr_eq_some_iff.mp found
  have early : n ≤ key.length := by
    rcases List.append_eq_append_iff.mp whole with ⟨more, rfl, behind⟩ | ⟨more, rfl, -⟩
    · cases more with
      | nil => simp [← length]
      | cons b more =>
        obtain ⟨rfl, -⟩ := List.cons.inj behind
        simp at fresh
    · simp [← length]
  refine ⟨(key ++ COL_SEPARATOR :: value).take n, (key ++ COL_SEPARATOR :: value).drop (n + 1), ?_, ?_⟩
  · rw [List.length_drop, List.length_append, List.length_cons]
    omega
  · have other : KV_CMD.PUT ≠ KV_CMD.GET := by decide +kernel
    rw [put, remote, if_neg Bool.false_ne_true, sendWrite, read, Option.map_some]
    simp only [handleCommand, callbackForCollectiveIO, Command.message, other, if_false, if_true]

end Writes

section Deferring

variable {σ : Type*} {store : LSMIOStore σ} {shown settled : σ → StoreMap} (deferring : store.Deferring shown settled)
variable {s : σ} {key : Key}

include deferring

theorem sameMetadataReads_shown (s t : σ) :
    m.SameMetadataReads store alwaysFlush s t ↔ m.SameMetadataReads .ofMap alwaysFlush (shown s) (shown t) := by
  simp only [SameMetadataReads, metaGet_shown deferring, metaGetAll_shown deferring]

theorem sameDataReads_shown (key : Key) (s t : σ) :
    m.SameDataReads store alwaysFlush key s t ↔ m.SameDataReads .ofMap alwaysFlush key (shown s) (shown t) := by
  simp only [SameDataReads, get_shown deferring]

/-- A mutation of data changes nothing that is read of the metadata, unless by what it brings to light. -/
theorem sameMetadataReads_mutation {name : Key} (data : ¬ metaPrefix <+: name)
    (pending : m.SameMetadataReads .ofMap alwaysFlush (shown s) (settled s)) (mType : MutationType) (value : Value)
    (flush : Bool) :
    m.SameMetadataReads store alwaysFlush s (store.batchMutation s mType name value flush).2 := by
  rw [sameMetadataReads_shown deferring]
  rcases deferring.moved s mType name value flush with same | drained | drained
  · rw [same]
    exact fun _ _ => ⟨fun _ _ => rfl, fun _ _ => rfl⟩
  · rwa [drained]
  · have kept := sameMetadata_batchMutation data (settled s) mType value flush
    rw [drained, deferring.mutated]
    exact fun other peer => ⟨fun name old => (metaGet_congr kept name old).trans ((pending other peer).1 name old),
      fun values inFix => (metaGetAll_congr kept values inFix).trans ((pending other peer).2 values inFix)⟩

/-- A mutation of metadata changes nothing that is read under a key of data, unless by what it brings to light. -/
theorem sameDataReads_mutation (named : m.NamesData key)
    (pending : m.SameDataReads .ofMap alwaysFlush key (shown s) (settled s)) (name : Key) (value : Value)
    (flush : Bool) :
    m.SameDataReads store alwaysFlush key s (store.metaPut s name value flush).2 := by
  rw [sameDataReads_shown deferring]
  rcases deferring.moved s .put (metaPrefix ++ name) value flush with same | drained | drained
  · rw [LSMIOStore.metaPut, LSMIOStore.put, same]
    exact fun _ _ _ => rfl
  · rwa [LSMIOStore.metaPut, LSMIOStore.put, drained]
  · have kept := sameData_metaPut (settled s) name value flush
    rw [LSMIOStore.metaPut, LSMIOStore.put, drained, deferring.mutated]
    intro other peer old
    have namedThere : other.NamesData key := by rwa [NamesData, peer.1]
    exact (get_congr kept peer.2 namedThere old).trans (pending other peer old)

/-- Data and metadata are kept apart where the key names data and nothing pends that a write could bring to light. -/
theorem Separated.of_pending (joined : m.Joined) (named : m.NamesData key)
    (metadata : m.Sends key → m.SameMetadataReads .ofMap alwaysFlush (shown s) (settled s))
    (data : m.SameDataReads .ofMap alwaysFlush key (shown s) (settled s)) : m.Separated store alwaysFlush key s where
  put value flush ok t done := by
    obtain ⟨sends, name, value, flush, isData, rfl⟩ := put_mutates joined named done
    exact sameMetadataReads_mutation deferring isData (metadata sends) .put value flush
  del flush ok t done := by
    obtain ⟨sends, name, value, flush, isData, rfl⟩ := del_mutates joined named done
    exact sameMetadataReads_mutation deferring isData (metadata sends) .del value flush
  metaPut name value flush ok t done := by
    obtain ⟨name, value, flush, rfl⟩ := metaPut_mutates done
    exact sameDataReads_mutation deferring named data name value flush

/-- Two puts of a key that names metadata, of different values, cannot both leave the metadata as it was. -/
theorem Separated.namesData (joined : m.Joined) (separated : m.Separated store alwaysFlush key s) :
    m.NamesData key := by
  by_contra clash
  obtain ⟨alone, name, rfl⟩ : m.aggregator.isServeLocal = false ∧ metaPrefix <+: key := by simpa [NamesData] using clash
  have opened : m.isOpenLocal = true := by
    by_contra remote
    rw [serves_of_remote joined (by simpa using remote)] at alone
    cases alone
  have plainName : ∀ other, m.rankedKey m.aggRank other = other := fun other => by
    rw [rankedKey_of_local opened, rankedKey, alone, if_neg Bool.false_ne_true]
  have reads : ∀ value, m.metaGet store alwaysFlush s name [] = some (true, value) := by
    intro value
    have stored : m.put store alwaysFlush s (metaPrefix ++ name) value true =
        some (store.put s (metaPrefix ++ name) value true) := by
      rw [LSMIOManager.put, if_pos opened, plainName]
    have kept := (separated.put value true _ (store.put s (metaPrefix ++ name) value true).2 stored m
      ⟨rfl, joined⟩).1 name []
    rw [← kept, metaGet_shown deferring, LSMIOStore.put, deferring.flushed, deferring.mutated, metaGet, readKey,
      if_pos opened, plainName]
    simp [LSMIOStore.metaGet, LSMIOStore.ofMap]
  have same := (reads []).symm.trans (reads [0])
  cases same

section Drains

variable {n : Nat} (drains : ∀ name value, n ≤ value.length →
    shown (store.batchMutation s .put name value alwaysFlush).2 =
      settled (store.batchMutation s .put name value alwaysFlush).2)

include drains

/-- Some put of data under the key brings to light all that pends. -/
theorem exists_draining_put (joined : m.Joined) (named : m.NamesData key) (sends : m.Sends key) :
    ∃ name value flush ok, ¬ metaPrefix <+: name ∧
      shown (store.put s name value flush).2 = settled (store.put s name value flush).2 ∧
      m.put store alwaysFlush s key (List.replicate n 0) true = some (ok, (store.put s name value flush).2) := by
  cases opened : m.isOpenLocal with
  | true =>
    refine ⟨m.aggregator.rankedKey m.aggRank key, List.replicate n 0, true,
      (store.put s (m.aggregator.rankedKey m.aggRank key) (List.replicate n 0) true).1,
      not_metaPrefix_rankedKey named _, deferring.flushed _ _ _ _, ?_⟩
    rw [LSMIOManager.put, if_pos opened, rankedKey_of_local opened]
  | false =>
    have framed : Framed key := sends.resolve_left (by simp [opened])
    obtain ⟨name, value, longer, done⟩ := put_of_framed store alwaysFlush s opened framed (List.replicate n 0) true
    have padding : n ≤ value.length := List.length_replicate.ge.trans longer
    exact ⟨_, value, alwaysFlush, true, not_metaPrefix_rankedKey (.inl (serves_of_remote joined opened)) _,
      drains _ value padding, done⟩

/-- Some put of metadata brings to light all that pends. -/
theorem exists_draining_metaPut (m : LSMIOManager) : ∃ name flush ok,
    shown (store.metaPut s name (List.replicate n 0) flush).2 =
        settled (store.metaPut s name (List.replicate n 0) flush).2 ∧
      m.metaPut store alwaysFlush s [] (List.replicate n 0) true =
        some (ok, (store.metaPut s name (List.replicate n 0) flush).2) := by
  cases opened : m.isOpenLocal with
  | true =>
    refine ⟨m.rankedKey m.aggRank [], true, (store.metaPut s (m.rankedKey m.aggRank []) (List.replicate n 0) true).1,
      deferring.flushed _ _ _ _, ?_⟩
    rw [LSMIOManager.metaPut, if_pos opened]
  | false =>
    have other : KV_CMD.META_PUT ∉ [KV_CMD.GET, KV_CMD.PUT, KV_CMD.DEL, KV_CMD.META_GET, KV_CMD.META_GET_ALL] := by
      decide +kernel
    simp only [List.mem_cons, List.not_mem_nil, or_false, not_or] at other
    refine ⟨m.aggregator.rankedKey m.aggRank [], alwaysFlush, true, drains _ _ List.length_replicate.ge, ?_⟩
    rw [LSMIOManager.metaPut, opened, if_neg Bool.false_ne_true, sendWrite,
      Message.received_serialize (m := (Command.metaPut [] (List.replicate n 0)).message)
      (Command.plain_message_command _) (show Plain [] by decide), Option.map_some]
    simp only [handleCommand, callbackForCollectiveIO, Command.message, other, if_false, if_true]

/-- Where a long put brings to light all that pends, nothing that is read may pend. -/
theorem Separated.pending (joined : m.Joined) (separated : m.Separated store alwaysFlush key s) :
    (m.Sends key → m.SameMetadataReads .ofMap alwaysFlush (shown s) (settled s)) ∧
      m.SameDataReads .ofMap alwaysFlush key (shown s) (settled s) := by
  have named := separated.namesData deferring joined
  constructor
  · intro sends
    obtain ⟨name, value, flush, ok, isData, drained, done⟩ := exists_draining_put deferring drains joined named sends
    have reads := (sameMetadataReads_shown deferring s _).mp (separated.put _ true ok _ done)
    have kept := sameMetadata_batchMutation isData (settled s) .put value flush
    rw [drained, LSMIOStore.put, deferring.mutated] at reads
    exact fun other peer => ⟨fun name old => (metaGet_congr kept name old).symm.trans ((reads other peer).1 name old),
      fun values inFix => (metaGetAll_congr kept values inFix).symm.trans ((reads other peer).2 values inFix)⟩
  · obtain ⟨name, flush, ok, drained, done⟩ := exists_draining_metaPut deferring drains m
    have reads := (sameDataReads_shown deferring key s _).mp (separated.metaPut [] _ true ok _ done)
    have kept := sameData_metaPut (settled s) name (List.replicate n 0) flush
    rw [drained, LSMIOStore.metaPut, LSMIOStore.put, deferring.mutated] at reads
    intro other peer old
    have namedThere : other.NamesData key := by rwa [NamesData, peer.1]
    exact (get_congr kept peer.2 namedThere old).symm.trans (reads other peer old)

end Drains

end Deferring

end LSMIOManager

end LSMIO
