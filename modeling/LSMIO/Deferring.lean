import LSMIO.ManagerWrites
import LSMIO.MetadataListing
import LSMIO.StoreRDB

namespace LSMIO

/-- A store between two maps: its readers see `shown`, and its writers leave
`settled`, which a flush or a barrier shows. -/
structure LSMIOStore.Deferring {σ : Type*} (store : LSMIOStore σ) (shown settled : σ → LSMIOStore.StoreMap) : Prop where
  get : ∀ s key, store.get s key = LSMIOStore.ofMap.get (shown s) key
  getPrefix : ∀ s key, store.getPrefix s key = LSMIOStore.ofMap.getPrefix (shown s) key
  mutated : ∀ s mType key value flush, settled (store.batchMutation s mType key value flush).2 =
    (LSMIOStore.ofMap.batchMutation (settled s) mType key value flush).2
  moved : ∀ s mType key value flush, shown (store.batchMutation s mType key value flush).2 = shown s ∨
    shown (store.batchMutation s mType key value flush).2 = settled s ∨
      shown (store.batchMutation s mType key value flush).2 = settled (store.batchMutation s mType key value flush).2
  flushed : ∀ s mType key value, shown (store.batchMutation s mType key value true).2 =
    settled (store.batchMutation s mType key value true).2
  readBarrier : ∀ s, shown (store.readBarrier s).2 = settled s ∧ settled (store.readBarrier s).2 = settled s
  writeBarrier : ∀ s, shown (store.writeBarrier s).2 = settled s ∧ settled (store.writeBarrier s).2 = settled s

/-- Nothing is deferred in RocksDB. -/
theorem StoreRDB.deferring : StoreRDB.store.Deferring StoreRDB.db StoreRDB.db where
  get _ _ := rfl
  getPrefix := getPrefix_eq
  mutated _ mType _ _ _ := by cases mType <;> rfl
  moved _ _ _ _ _ := .inr (.inr rfl)
  flushed _ _ _ _ := rfl
  readBarrier _ := ⟨rfl, rfl⟩
  writeBarrier _ := ⟨rfl, rfl⟩

namespace StoreLDB

/-- What the database is once the batch is written. -/
def settled (s : StoreLDB) : Db := applyAll s.db s.pending

theorem settled_of_empty {s : StoreLDB} (empty : s.batch = none) :
    s.settled = s.db := by simp [settled, pending, empty, applyAll]

theorem stopBatch_settles (s : StoreLDB) : (s.stopBatch true).2.batch = none ∧ (s.stopBatch true).2.db = s.settled :=
  stopBatch_ok fun _ => rfl

/-- A mutation is written at once behind the batch, or joins the batch, which may be written first. -/
theorem batchMutation_cases (s : StoreLDB) (m : Mutation) (flush : Bool) :
    ((s.batchMutation m flush true true).2.batch = none ∧
      (s.batchMutation m flush true true).2.db = m.apply s.settled) ∨
      flush = false ∧ (s.batchMutation m flush true true).2.settled = m.apply s.settled ∧
        ((s.batchMutation m flush true true).2.db = s.db ∨ (s.batchMutation m flush true true).2.db = s.settled) := by
  obtain ⟨empty, written⟩ := s.stopBatch_settles
  unfold batchMutation
  split
  next =>
    refine .inl ?_
    cases batch : s.batch with
    | none => simp [batch, settled_of_empty batch]
    | some ms => simp [empty, written]
  next direct =>
    have deferred : flush = false := by simpa using (not_or.mp direct).1
    refine .inr ⟨deferred, ?_, ?_⟩
    · simp only
      split
      · simp [settled, pending, empty, written, applyAll]
      · simp [settled, pending, applyAll]
    · simp only
      split
      · exact .inr written
      · exact .inl rfl

/-- A value as long as the batch may have mutations is written at once, behind the batch. -/
theorem db_of_long {s : StoreLDB} {m : Mutation} {flush : Bool} (long : converted 64 s.maxBatchSize ≤ m.value.length) :
    (s.batchMutation m flush true true).2.db = (s.batchMutation m flush true true).2.settled := by
  refine (settled_of_empty ?_).symm
  rw [batchMutation, if_pos (.inr long)]
  cases batch : s.batch with
  | none => simp [batch]
  | some ms => simp [s.stopBatch_settles.1]

/-- LevelDB shows the database and defers the batch. -/
theorem deferring : store.Deferring db settled where
  get _ _ := rfl
  getPrefix _ _ := rfl
  mutated s mType key value flush := by
    have applied : (LSMIOStore.ofMap.batchMutation s.settled mType key value flush).2 =
        Mutation.apply s.settled ⟨mType, key, value⟩ := by cases mType <;> rfl
    rw [applied]
    rcases s.batchMutation_cases ⟨mType, key, value⟩ flush with ⟨empty, written⟩ | ⟨-, joined, -⟩
    · exact (settled_of_empty empty).trans written
    · exact joined
  moved s mType key value flush := by
    rcases s.batchMutation_cases ⟨mType, key, value⟩ flush with ⟨empty, -⟩ | ⟨-, -, same | drained⟩
    · exact .inr (.inr (settled_of_empty empty).symm)
    · exact .inl same
    · exact .inr (.inl drained)
  flushed s mType key value := by
    rcases s.batchMutation_cases ⟨mType, key, value⟩ true with ⟨empty, -⟩ | ⟨deferred, -⟩
    · exact (settled_of_empty empty).symm
    · cases deferred
  readBarrier s := by
    obtain ⟨empty, written⟩ := s.stopBatch_settles
    exact ⟨written, (settled_of_empty empty).trans written⟩
  writeBarrier s := by
    obtain ⟨empty, written⟩ := s.stopBatch_settles
    exact ⟨written, (settled_of_empty empty).trans written⟩

end StoreLDB

namespace LSMIOManager

section Deferring

variable {σ : Type*} {store : LSMIOStore σ} {shown settled : σ → LSMIOStore.StoreMap}
    (deferring : store.Deferring shown settled)
variable (alwaysFlush : Bool) (m : LSMIOManager) (s : σ)

include deferring

/-- The server's replies are read off what is shown. -/
theorem handleCommand_shown (rank : Nat) (msg : Message) :
    (m.handleCommand store alwaysFlush s rank msg).2 = (m.handleCommand .ofMap alwaysFlush (shown s) rank msg).2 := by
  have data : ∀ key, store.get s key = LSMIOStore.ofMap.get (shown s) key := deferring.get s
  have metadata : ∀ key, store.metaGet s key = LSMIOStore.ofMap.metaGet (shown s) key := fun key => deferring.get s _
  have listing : ∀ inFix, store.metaGetAll s inFix = LSMIOStore.ofMap.metaGetAll (shown s) inFix :=
    fun inFix => deferring.getPrefix s _
  simp only [handleCommand, callbackForCollectiveIO, data, metadata, listing]
  split_ifs <;> rfl

/-- The server's writes settle as on a map. -/
theorem handleCommand_settled (rank : Nat) (msg : Message) :
    settled (m.handleCommand store alwaysFlush s rank msg).1 =
      (m.handleCommand .ofMap alwaysFlush (settled s) rank msg).1 := by
  have mutated : ∀ mType key value, settled (store.batchMutation s mType key value alwaysFlush).2 =
      (LSMIOStore.ofMap.batchMutation (settled s) mType key value alwaysFlush).2 :=
    fun mType key value => deferring.mutated s mType key value alwaysFlush
  simp only [handleCommand, callbackForCollectiveIO, LSMIOStore.put, LSMIOStore.del, LSMIOStore.metaPut]
  split_ifs
  · rfl
  · exact mutated _ _ _
  · exact mutated _ _ _
  · rfl
  · rfl
  · exact mutated _ _ _
  · exact (deferring.writeBarrier s).2
  · rfl

theorem exchange_shown (c : Command) :
    m.exchange store alwaysFlush s c = m.exchange .ofMap alwaysFlush (shown s) c := by
  simp only [exchange, handleCommand_shown deferring]

theorem get_shown (key : Key) (value : Value) :
    m.get store alwaysFlush s key value = m.get .ofMap alwaysFlush (shown s) key value := by
  rw [get, get, readKey, readKey, exchange_shown deferring, deferring.get]

theorem metaGet_shown (key : Key) (value : Value) :
    m.metaGet store alwaysFlush s key value = m.metaGet .ofMap alwaysFlush (shown s) key value := by
  have metadata : ∀ name, store.metaGet s name = LSMIOStore.ofMap.metaGet (shown s) name :=
    fun name => deferring.get s _
  rw [metaGet, metaGet, readKey, readKey, exchange_shown deferring, metadata]

theorem metaGetAll_shown (values : List (Key × Value)) (inFix : Bytes) :
    m.metaGetAll store alwaysFlush s values inFix = m.metaGetAll .ofMap alwaysFlush (shown s) values inFix := by
  have listing : store.metaGetAll s inFix = LSMIOStore.ofMap.metaGetAll (shown s) inFix := deferring.getPrefix s _
  rw [metaGetAll, metaGetAll, exchange_shown deferring, listing]

theorem sendWrite_settled (c : Command) : (m.sendWrite store alwaysFlush s c).map (fun done => settled done.2) =
    (m.sendWrite .ofMap alwaysFlush (settled s) c).map Prod.snd := by
  simp only [sendWrite, Option.map_map, Function.comp_def, handleCommand_settled deferring]

theorem put_settled (key : Key) (value : Value) (flush : Bool) :
    (m.put store alwaysFlush s key value flush).map (fun done => settled done.2) =
      (m.put .ofMap alwaysFlush (settled s) key value flush).map Prod.snd := by
  unfold put
  split
  · exact congrArg some (deferring.mutated s .put _ value flush)
  · exact sendWrite_settled deferring alwaysFlush m s _

theorem metaPut_settled (key : Key) (value : Value) (flush : Bool) :
    (m.metaPut store alwaysFlush s key value flush).map (fun done => settled done.2) =
      (m.metaPut .ofMap alwaysFlush (settled s) key value flush).map Prod.snd := by
  unfold metaPut
  split
  · exact congrArg some (deferring.mutated s .put _ value flush)
  · exact sendWrite_settled deferring alwaysFlush m s _

end Deferring

end LSMIOManager

end LSMIO
