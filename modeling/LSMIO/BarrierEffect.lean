import LSMIO.BatchLimits
import LSMIO.Deferring

namespace LSMIO

namespace StoreLDB

/-- The mutations handed to LevelDB: those it has written, and those that wait in the batch. -/
structure Deferral where
  written : List Mutation
  waiting : List Mutation

/-- A mutation that is flushed, or as long as the batch may have mutations, is
written behind the batch. One that brings the batch to a limit has the batch
written and waits in the next. -/
def Deferral.next (maxBatchSize maxBatchBytes : Int) (flush : Bool) (d : Deferral) (m : Mutation) : Deferral :=
  if flush ∨ converted 64 maxBatchSize ≤ m.value.length then ⟨d.written ++ d.waiting ++ [m], []⟩
  else if converted 32 maxBatchSize ≤ (d.waiting.length + 1) % 2 ^ 32 ∨
      converted 32 maxBatchBytes ≤ ((d.waiting.map fun m => m.value.length).sum + m.value.length) % 2 ^ 32 then
    ⟨d.written ++ d.waiting, [m]⟩
  else ⟨d.written, d.waiting ++ [m]⟩

/-- What becomes of mutations that are handed to a store behind those in its batch. -/
def deferral (first : StoreLDB) (flush : Bool) (ms : List Mutation) : Deferral :=
  ms.foldl (.next first.maxBatchSize first.maxBatchBytes flush) ⟨[], first.pending⟩

/-- The counters count the pending batch, in 32 bits. -/
structure Counted (s : StoreLDB) : Prop where
  size : s.batchSize = s.pending.length % 2 ^ 32
  bytes : s.batchBytes = s.pendingBytes % 2 ^ 32

/-- A store that got `first` by the mutations of a deferral. -/
structure Tracks (first s : StoreLDB) (d : Deferral) : Prop where
  counted : s.Counted
  db : s.db = applyAll first.db d.written
  waiting : s.pending = d.waiting
  maxBatchSize : s.maxBatchSize = first.maxBatchSize
  maxBatchBytes : s.maxBatchBytes = first.maxBatchBytes

variable {first s s' : StoreLDB} {m : Mutation} {flush batchOk directOk : Bool}

theorem Counted.appended (counted : s.Counted) (m : Mutation) : (s.appended m).Counted := by
  refine ⟨?_, ?_⟩
  · rw [pending_appended, List.length_append, List.length_singleton]
    change (s.batchSize + 1) % 2 ^ 32 = _
    rw [counted.size, Nat.mod_add_mod]
  · rw [pendingBytes, pending_appended, List.map_append, List.sum_append, List.map_singleton, List.sum_singleton]
    change (s.batchBytes + m.value.length) % 2 ^ 32 = _
    rw [counted.bytes, Nat.mod_add_mod, pendingBytes]

theorem Counted.stopBatch (counted : s.Counted) (batchOk : Bool) :
    (s.stopBatch batchOk).2.Counted ∧ (s.stopBatch batchOk).2.pending = [] := by
  unfold StoreLDB.stopBatch
  cases batch : s.batch with
  | none => exact ⟨counted, by simp [pending, batch]⟩
  | some ms => exact ⟨⟨rfl, rfl⟩, rfl⟩

theorem Counted.batchMutation (counted : s.Counted) (m : Mutation) (flush batchOk directOk : Bool) :
    (s.batchMutation m flush batchOk directOk).2.Counted := by
  obtain ⟨stopped, -⟩ := counted.stopBatch batchOk
  rw [batchMutation_eq]
  split
  · exact ⟨stopped.size, stopped.bytes⟩
  · split
    · exact stopped.appended m
    · exact counted.appended m

theorem Counted.step {e : LDBEvent} (counted : s.Counted) (taken : s.step e = some s') : s'.Counted := by
  cases e with
  | mutation m flush batchOk directOk ret =>
    simp only [StoreLDB.step] at taken
    split at taken
    · exact Option.some.inj taken ▸ counted.batchMutation m flush batchOk directOk
    · cases taken
  | get key ret =>
    simp only [StoreLDB.step] at taken
    split at taken
    · exact Option.some.inj taken ▸ counted
    · cases taken
  | readBarrier batchOk ret | writeBarrier batchOk ret =>
    simp only [StoreLDB.step] at taken
    split at taken
    · exact Option.some.inj taken ▸ (counted.stopBatch batchOk).1
    · cases taken

theorem Counted.of_run {maxBatchSize maxBatchBytes : Int} {db : Db} {trace : List LDBEvent}
    (run : Run (fun s e s' => StoreLDB.step s e = some s') (openStore maxBatchSize maxBatchBytes db) trace s) :
    s.Counted :=
  run.invariant (P := fun _ s => s.Counted) ⟨rfl, rfl⟩ fun _ _ _ _ _ counted taken => counted.step taken

/-- One mutation: written, the batch written before it, or appended to the batch. -/
theorem Tracks.next {d : Deferral} (tracks : Tracks first s d) (m : Mutation) :
    Tracks first (s.batchMutation m flush true true).2 (d.next first.maxBatchSize first.maxBatchBytes flush m) := by
  have counted := tracks.counted.batchMutation m flush true true
  have stopped : (s.stopBatch true).2.db = applyAll s.db s.pending := (stopBatch_ok fun _ => rfl).2
  obtain ⟨-, empty⟩ := tracks.counted.stopBatch true
  obtain ⟨sameSize, sameBytes⟩ : (s.stopBatch true).2.maxBatchSize = s.maxBatchSize ∧
    (s.stopBatch true).2.maxBatchBytes = s.maxBatchBytes := stopBatch_limits
  have size := sameSize.trans tracks.maxBatchSize
  have bytes := sameBytes.trans tracks.maxBatchBytes
  have drained : (s.stopBatch true).2.db = applyAll first.db (d.written ++ d.waiting) := by
    rw [stopped, tracks.db, tracks.waiting, applyAll, applyAll, applyAll, List.foldl_append]
  have reached : (s.batchSize + 1) % 2 ^ 32 = (d.waiting.length + 1) % 2 ^ 32 ∧
    (s.batchBytes + m.value.length) % 2 ^ 32 =
      ((d.waiting.map fun m => m.value.length).sum + m.value.length) % 2 ^ 32 := by
    rw [tracks.counted.size, tracks.counted.bytes, pendingBytes, tracks.waiting]
    exact ⟨Nat.mod_add_mod .., Nat.mod_add_mod ..⟩
  rw [batchMutation_eq] at counted ⊢
  rw [tracks.maxBatchSize, tracks.maxBatchBytes, reached.1, reached.2] at counted ⊢
  unfold Deferral.next
  split
  next direct =>
    rw [if_pos direct] at counted
    refine ⟨counted, ?_, empty, size, bytes⟩
    change m.apply (s.stopBatch true).2.db = _
    simp only [drained, applyAll, List.foldl_append, List.foldl_cons, List.foldl_nil]
  next deferred =>
    rw [if_neg deferred] at counted
    split
    next full =>
      rw [if_pos full] at counted
      exact ⟨counted, drained, by rw [pending_appended, empty, List.nil_append], size, bytes⟩
    next fits =>
      rw [if_neg fits] at counted
      exact ⟨counted, tracks.db, by rw [pending_appended, tracks.waiting], tracks.maxBatchSize, tracks.maxBatchBytes⟩

theorem tracks_deferral (counted : first.Counted) (flush : Bool) (ms : List Mutation) :
    Tracks first (ms.foldl (fun s m => (s.batchMutation m flush true true).2) first) (first.deferral flush ms) := by
  unfold deferral
  induction ms using List.reverseRecOn with
  | nil => exact ⟨counted, rfl, rfl, rfl, rfl⟩
  | append_singleton ms m ih =>
    rw [List.foldl_append, List.foldl_append]
    exact ih.next m

end StoreLDB

/-- What the native store keeps of a mutation. -/
def Mutation.stored (m : Mutation) : Key × Value := (m.key, m.outcome.getD MEMTABLE_TOMBSTONE)

theorem Mutation.lastValue_stored (ms : List Mutation) (key : Key) :
    lastValue (ms.map Mutation.stored) key = (lastOutcome ms key).map fun outcome =>
      outcome.getD MEMTABLE_TOMBSTONE := by
  rw [lastOutcome, ← lastValue_map, List.map_map]
  rfl

/-- What a reader sees of an outcome in place of which the store keeps a tombstone, with the empty value where it sees
nothing, is the outcome where there is a value other than the tombstone. -/
theorem eq_getD_visible_iff (last : Option (Option Value)) (older : Option Value) :
    last.getD (visible older) =
        some ((visible ((last.map fun outcome => outcome.getD MEMTABLE_TOMBSTONE).or older)).getD []) ↔
      ∃ v, last.getD (visible older) = some v ∧ v ≠ MEMTABLE_TOMBSTONE := by
  have nonempty : MEMTABLE_TOMBSTONE ≠ [] := by decide
  cases last with
  | none =>
    cases seen : visible older with
    | none => simp [seen]
    | some v => simp [seen, (visible_eq_some_iff.mp seen).2]
  | some outcome =>
    cases outcome with
    | none => simp
    | some v => by_cases dead : v = MEMTABLE_TOMBSTONE <;> simp [visible_some, dead, nonempty]

theorem eq_some_getD_iff (found : Option Value) : found = some (found.getD []) ↔ found.isSome := by
  cases found <;> simp

theorem getD_visible_ne (stored : Option Value) : (visible stored).getD [] ≠ MEMTABLE_TOMBSTONE := by
  cases seen : visible stored with
  | none => exact (by decide : ([] : Value) ≠ MEMTABLE_TOMBSTONE)
  | some v => exact (visible_eq_some_iff.mp seen).2

namespace State

/-- What the mutations landed since the opening leave under a key, behind the tables found then. -/
def leaves (first s : State) (landed : List (Key × Value)) (key : Key) : Option Value :=
  visible ((lastValue landed key).or (SSTableManager.get (readValueAt s.dir) first.head key))

/-- The mutations of a run that are in tables. -/
def published (s : State) (trace : List Event) : List (Key × Value) :=
  (mutations trace).take ((mutations trace).length - s.pending.length)

end State

namespace LSMIOManager

variable {alwaysFlush : Bool} {m : LSMIOManager} {cs : List Command} {key : Key}

/-- A local barrier makes the last put readable in every store that only defers its writes. -/
theorem readLocally_deferring {σ : Type*} {store : LSMIOStore σ} {shown settled : σ → LSMIOStore.StoreMap}
    (deferring : store.Deferring shown settled) (alwaysFlush : Bool) (m : LSMIOManager) (first : σ) (cs : List Command)
    (key : Key) : readLocally store alwaysFlush m first cs key = lastPut (settled first)[m.storedKey key]? cs key := by
  have made : settled (cs.foldl (m.madeLocally store alwaysFlush) first) =
      cs.foldl (m.madeLocally .ofMap alwaysFlush) (settled first) := by
    induction cs using List.reverseRecOn with
    | nil => rfl
    | append_singleton cs c ih =>
      rw [List.foldl_append, List.foldl_append, ← ih]
      cases c with
      | put other value => exact deferring.mutated _ .put _ value alwaysFlush
      | del other => exact deferring.mutated _ .del _ [] alwaysFlush
      | _ => rfl
  rw [readLocally, deferring.get, (deferring.readBarrier _).1, made]
  exact getElem?_madeLocally_ofMap _

/-- A run of the native store of an aggregator up to the answer to a client's
`get`: the mutations of the stored key that land before the `get` begins are,
from some point on, those of the client's commands, and none lands after. -/
structure NativeRead (cfg : Config) (first : State) (alwaysFlush : Bool) (m : LSMIOManager) (cs : List Command)
    (key : Key) (before commands during : List Event) (t : Tid) (s : State) (found : Option Value) : Prop where
  run : Run (Allowed (State.step cfg) fun _ e => e.intact = true ∧ ∀ entry ∈ e.mutation, Short entry) first
    (before ++ commands ++ [.call t (.get (m.storedKey key))] ++ during) s
  made : (mutations commands).filter (fun entry => entry.1 = m.storedKey key) =
    ((m.issued alwaysFlush cs).map Mutation.stored).filter fun entry => entry.1 = m.storedKey key
  alone : ∀ value, (m.storedKey key, value) ∉ mutations during
  returns : (State.step cfg s (.ret t (.get (m.storedKey key)) (.value found))).isSome

/-- What a `get` of the native store answers to a client. -/
theorem NativeRead.found_eq {cfg : Config} {dir : Directory} {entries : List (FileName × Bytes)}
    {before commands during : List Event} {t : Tid} {s : State} {found : Option Value}
    (read : NativeRead cfg (State.openStore cfg dir entries) alwaysFlush m cs key before commands during t s found)
    (mutate : ∀ c ∈ cs, c.outcome.isSome ∧ Plain c.message.key) :
    (s.SearchClear (.ret t (.get (m.storedKey key)) (.value found)) → found =
      visible (((lastValue (cs.filterMap Command.outcome) key).map fun outcome => outcome.getD MEMTABLE_TOMBSTONE).or
        ((lastValue (mutations before) (m.storedKey key)).or
          (SSTableManager.get (readValueAt s.dir) (State.openStore cfg dir entries).head (m.storedKey key))))) ∧
    (¬ s.SearchClear (.ret t (.get (m.storedKey key)) (.value found)) → found =
      (State.openStore cfg dir entries).leaves s
        (s.published (before ++ commands ++ [.call t (.get (m.storedKey key))] ++ during)) (m.storedKey key)) := by
  obtain ⟨flushed, inv⟩ := State.Inv.of_run (fun _ _ allowed => allowed.1) read.run
  have short := State.mutations_short (fun _ _ allowed => allowed.2) read.run
  obtain ⟨called, upToCall, back⟩ := read.run.split
  obtain ⟨_, -, -, calling⟩ := upToCall.snoc_inv
  have absent := State.missed_absent (fun _ _ allowed => allowed.1) back
    (State.not_missed_of_call calling (m.storedKey key)) read.alone
  obtain ⟨s', returns⟩ := Option.isSome_iff_exists.mp read.returns
  obtain ⟨clear, held⟩ := inv.get_returns short absent (State.stepRet_of_step returns)
  refine ⟨fun search => (Result.value.inj (clear search)).trans ?_, fun search =>
    (Result.value.inj (held search)).trans ?_⟩
  · have own : lastValue (mutations commands) (m.storedKey key) =
        (lastValue (cs.filterMap Command.outcome) key).map fun outcome => outcome.getD MEMTABLE_TOMBSTONE := by
      rw [← lastValue_filter_own, read.made, lastValue_filter_own, Mutation.lastValue_stored, issued_eq mutate,
        lastOutcome_mutation]
    rw [mutations_append, lastValue_append, lastValue_eq_none_iff.mpr read.alone, Option.none_or, mutations_append,
      mutations_append, mutations_singleton]
    simp only [Event.mutation, Option.toList_none, List.append_nil, lastValue_append, own, Option.or_assoc]
  · rw [State.leaves, State.published, inv.log, List.length_append, Nat.add_sub_cancel, List.take_left']
    rfl

/-- A remote read barrier has the effect of a local one exactly when the last command on the key is a put and its
value is where `get` finds it without a barrier: in RocksDB always; in LevelDB when what is written of the mutations
leaves this value; in the native store when it is not the tombstone and not in the hands of a flush. -/
theorem remoteBarrier_iff (alwaysFlush : Bool) (remote : m.isOpenRemote = true)
    (mutate : ∀ c ∈ cs, c.outcome.isSome ∧ Plain c.message.key) (plain : Plain key) (value : Value) :
    (∀ first : StoreRDB,
      readLocally StoreRDB.store alwaysFlush m first cs key = lastPut first.db[m.storedKey key]? cs key ∧
      (BarrierReads StoreRDB.store alwaysFlush m first cs key value (lastPut first.db[m.storedKey key]? cs key) ↔
        (lastPut first.db[m.storedKey key]? cs key).isSome)) ∧
    (∀ (maxBatchSize maxBatchBytes : Int) (db : Db) (trace : List LDBEvent) (first : StoreLDB),
      Run (fun s e s' => StoreLDB.step s e = some s') (.openStore maxBatchSize maxBatchBytes db) trace first →
      readLocally StoreLDB.store alwaysFlush m first cs key = lastPut first.settled[m.storedKey key]? cs key ∧
      (BarrierReads StoreLDB.store alwaysFlush m first cs key value (lastPut first.settled[m.storedKey key]? cs key) ↔
        lastPut first.settled[m.storedKey key]? cs key = some
          (((applyAll first.db (first.deferral alwaysFlush (m.issued alwaysFlush cs)).written)[m.storedKey key]?).getD
            []))) ∧
    ∀ (cfg : Config) (dir : Directory) (entries : List (FileName × Bytes)) (before commands during : List Event)
      (t : Tid) (s : State) (found : Option Value) (σ : Type) (store : LSMIOStore σ) (state : σ),
      NativeRead cfg (.openStore cfg dir entries) alwaysFlush m cs key before commands during t s found →
      store.get state (m.storedKey key) = found →
      (BarrierReads store alwaysFlush m state [] key value
          (lastPut ((State.openStore cfg dir entries).leaves s (mutations before) (m.storedKey key)) cs key) ↔
        ∃ v, lastPut ((State.openStore cfg dir entries).leaves s (mutations before) (m.storedKey key)) cs key = some v ∧
          v ≠ MEMTABLE_TOMBSTONE ∧ (s.SearchClear (.ret t (.get (m.storedKey key)) (.value found)) ∨
            ((State.openStore cfg dir entries).leaves s
              (s.published (before ++ commands ++ [.call t (.get (m.storedKey key))] ++ during))
              (m.storedKey key)).getD [] = v)) := by
  refine ⟨fun first => ?_, fun maxBatchSize maxBatchBytes db trace first reached => ?_, ?_⟩
  · have local' := readLocally_deferring StoreRDB.deferring alwaysFlush m first cs key
    refine ⟨local', ?_⟩
    rw [barrierReads_iff remote mutate plain, ← local', readLocally]
    exact eq_some_getD_iff _
  · refine ⟨readLocally_deferring StoreLDB.deferring alwaysFlush m first cs key, ?_⟩
    have tracks := StoreLDB.tracks_deferral (StoreLDB.Counted.of_run reached) alwaysFlush (m.issued alwaysFlush cs)
    have sent : m.issued alwaysFlush cs = cs.filterMap m.mutation := issued_eq mutate
    rw [barrierReads_iff remote mutate plain, foldl_madeLocally, ← sent, ← tracks.db]
    rfl
  · intro cfg dir entries before commands during t s found σ store state read answers
    obtain ⟨clear, held⟩ := read.found_eq mutate
    rw [barrierReads_iff remote (by simp) plain, List.foldl_nil, answers]
    by_cases search : s.SearchClear (.ret t (.get (m.storedKey key)) (.value found))
    · have seen := eq_getD_visible_iff (lastValue (cs.filterMap Command.outcome) key)
        ((lastValue (mutations before) (m.storedKey key)).or
          (SSTableManager.get (readValueAt s.dir) (State.openStore cfg dir entries).head (m.storedKey key)))
      rw [clear search, lastPut, State.leaves, seen]
      exact exists_congr fun v => and_congr_right fun _ => (and_iff_left (.inl search)).symm
    · rw [held search]
      constructor
      · exact fun same => ⟨_, same, getD_visible_ne _, .inr rfl⟩
      · rintro ⟨v, same, -, clear' | rfl⟩
        · exact absurd clear' search
        · exact same

/-- A put to RocksDB, one that LevelDB flushes, and one that the native store still has in its memtable. -/
theorem remoteBarrier_flushed :
    BarrierReads StoreRDB.store false ⟨true, 1, 2⟩ ⟨∅⟩ [.put [107] [7]] [107] [] (some [7]) ∧
    BarrierReads StoreLDB.store true ⟨true, 1, 2⟩ (.openStore 512 1000 ∅) [.put [107] [7]] [107] [] (some [7]) ∧
    ∃ s, NativeRead ⟨100, 4, 2, 0⟩ (.openStore ⟨100, 4, 2, 0⟩ ∅ []) false ⟨true, 1, 2⟩ [.put [107] [7]] [107] []
        [.call 0 (.put (ascii "1::k") [7] false), .ret 0 (.put (ascii "1::k") [7] false) (.bool true)] [] 0 s
        (some [7]) ∧
      ∀ others : LSMIOStore State, BarrierReads (State.store others) false ⟨true, 1, 2⟩ s [] [107] [] (some [7]) := by
  have mutate : ∀ c ∈ [Command.put [107] [7]], c.outcome.isSome ∧ Plain c.message.key := by decide
  have plain : Plain [107] := by decide
  have remote : (LSMIOManager.mk true 1 2).isOpenRemote = true := rfl
  obtain ⟨rocks, -, -⟩ := remoteBarrier_iff false remote mutate plain []
  obtain ⟨-, level, -⟩ := remoteBarrier_iff true remote mutate plain []
  obtain ⟨-, -, native⟩ := remoteBarrier_iff false remote mutate plain []
  refine ⟨(rocks ⟨∅⟩).2.mpr (by decide +kernel), (level 512 1000 ∅ [] _ .start).2.mpr (by decide +kernel), ?_⟩
  obtain ⟨s, run, clear, returned, answers⟩ : ∃ s, Run (Allowed (State.step ⟨100, 4, 2, 0⟩)
      fun _ e => e.intact = true ∧ ∀ entry ∈ e.mutation, Short entry) (.openStore ⟨100, 4, 2, 0⟩ ∅ [])
      (([] : List Event) ++
        [.call 0 (.put (ascii "1::k") [7] false), .ret 0 (.put (ascii "1::k") [7] false) (.bool true)] ++
        [.call 0 (.get (ascii "1::k"))] ++ []) s ∧ s.SearchClear (.ret 0 (.get (ascii "1::k")) (.value (some [7]))) ∧
      (State.step ⟨100, 4, 2, 0⟩ s (.ret 0 (.get (ascii "1::k")) (.value (some [7])))).isSome ∧
      State.get s (ascii "1::k") = some [7] :=
    Run.exists_of_any (by decide +kernel)
  have read : NativeRead ⟨100, 4, 2, 0⟩ (.openStore ⟨100, 4, 2, 0⟩ ∅ []) false ⟨true, 1, 2⟩ [.put [107] [7]] [107] []
      [.call 0 (.put (ascii "1::k") [7] false), .ret 0 (.put (ascii "1::k") [7] false) (.bool true)] [] 0 s
        (some [7]) :=
    ⟨run, by decide +kernel, by simp, returned⟩
  exact ⟨s, read, fun others => (native _ _ _ _ _ _ _ _ _ _ (State.store others) s read answers).mpr
    ⟨[7], rfl, by decide, .inl clear⟩⟩

/-- A deferred put stays in the batch of the aggregator, and the client reads the empty value. -/
theorem not_remoteBarrier : ¬ ∀ (alwaysFlush : Bool) (m : LSMIOManager) (maxBatchSize maxBatchBytes : Int) (db : Db)
    (cs : List Command) (key : Key) (value : Value), m.isOpenRemote = true →
      (∀ c ∈ cs, c.outcome.isSome ∧ Plain c.message.key) → Plain key →
        BarrierReads StoreLDB.store alwaysFlush m (.openStore maxBatchSize maxBatchBytes db) cs key value
          (lastPut db[m.storedKey key]? cs key) := by
  intro always
  have reads := always false ⟨true, 1, 2⟩ 512 1000 ∅ [.put [107] [7]] [107] [] rfl (by decide) (by decide)
    _ (readBarrier_remote rfl _)
  have put : lastPut (∅ : Db)[storedKey ⟨true, 1, 2⟩ [107]]? [.put [107] [7]] [107] = some [7] := rfl
  have empty : LSMIOManager.get StoreLDB.store false ⟨true, 1, 2⟩ ([Command.put [107] [7]].foldl
      (delivered StoreLDB.store false ⟨true, 1, 2⟩) (.openStore 512 1000 ∅)) [107] [] = some (true, []) := by
    decide +kernel
  rw [put, empty] at reads
  cases (reads.1 [7]).mpr rfl

end LSMIOManager

end LSMIO
